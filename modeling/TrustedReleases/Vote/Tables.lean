import TrustedReleases.Vote.Ballots

/-!
# Starting votes and casting ballots

The tables of the releases of one key, and the transactions that start a vote and cast a ballot
(`CommitteeParticipant.start_vote_no_commit`, `ReleaseManager.start`, `FoundationCommitter.cast_trusted`).  A request
reads the release before it takes the write lock (`View`), and what it has read can be out of date by then.  A
transaction that fails is rolled back.  `Env` holds what it sees outside of the tables.
-/

namespace TrustedReleases

open Lib

/-- The rows of the releases of one key, with the two counters that outlive them. -/
structure Tables where
  release : Option Release
  revisions : List Nat
  revisionCounter : Option Nat
  voteCounter : Option Nat
  ballots : List BallotPaper
  quarantined : Dict Nat Quarantined
  tasks : List VoteTask
  committees : Committees

/-- A release as a request has read it, with its vote task. -/
structure View where
  release : Release
  committees : Committees
  latestRevisionNumber : Option Nat
  voteTask : Option VoteTask
  deriving DecidableEq, Repr

/-- Who makes a request, and whether they are a member of the project's committee. -/
structure Actor where
  asfUid : Str
  memberOf : Bool
  deriving DecidableEq, Repr

/-- What a transaction sees outside of the tables: the time, the project and its policy, the checks and files of the
release, the permitted recipients, and what the mail archives and templates give. -/
structure Env where
  now : Int
  testMode : Bool
  projectKey : String
  versionKey : String
  projectActive : Bool
  policyVoteMode : VoteMode
  tasksOngoing : Nat
  blockerChecks : Bool
  fileCount : Nat
  concernError : Option String
  firstRoundRecipients : List Str
  secondRoundRecipients : List Str
  votingRecipients : List Str
  archiveUrl : Option Str
  resolutionBypass : Bool
  emailVotePasses : Bool
  startVoteTemplate : Str
  startVoteMail : Str → Str × Str
  voteEmailBody : Bool → Str

namespace Tables

variable (s : Tables)

/-- `latest_revision_number`. -/
def latestRevisionNumber : Option Nat := s.revisions.max?

/-- `release_current_vote_task`, and `release_latest_vote_task` for a release without a vote number. -/
def currentVoteTask (currentVoteSeq : Option Nat) : Option VoteTask :=
  latestBy (·.added) (s.tasks.filter fun t =>
    match t.args with
    | .initiate a => currentVoteSeq.isNone || decide (a.voteSeq = currentVoteSeq)
    | _ => false)

/-- The release as it is now. -/
def view : Option View :=
  s.release.map fun r => ⟨r, s.committees, s.latestRevisionNumber, s.currentVoteTask r.currentVoteSeq⟩

/-- `pending_quarantine_count`. -/
def pendingQuarantineCount : Nat :=
  (s.quarantined.keys.filter fun id =>
    match s.quarantined.get id with
    | some q => decide (q.status = .staging ∨ q.status = .pending)
    | none => false).length

end Tables

/-- The number that a counter gives out next: an upsert starts at 1. -/
def allocate (counter : Option Nat) : Nat :=
  match counter with
  | none => 1
  | some n => n + 1

/-! ### Checks -/

/-- `ensure_project_active`. -/
def ensureProjectActive (env : Env) : Except VoteError Unit :=
  raiseIf (env.projectActive = false)
    (.access s!"Project '{env.projectKey}' is archived; release actions are disabled." none)

/-- `ensure_release_writable`. -/
def ensureReleaseWritable (actor : Actor) (r : Release) : Except VoteError Unit :=
  raiseIf (r.isEmbargoed = true ∧ actor.memberOf = false) (.access "Not authorized" (some 403))

/-- The checks of a draft that is about to become a candidate: its tasks and quarantined uploads. -/
def checkDraftIdle (env : Env) (s : Tables) : Except VoteError Unit := do
  raiseIf (0 < env.tasksOngoing) (.access "All checks must be completed before starting a vote" (some 409))
  raiseIf (0 < s.pendingQuarantineCount)
    (.access "Archive validation is still in progress. Please wait for it to complete before starting a vote." (some 409))

/-- The checks of a draft that is about to become a candidate: its files and their concerns. -/
def checkDraftFiles (env : Env) : Except VoteError Unit := do
  raiseIf (env.fileCount = 0) (.access "This candidate draft is empty, containing no files" (some 400))
  match env.concernError with
  | some e => .error (.access e (some 409))
  | none => .ok ()

/-! ### Starting a vote -/

/-- The update of a started vote. -/
def Release.startVote (r : Release) (now : Int) (promote : Bool) (voteSeq : Nat) (voteMode : VoteMode)
    (revisionForCas : Nat) : Release :=
  let r := { r with
    voteStarted := some now
    voteResolved := none
    currentVoteSeq := some voteSeq
    activityAt := if now < r.activityAt then r.activityAt else now
    inactivityNoticeKey := if now < r.activityAt then r.inactivityNoticeKey else none }
  if promote then
    { r with phase := .releaseCandidate, voteMode := some voteMode, votedRevisionNumber := some revisionForCas }
  else r

/-- What `start_vote_no_commit` returns, and the tables after it. -/
structure Started where
  tables : Tables
  voteSeq : Nat
  voteMode : VoteMode
  revisionNumber : Nat

/-- The release that the update of `start_vote_no_commit` selects. -/
def Tables.selectForStart (s : Tables) (promote : Bool) (expectedPhase : ReleasePhase) (revisionForCas : Nat)
    (expectedPodlingThreadId : Option Str) : Option Release :=
  match s.release with
  | some r =>
    if r.phase = expectedPhase ∧ s.latestRevisionNumber = some revisionForCas ∧
        (promote = false → (r.votedRevisionNumber = none ∨ r.votedRevisionNumber = some revisionForCas) ∧
          r.podlingThreadId = expectedPodlingThreadId) then some r
    else none
  | none => none

/-- `start_vote_no_commit`. -/
def startVoteNoCommit (env : Env) (actor : Actor) (s : Tables) (v : View) (promote : Bool) (expectedRevision : Option Nat)
    (expectedVoteMode : Option VoteMode) (expectedPodlingThreadId : Option Str) : Except VoteError Started := do
  let newer := VoteError.access "A newer revision appeared, please refresh and try again." (some 409)
  let changed := VoteError.access "The release state has changed, please refresh and try again" (some 409)
  ensureProjectActive env
  ensureReleaseWritable actor v.release
  let revisionNumber ← demand v.latestRevisionNumber (.raised "Release has no revisions")
  raiseIf (expectedRevision.isSome = true ∧ expectedRevision ≠ some revisionNumber) newer
  let revisionForCas := expectedRevision.getD revisionNumber
  let voteMode ← (if promote then v.release.effectiveVoteMode env.policyVoteMode else demand v.release.voteMode changed)
  raiseIf (expectedVoteMode.isSome = true ∧ expectedVoteMode ≠ some voteMode)
    (.access "This release's vote mode does not allow that action" (some 409))
  (if promote then checkDraftIdle env s else .ok ())
  let expectedPhase := if promote then ReleasePhase.releaseCandidateDraft else .releaseCandidate
  raiseIf (v.release.phase ≠ expectedPhase)
    (if promote then .access "This release is not in the candidate draft phase" (some 409) else changed)
  raiseIf (env.blockerChecks = true)
    (.access "This release candidate draft has blockers. Please fix the blockers before starting a vote." (some 409))
  (if promote then checkDraftFiles env else .ok ())
  let voteSeq := allocate s.voteCounter
  let r ← demand (s.selectForStart promote expectedPhase revisionForCas expectedPodlingThreadId) newer
  return {
    tables := { s with
      release := some (r.startVote env.now promote voteSeq voteMode revisionForCas)
      voteCounter := some voteSeq }
    voteSeq := voteSeq
    voteMode := voteMode
    revisionNumber := revisionNumber }

/-- The arguments of `start`. -/
structure StartVote where
  emailTo : Str
  voteDurationChoice : Nat
  subject : Str
  bodyData : Str
  asfFullname : Str
  permittedRecipients : Option (List Str)
  emailCc : List Str
  emailBcc : List Str
  secondRoundEmailTo : Option Str
  expectedVoteMode : Option VoteMode
  expectedRevision : Option Nat
  notifyWhenFinished : Bool
  automaticResolveWhenFinished : Bool
  automaticPublishWhenResolved : Bool
  automaticPublishAsfUid : Option Str
  downloadPathSuffix : Option Str
  deriving DecidableEq, Repr

/-- An expedited vote goes to the committee's private list and has no options. -/
def StartVote.expedite (a : StartVote) (committee : Committee) : StartVote :=
  let emailTo := "private@".toList ++ committee.key ++ ".apache.org".toList
  { a with
    emailTo := emailTo
    emailCc := []
    emailBcc := []
    secondRoundEmailTo := none
    voteDurationChoice := 0
    permittedRecipients := some [emailTo]
    notifyWhenFinished := false
    automaticResolveWhenFinished := false
    downloadPathSuffix := none }

/-- The checks of `start` on its options and recipients. -/
def checkStart (env : Env) (actor : Actor) (v : View) (committee : Committee) (voteMode : VoteMode) (a : StartVote) :
    Except VoteError Unit := do
  raiseIf (a.notifyWhenFinished = true ∧ voteMode ≠ .trusted)
    (.access "Vote end reminders are only available in Trusted Vote mode" (some 403))
  raiseIf (a.automaticResolveWhenFinished = true ∧ voteMode ≠ .trusted)
    (.access "Automatic vote resolution is only available in Trusted Vote mode" (some 403))
  raiseIf (a.automaticResolveWhenFinished = true ∧ committee.isPodling = true ∧ v.release.podlingThreadId = none)
    (.access "Automatic vote resolution is not available for the first round of podling votes" (some 403))
  raiseIf (a.automaticPublishWhenResolved = true ∧ v.release.expedited = true)
    (.access "Automatic SVN publish is not available for expedited releases" (some 403))
  raiseIf (a.automaticPublishWhenResolved = true ∧ actor.memberOf = false)
    (.access "Automatic SVN publish requires a committee member initiator" (some 403))
  raiseIf (¬ ∀ addr ∈ a.emailTo :: (a.emailCc ++ a.emailBcc), addr ∈ a.permittedRecipients.getD env.firstRoundRecipients)
    (.access "Invalid mailing list choice" (some 403))
  raiseIf (¬ ∀ addr ∈ a.secondRoundEmailTo, addr ∈ env.secondRoundRecipients)
    (.access "Second round mailing list choice is not permitted" (some 403))

/-- The chosen suffix is locked onto the release. -/
def Tables.lockDownloadPath (s : Tables) (a : StartVote) : Tables :=
  if a.automaticPublishWhenResolved then
    { s with release := s.release.map fun r => { r with downloadPathSuffix := some (a.downloadPathSuffix.getD []) } }
  else s

/-- The task that announces the vote. -/
def StartVote.initiate (a : StartVote) (actor : Actor) (voteSeq : Nat) : Initiate where
  emailTo := a.emailTo
  voteDuration := a.voteDurationChoice
  initiatorId := actor.asfUid
  initiatorFullname := a.asfFullname
  subject := a.subject
  body := a.bodyData
  voteSeq := some voteSeq
  emailCc := a.emailCc
  emailBcc := a.emailBcc
  secondRoundEmailTo := a.secondRoundEmailTo
  notifyWhenFinished := a.notifyWhenFinished
  automaticResolveWhenFinished := a.automaticResolveWhenFinished
  automaticPublishWhenResolved := a.automaticPublishWhenResolved
  automaticPublishAsfUid :=
    if a.automaticPublishWhenResolved then some (a.automaticPublishAsfUid.getD actor.asfUid) else a.automaticPublishAsfUid
  downloadPathSuffix := a.downloadPathSuffix

/-- A task is added to the queue. -/
def Tables.addTask (s : Tables) (now : Int) (args : VoteTaskArgs) : Tables :=
  { s with tasks := s.tasks ++ [⟨args, .queued, now, none, none, none⟩] }

/-- `start`: with `promote` a transaction of its own, and else a part of the one that resolves the first round. -/
def start (env : Env) (actor : Actor) (s : Tables) (v : View) (promote : Bool) (a : StartVote) :
    Except VoteError Started := do
  ensureProjectActive env
  raiseIf (v.release.expedited = true ∧ v.committees.committee.any (·.isPodling) = true)
    (.access "Expedited releases are not available for podling projects" (some 400))
  let started ← startVoteNoCommit env actor s v promote a.expectedRevision
    (if promote then a.expectedVoteMode else none) (if promote then none else v.release.podlingThreadId)
  let committee ← demand v.committees.committee (.access "Release has no committee" (some 500))
  let a := if v.release.expedited then a.expedite committee else a
  checkStart env actor v committee started.voteMode a
  return { started with
    tables := (started.tables.lockDownloadPath a).addTask env.now (.initiate (a.initiate actor started.voteSeq)) }

/-! ### Casting a ballot -/

/-- The arguments of `cast_trusted`, with the message id that it makes. -/
structure CastVote where
  choice : VoteChoice
  comment : Str
  fullname : Str
  expectedVoteSeq : Option Nat
  expectedVoteMode : Option VoteMode
  receiptMessageId : Str
  deriving DecidableEq, Repr

/-- The id of the next ballot: one more than the largest. -/
def nextBallotId (ballots : List BallotPaper) : Nat := ((ballots.map (·.id)).max?).getD 0 + 1

/-- The round that a ballot is cast in. -/
def castRound (committee : Committee) (r : Release) : Option Nat :=
  if committee.isPodling then (if r.podlingThreadId.isSome then some 2 else some 1) else none

/-- The release that is voted on. -/
def Tables.candidate (s : Tables) : Option Release := s.release.filter fun r => decide (r.phase = .releaseCandidate)

/-- The email of a ballot. -/
def CastVote.send (env : Env) (actor : Actor) (start : Initiate) (subject startMid : Str) (isBinding : Bool)
    (c : CastVote) : Send where
  emailSender := actor.asfUid ++ "@apache.org".toList
  emailTo := start.emailTo
  subject := "Re: ".toList ++ subject
  body := env.voteEmailBody isBinding
  inReplyTo := some startMid
  emailCc := start.emailCc
  emailBcc := start.emailBcc
  messageId := some c.receiptMessageId

/-- The announcement that a ballot replies to. -/
def voteThread (t : VoteTask) : Except VoteError (Initiate × Str × Str) :=
  match t.args, t.result with
  | .initiate a, some (.voteInitiate subject mid _) => do
    let mid ← demand mid (.reply "No vote thread found.")
    return (a, subject, mid)
  | _, none => .error (.reply "Vote task has not completed yet.")
  | _, some _ => .error (.reply "Vote task result is not a VoteInitiate result.")

/-- `cast_trusted`. -/
def castTrusted (env : Env) (actor : Actor) (s : Tables) (c : CastVote) : Except VoteError Tables := do
  let stale := VoteError.reply "The vote form is stale, please refresh and try again."
  let r ← demand s.candidate (.reply "Vote is no longer open.")
  ensureReleaseWritable actor r
  raiseIf (c.expectedVoteMode.isSome = true ∧ c.expectedVoteMode ≠ some .trusted) stale
  let mode ← r.effectiveVoteMode env.policyVoteMode
  raiseIf (mode ≠ .trusted) (.reply "This release is not accepting trusted votes.")
  let voteSeq ← demand r.currentVoteSeq (.reply "Vote serial is missing, please refresh and try again.")
  raiseIf (c.expectedVoteSeq.isSome = true ∧ c.expectedVoteSeq ≠ some voteSeq) stale
  let committee ← demand s.committees.committee (.reply "The committee for this release was not found.")
  let revisionNumber ← demand s.latestRevisionNumber (.reply "No revision found for this release.")
  let voteRound := castRound committee r
  let isBinding ← isBindingForRelease s.committees.incubator committee actor.asfUid voteRound
  let startTask ← demand (s.currentVoteTask (some voteSeq)) (.reply "No vote task found.")
  let thread ← voteThread startTask
  let ballot : BallotPaper := {
    id := nextBallotId s.ballots
    voteSeq := voteSeq
    voteRound := voteRound
    voterAsfUid := actor.asfUid
    voterFullname := c.fullname
    choice := c.choice
    comment := c.comment
    isBindingAtCast := isBinding
    revisionNumberAtCast := revisionNumber
    receiptMessageId := c.receiptMessageId
    created := env.now }
  return { s with ballots := s.ballots ++ [ballot] }.addTask env.now
    (.send (c.send env actor thread.1 thread.2.1 thread.2.2 isBinding))

end TrustedReleases
