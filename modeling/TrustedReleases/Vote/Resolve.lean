import TrustedReleases.Vote.Tables

/-!
# Resolving votes

The resolution of a vote (`ReleaseManager.resolve`, `_resolve_trusted`, `__resolve_release`, `_resolve_transition` of
`atr/storage/writers/vote.py`).  A trusted vote is resolved in one transaction that reads the release again, an email
vote with the release as the request has read it.  When a podling passes its first round, the second one is started in
the same transaction.  What follows the commit (the queued publication and the emails) is not part of it.
-/

namespace TrustedReleases

open Lib

/-- The arguments of `resolve`; `securityOverride` says that a member of the security team forces it. -/
structure ResolveVote where
  voteResult : VoteResult
  asfFullname : Str
  resolutionBody : Str
  expectedVoteSeq : Option Nat
  expectedVoteMode : Option VoteMode
  automaticResolveWhenFinished : Bool
  notifyWhenFinished : Bool
  additionalCc : List Str
  additionalBcc : List Str
  earlyReason : Str
  securityOverride : Bool
  deriving DecidableEq, Repr

/-- What a resolution returns, and the tables after its transaction. -/
structure Resolved where
  tables : Tables
  votingRound : Option Nat
  secondRoundVoteSeq : Option Nat

/-! ### The transition -/

/-- The update of a resolution. -/
def Release.resolveTransition (r : Release) (now : Int) (newPhase : ReleasePhase) (newVoteMode : Option VoteMode)
    (newVoteResolved : Option Int) (newPodlingThreadId newVoteThreadUrl : Option Str) : Release :=
  { r with
    phase := newPhase
    voteMode := newVoteMode
    votedRevisionNumber := if newPhase = .releaseCandidateDraft then none else r.votedRevisionNumber
    voteResolved := newVoteResolved
    podlingThreadId := newPodlingThreadId
    voteThreadUrl := newVoteThreadUrl
    activityAt := if now < r.activityAt then r.activityAt else now
    inactivityNoticeKey := if now < r.activityAt then r.inactivityNoticeKey else none }

/-- `_cancel_pending_vote_followups`. -/
def cancelPendingVoteFollowups (now : Int) (tasks : List VoteTask) : List VoteTask :=
  tasks.map fun t =>
    match t.status, t.args with
    | .queued, .endNotify _ =>
      { t with status := .failed, completed := some now, error := some "Vote resolved before reminder fired".toList }
    | .queued, .autoResolve _ =>
      { t with status := .failed, completed := some now, error := some "Vote resolved before auto-resolution fired".toList }
    | _, _ => t

/-- The release that the update of `_resolve_transition` selects. -/
def Tables.selectForResolve (s : Tables) (loaded : Release) (expectedPodlingThreadId : Option Str) : Option Release :=
  match s.release with
  | some r =>
    if r.phase = .releaseCandidate ∧ r.currentVoteSeq = loaded.currentVoteSeq ∧
        r.podlingThreadId = expectedPodlingThreadId then some r
    else none
  | none => none

/-- `_resolve_transition`, with the release as it was loaded. -/
def resolveTransition (env : Env) (s : Tables) (loaded : Release) (expectedPodlingThreadId : Option Str)
    (newPhase : ReleasePhase) (newVoteMode : Option VoteMode) (newVoteResolved : Option Int)
    (newPodlingThreadId newVoteThreadUrl : Option Str) : Except VoteError Tables := do
  let r ← demand (s.selectForResolve loaded expectedPodlingThreadId)
    (.access "The release state has changed, please refresh and try again" (some 409))
  return { s with
    release := some (r.resolveTransition env.now newPhase newVoteMode newVoteResolved newPodlingThreadId newVoteThreadUrl)
    tasks := cancelPendingVoteFollowups env.now s.tasks }

/-- A vote that passed: the release becomes a preview. -/
def transitionToPreview (env : Env) (s : Tables) (loaded : Release) : Except VoteError Tables := do
  let voteMode ← loaded.effectiveVoteMode env.policyVoteMode
  resolveTransition env s loaded loaded.podlingThreadId .releasePreview (some voteMode) (some env.now)
    loaded.podlingThreadId env.archiveUrl

/-- A vote that failed or was cancelled: the release becomes a draft again. -/
def transitionToDraft (env : Env) (s : Tables) (loaded : Release) : Except VoteError Tables :=
  resolveTransition env s loaded loaded.podlingThreadId .releaseCandidateDraft none none none none

/-! ### The second round -/

/-- The thread id of an archive URL: what follows its last slash. -/
def threadIdOf (archiveUrl : Str) : Str := (archiveUrl.reverse.takeWhile (· ≠ '/')).reverse

/-- The arguments that the second round is started with. -/
def secondRoundStart (env : Env) (a : ResolveVote) (initiate : Initiate) (revisionNumber : Nat) (template : Str) :
    StartVote :=
  let incubatorVoteAddress := initiate.secondRoundEmailTo.getD "general@incubator.apache.org".toList
  { emailTo := incubatorVoteAddress
    voteDurationChoice := initiate.voteDuration
    subject := (env.startVoteMail template).1
    bodyData := (env.startVoteMail template).2
    asfFullname := a.asfFullname
    permittedRecipients := some [incubatorVoteAddress]
    emailCc := []
    emailBcc := []
    secondRoundEmailTo := none
    expectedVoteMode := none
    expectedRevision := some revisionNumber
    notifyWhenFinished := a.notifyWhenFinished
    automaticResolveWhenFinished := a.automaticResolveWhenFinished
    automaticPublishWhenResolved := !a.securityOverride && initiate.automaticPublishWhenResolved
    automaticPublishAsfUid := some (initiate.automaticPublishAsfUid.getD initiate.initiatorId)
    downloadPathSuffix := initiate.downloadPathSuffix }

/-- The arguments of the task that announced the vote. -/
def VoteTask.initiateArgs (t : VoteTask) : Option Initiate :=
  match t.args with
  | .initiate a => some a
  | _ => none

/-- A first round that passed: the thread is recorded and the second round started. -/
def transitionToSecondRound (env : Env) (actor : Actor) (s : Tables) (loaded : Release) (a : ResolveVote)
    (voteTask : VoteTask) (threadId : Str) (template : Option Str) : Except VoteError Started := do
  let voteMode ← loaded.effectiveVoteMode env.policyVoteMode
  let s ← resolveTransition env s loaded none .releaseCandidate (some voteMode) none (some threadId) none
  -- the release is refreshed, so the start sees it as it is now
  let v ← demand s.view (.raised "Release not found")
  raiseIf (v.committees.committee = none) (.access "Project has no committee - Invalid state" (some 500))
  let revisionNumber ← demand v.latestRevisionNumber (.access "Release has no revision number - Invalid state" (some 500))
  let template ← demand template (.access "Second round vote template was not resolved" (some 500))
  let initiate ← demand voteTask.initiateArgs (.raised "vote_duration")
  start env actor s v false (secondRoundStart env a initiate revisionNumber template)

/-! ### Completing a vote early -/

/-- `EARLY_VOTE_REASON_MAX_LENGTH`. -/
def earlyVoteReasonMaxLength : Nat := 1000

/-- `__early_completion_reason`. -/
def earlyCompletionReason (cs : Committees) (committee : Committee) (actor : Actor) (votingRound : Option Nat)
    (voteResult : VoteResult) (voteEnd : Option Int) (earlyReason : Str) : Except VoteError Str := do
  let reason := strip earlyReason
  raiseIf (voteResult ≠ .passed ∨ voteEnd = none)
    (.access "The vote cannot be resolved before the voting period has ended unless it is cancelled." (some 409))
  raiseIf (reason = [])
    (.access "A reason is required to complete a vote before the voting period has ended" (some 409))
  raiseIf (earlyVoteReasonMaxLength < reason.length)
    (.access s!"The early completion reason must be at most {earlyVoteReasonMaxLength} characters" (some 400))
  let isBinding ← isBindingForRelease cs.incubator committee actor.asfUid votingRound
  raiseIf (isBinding = false) (.access "Only binding voters can complete this vote early" (some 403))
  return reason

/-! ### Trusted votes -/

/-- The label of a vote that counts, inside a sentence. -/
def bindingLabelInline (votingRound : Option Nat) : String := if votingRound = some 1 then "PPMC-binding" else "binding"

/-- The checks of `_resolve_trusted` on the ballots: there are enough votes to pass, unless that is bypassed. -/
def checkTrustedBallots (s : Tables) (r : Release) (voteSeq : Nat) (voteResult : VoteResult) (bypass : Bool) :
    Except VoteError Unit := do
  let ballots ← effectiveTrustedBallots s.committees r s.ballots voteSeq
  let summary ← trustedBallotSummary s.committees r ballots
  let label := bindingLabelInline (trustedVoteRound s.committees.committee r)
  raiseIf (voteResult = .passed ∧ bindingVotePasses summary.bindingVotesYes summary.bindingVotesNo = false ∧ bypass = false)
    (.access s!"The trusted ballot record does not have enough {label} +1 votes to pass." (some 409))

/-- The transition of `_resolve_trusted`. -/
def trustedTransition (env : Env) (actor : Actor) (s : Tables) (r : Release) (a : ResolveVote)
    (podlingRoundOneThreadId template : Option Str) : Except VoteError Resolved :=
  let votingRound := trustedVoteRound s.committees.committee r
  if votingRound = some 1 ∧ a.voteResult = .passed then do
    let voteTask ← demand (s.currentVoteTask r.currentVoteSeq)
      (.access "No vote task found, unable to start the Incubator vote." (some 404))
    let threadId ← demand podlingRoundOneThreadId (.access "No archive URL found for podling vote" (some 404))
    let started ← transitionToSecondRound env actor s r a voteTask threadId template
    return ⟨started.tables, votingRound, some started.voteSeq⟩
  else if a.voteResult = .passed then do
    let s ← transitionToPreview env s r
    return ⟨s, votingRound, none⟩
  else do
    let s ← transitionToDraft env s r
    return ⟨s, votingRound, none⟩

/-- `_resolve_trusted`, up to its commit. -/
def resolveTrusted (env : Env) (actor : Actor) (s : Tables) (a : ResolveVote)
    (podlingRoundOneThreadId template : Option Str) : Except VoteError Resolved := do
  let stale := VoteError.access "The resolve form is stale, please refresh and try again" (some 409)
  let r ← demand s.candidate (.access "Release not found" (some 404))
  raiseIf (a.expectedVoteMode.isSome = true ∧ a.expectedVoteMode ≠ some .trusted) stale
  let mode ← r.effectiveVoteMode env.policyVoteMode
  raiseIf (mode ≠ .trusted) (.access "Release is not configured for trusted voting" (some 409))
  let voteSeq ← demand r.currentVoteSeq (.access "Vote serial is missing, please refresh and try again" (some 409))
  raiseIf (a.expectedVoteSeq.isSome = true ∧ a.expectedVoteSeq ≠ some voteSeq) stale
  let committee ← demand s.committees.committee (.access "Project has no committee - Invalid state" (some 500))
  let voteTask := s.currentVoteTask (some voteSeq)
  let bypass := a.securityOverride || env.resolutionBypass
  let early := a.voteResult ≠ .cancelled ∧ (voteEndGet voteTask).isSome = true ∧
    votePassFailAllowed voteTask env.now = false ∧ bypass = false
  let _ ← (if early then
      earlyCompletionReason s.committees committee actor (trustedVoteRound (some committee) r) a.voteResult
        (voteEndGet voteTask) a.earlyReason
    else .ok [])
  checkTrustedBallots s r voteSeq a.voteResult bypass
  trustedTransition env actor s r a podlingRoundOneThreadId template

/-! ### Email votes -/

/-- `__resolve_release`, up to its commit. -/
def resolveRelease (env : Env) (actor : Actor) (s : Tables) (v : View) (a : ResolveVote) (voteTask : VoteTask)
    (template : Option Str) : Except VoteError Resolved :=
  let votingRound := trustedVoteRound v.committees.committee v.release
  if votingRound = some 1 ∧ a.voteResult = .passed then do
    ensureProjectActive env
    let archiveUrl ← demand env.archiveUrl (.access "No archive URL found for podling vote" (some 404))
    let started ← transitionToSecondRound env actor s v.release a voteTask (threadIdOf archiveUrl) template
    return ⟨started.tables, votingRound, some started.voteSeq⟩
  else if a.voteResult = .passed then do
    ensureProjectActive env
    let s ← transitionToPreview env s v.release
    return ⟨s, votingRound, none⟩
  else do
    ensureProjectActive env
    let s ← transitionToDraft env s v.release
    return ⟨s, votingRound, none⟩

/-- The part of `resolve` for an email vote. -/
def resolveEmail (env : Env) (actor : Actor) (s : Tables) (v : View) (a : ResolveVote) (template : Option Str) :
    Except VoteError Resolved := do
  raiseIf (a.expectedVoteSeq.isSome = true ∧ v.release.currentVoteSeq.isSome = true ∧
      v.release.currentVoteSeq ≠ a.expectedVoteSeq)
    (.access "The resolve form is stale, please refresh and try again" (some 409))
  let voteTask ← demand v.voteTask (.access "No vote task found, unable to send resolution message." (some 404))
  let committee ← demand v.committees.committee (.access "Project has no committee - Invalid state" (some 500))
  let early := a.voteResult ≠ .cancelled ∧ a.securityOverride = false ∧
    votePassFailAllowed (some voteTask) env.now = false ∧ env.resolutionBypass = false
  let _ ← (if early then
      earlyCompletionReason v.committees committee actor (trustedVoteRound (some committee) v.release) a.voteResult
        (voteEndGet (some voteTask)) a.earlyReason
    else .ok [])
  raiseIf (early ∧ env.emailVotePasses = false)
    (.access "ATR could not confirm that this vote is passing, so it cannot be completed early" (some 409))
  resolveRelease env actor s v a voteTask template

/-! ### Requests -/

/-- An expedited resolution is sent to nobody else. -/
def ResolveVote.additions (a : ResolveVote) (r : Release) : List Str :=
  if r.expedited then [] else a.additionalCc ++ a.additionalBcc

/-- The checks of `resolve` before it turns to the vote's mode. -/
def checkResolve (env : Env) (actor : Actor) (v : View) (a : ResolveVote) : Except VoteError Unit := do
  raiseIf (v.release.phase ≠ .releaseCandidate) (.access "Release not found" (some 404))
  ensureProjectActive env
  (if a.securityOverride then
      raiseIf (v.voteTask.bind VoteTask.mid = none)
        (.access "The vote has not been announced, so it cannot be forced" (some 409))
    else ensureReleaseWritable actor v.release)
  (match (a.additions v.release).find? fun address => decide (address ∉ env.votingRecipients) with
    | some address =>
      raiseIf (v.committees.committee ≠ none)
        (.access s!"Invalid recipient selection: {String.ofList address}" (some 400))
    | none => .ok ())
  let mode ← v.release.effectiveVoteMode env.policyVoteMode
  raiseIf (a.expectedVoteMode.isSome = true ∧ a.expectedVoteMode ≠ some mode)
    (.access "The resolve form is stale, please refresh and try again" (some 409))

/-- `resolve`, up to the commit of its transaction.  The release is as the request has read it. -/
def resolve (env : Env) (actor : Actor) (s : Tables) (v : View) (a : ResolveVote) : Except VoteError Resolved := do
  let a := { a with automaticResolveWhenFinished := a.automaticResolveWhenFinished && !a.securityOverride }
  checkResolve env actor v a
  let firstRoundPassed := a.voteResult = .passed ∧ trustedVoteRound v.committees.committee v.release = some 1
  let template := if firstRoundPassed then some env.startVoteTemplate else none
  let mode ← v.release.effectiveVoteMode env.policyVoteMode
  match mode with
  | .trusted =>
    resolveTrusted env actor s a (if firstRoundPassed then env.archiveUrl.map threadIdOf else none) template
  | .email => resolveEmail env actor s v a template

end TrustedReleases
