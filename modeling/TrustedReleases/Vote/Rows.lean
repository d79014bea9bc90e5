import TrustedReleases.Lib.Dict
import TrustedReleases.TaskQueue.Table

/-!
# Releases, committees and ballots

The rows that voting reads and writes (`atr/models/sql.py`), for the releases of one key: the release, the committee of
its project, the ballots, the quarantined uploads and the tasks that belong to the release.  Revision numbers are
spellings of sequence numbers, which stand for them here.  Times are in microseconds.
-/

namespace TrustedReleases

open Lib

/-! ### Enumerations -/

/-- `ReleasePhase`. -/
inductive ReleasePhase where
  | releaseCandidateDraft
  | releaseCandidate
  | releasePreview
  | release
  deriving DecidableEq, Repr

/-- The value of a phase. -/
def ReleasePhase.value : ReleasePhase → String
  | releaseCandidateDraft => "release_candidate_draft"
  | releaseCandidate => "release_candidate"
  | releasePreview => "release_preview"
  | release => "release"

/-- `VoteMode`. -/
inductive VoteMode where
  | email
  | trusted
  deriving DecidableEq, Repr

/-- `VoteChoice`. -/
inductive VoteChoice where
  | yes
  | abstain
  | no
  deriving DecidableEq, Repr

/-- The value of a choice. -/
def VoteChoice.value : VoteChoice → String
  | yes => "+1"
  | abstain => "0"
  | no => "-1"

/-- `QuarantineStatus`. -/
inductive QuarantineStatus where
  | staging
  | pending
  | failed
  | acknowledged
  deriving DecidableEq, Repr

/-- The result that a vote is resolved with. -/
inductive VoteResult where
  | passed
  | failed
  | cancelled
  deriving DecidableEq, Repr

/-- What a request fails with: an `AccessError` and its status, another exception, or the message that `cast_trusted`
returns to the voter. -/
inductive VoteError where
  | access (message : String) (status : Option Nat)
  | raised (message : String)
  | reply (message : String)
  deriving DecidableEq, Repr

/-! ### Rows -/

/-- `Committee`. -/
structure Committee where
  key : Str
  isPodling : Bool
  committeeMembers : List Str
  deriving DecidableEq, Repr

/-- `Release`. -/
structure Release where
  phase : ReleasePhase
  expedited : Bool
  voteMode : Option VoteMode
  votedRevisionNumber : Option Nat
  currentVoteSeq : Option Nat
  voteStarted : Option Int
  voteResolved : Option Int
  podlingThreadId : Option Str
  voteThreadUrl : Option Str
  activityAt : Int
  inactivityNoticeKey : Option Str
  downloadPathSuffix : Option Str
  released : Option Int
  deriving DecidableEq, Repr

/-- `BallotPaper`. -/
structure BallotPaper where
  id : Nat
  voteSeq : Nat
  voteRound : Option Nat
  voterAsfUid : Str
  voterFullname : Str
  choice : VoteChoice
  comment : Str
  isBindingAtCast : Bool
  revisionNumberAtCast : Nat
  receiptMessageId : Str
  created : Int
  deriving DecidableEq, Repr

/-- `Quarantined`.  The random tokens, which name the directories of the uploads, stand as numbers. -/
structure Quarantined where
  asfUid : Str
  priorRevisionKey : Option Nat
  status : QuarantineStatus
  token : Nat
  created : Int
  completed : Option Int
  description : Option Str
  deriving DecidableEq, Repr

/-! ### Tasks of a vote -/

/-- `args.Initiate`. -/
structure Initiate where
  emailTo : Str
  voteDuration : Nat
  initiatorId : Str
  initiatorFullname : Str
  subject : Str
  body : Str
  voteSeq : Option Nat
  emailCc : List Str
  emailBcc : List Str
  secondRoundEmailTo : Option Str
  notifyWhenFinished : Bool
  automaticResolveWhenFinished : Bool
  automaticPublishWhenResolved : Bool
  automaticPublishAsfUid : Option Str
  downloadPathSuffix : Option Str
  deriving DecidableEq, Repr

/-- `args.Send`. -/
structure Send where
  emailSender : Str
  emailTo : Str
  subject : Str
  body : Str
  inReplyTo : Option Str
  emailCc : List Str
  emailBcc : List Str
  messageId : Option Str
  deriving DecidableEq, Repr

/-- The arguments of a task that belongs to a vote. -/
inductive VoteTaskArgs where
  | initiate (a : Initiate)
  | endNotify (voteSeq : Nat)
  | autoResolve (voteSeq : Nat)
  | send (a : Send)
  deriving DecidableEq, Repr

def VoteTaskArgs.taskType : VoteTaskArgs → TaskType
  | initiate _ => .voteInitiate
  | endNotify _ => .voteEndNotify
  | autoResolve _ => .voteAutoResolve
  | send _ => .messageSend

/-- The result of a task: that of `vote_initiate`, with the end of the vote as `vote_end_get` reads it, or another. -/
inductive VoteTaskResult where
  | voteInitiate (subject : Str) (mid : Option Str) (voteEnd : Option Int)
  | other
  deriving DecidableEq, Repr

/-- A row of the task table that belongs to a vote. -/
structure VoteTask where
  args : VoteTaskArgs
  status : TaskStatus
  added : Int
  completed : Option Int
  error : Option Str
  result : Option VoteTaskResult
  deriving DecidableEq, Repr

/-- `task_mid_get`. -/
def VoteTask.mid (t : VoteTask) : Option Str :=
  match t.result with
  | some (.voteInitiate _ mid _) => mid
  | _ => none

/-- `vote_end_get`. -/
def voteEndGet (t : Option VoteTask) : Option Int :=
  match t.bind (·.result) with
  | some (.voteInitiate _ _ voteEnd) => voteEnd
  | _ => none

/-- `vote_pass_fail_allowed`. -/
def votePassFailAllowed (t : Option VoteTask) (now : Int) : Bool :=
  match voteEndGet t with
  | some voteEnd => decide (voteEnd ≤ now)
  | none => false

/-! ### Properties of a release -/

/-- `is_embargoed`. -/
def Release.isEmbargoed (r : Release) : Bool := r.expedited && decide (r.phase ≠ .release)

/-- `effective_vote_mode`, with the mode of the project's policy. -/
def Release.effectiveVoteMode (r : Release) (policyVoteMode : VoteMode) : Except VoteError VoteMode :=
  if r.expedited then
    if r.voteMode = some .email then .error (.raised "Expedited release has a non-trusted vote mode: email")
    else .ok .trusted
  else
    match r.voteMode with
    | some mode => if r.phase ≠ .releaseCandidateDraft then .ok mode else .ok policyVoteMode
    | none => .ok policyVoteMode

/-- `trusted_vote_round`. -/
def trustedVoteRound (committee : Option Committee) (r : Release) : Option Nat :=
  match committee with
  | some c => if c.isPodling then (if r.podlingThreadId.isNone then some 1 else some 2) else none
  | none => none

/-! ### Binding votes -/

/-- `is_committee_member`. -/
def isCommitteeMember (committee : Option Committee) (uid : Str) : Bool :=
  match committee with
  | some c => c.committeeMembers.any fun memberUid => decide (memberUid = uid)
  | none => false

/-- `is_binding_for_release`, with the row of the committee `incubator`. -/
def isBindingForRelease (incubator : Option Committee) (committee : Committee) (uid : Str) (voteRound : Option Nat) :
    Except VoteError Bool :=
  if committee.isPodling then
    match voteRound with
    | none => .error (.raised "Podling votes require vote_round 1 or 2")
    | some 1 => .ok (isCommitteeMember (some committee) uid)
    | some 2 => .ok (isCommitteeMember incubator uid)
    | some n => .error (.raised s!"Unexpected podling vote_round: {n}")
  else
    match voteRound with
    | some _ => .error (.raised "Non-podling votes require vote_round to be None")
    | none => .ok (isCommitteeMember (some committee) uid)

theorem isBindingForRelease_two {incubator : Option Committee} {committee : Committee} (h : committee.isPodling = true)
    (uid : Str) : isBindingForRelease incubator committee uid (some 2) = .ok (isCommitteeMember incubator uid) := by
  simp only [isBindingForRelease, h, if_true]

end TrustedReleases
