import TrustedReleases.Vote.Resolve
import TrustedReleases.Vote.Uploads

/-!
# Requests and workers

The releases of one key as a system: any number of requests, which read the release and later run their transaction,
uploads between their two commits, workers that validate quarantined uploads, and the rest of the program, which
maintains the committees and works on the tasks.  Every step is one transaction or an event of a process; a transaction
that fails changes nothing.  A worker can be lost between any two of its transactions, and its task is then queued again.
-/

namespace TrustedReleases

open Lib

/-! ### Uploads and their validation -/

/-- How far a validation is (`validate` of `atr/tasks/quarantine.py`): it waits for a worker, works on the row that it
has read, has promoted the upload, has marked it as failed, or has nothing left to do. -/
inductive ValidationStage where
  | queued
  | validating (q : Quarantined)
  | promoted
  | failed (q : Quarantined)
  | finished

/-- A task that validates the quarantined upload with the id. -/
structure Validation where
  quarantinedId : Nat
  stage : ValidationStage

/-- A worker has the row of the upload in its hands. -/
def Validation.working (v : Validation) : Bool :=
  match v.stage with
  | .validating _ => true
  | .promoted => true
  | _ => false

/-! ### The system -/

/-- What has happened to the votes of the releases. -/
inductive VoteEvent where
  | started (voteSeq : Nat)
  | resolved (voteSeq : Nat) (votingRound : Option Nat) (voteResult : VoteResult) (votedRevisionNumber : Option Nat)
  deriving DecidableEq, Repr

/-- The state of the system: the tables, the releases that requests have read, the uploads that are stored and not yet
queued, the validation tasks, the directories of the quarantined uploads by their tokens, and what has happened. -/
structure System where
  tables : Tables
  seen : List View
  staging : List Nat
  validations : Dict Nat Validation
  directories : List Nat
  nextToken : Nat
  history : List VoteEvent

/-- What can happen.  A request names the read that it goes by. -/
inductive Op where
  | read
  | setCommittees (cs : Committees)
  | setTasks (tasks : List VoteTask)
  | startRelease (env : Env) (actor : Actor) (expedited : Bool) (downloadPathSuffix : Option Str)
      (checks : Except VoteError Unit)
  | deleteRelease (env : Env) (actor : Actor) (phase : Option ReleasePhase)
  | announce (env : Env) (actor : Actor) (i : Nat) (previewRevisionNumber : Option Nat)
      (published : Except VoteError Unit)
  | createRevision (env : Env) (actor : Actor) (i : Nat) (a : NewRevision) (files : Except VoteError Bool) (id : Nat)
  | queueValidation (id task : Nat)
  | loseUpload (id : Nat)
  | claimValidation (task : Nat)
  | promote (env : Env) (task : Nat)
  | deleteQuarantined (task : Nat)
  | markFailed (env : Env) (task : Nat)
  | removeDirectory (task : Nat)
  | loseWorker (task : Nat)
  | endValidation (task : Nat)
  | clearQuarantine (env : Env) (actor : Actor) (id : Nat)
  | startVote (env : Env) (actor : Actor) (i : Nat) (a : StartVote)
  | castTrusted (env : Env) (actor : Actor) (c : CastVote)
  | resolve (env : Env) (actor : Actor) (i : Nat) (a : ResolveVote)

/-- The serial number of the current vote. -/
def Tables.currentVoteSeq (s : Tables) : Option Nat := s.release.bind (·.currentVoteSeq)

/-- The revision that is voted on. -/
def Tables.votedRevisionNumber (s : Tables) : Option Nat := s.release.bind (·.votedRevisionNumber)

namespace System

/-- No release, with the committees and the counters that earlier ones have left. -/
def init (cs : Committees) (revisionCounter voteCounter : Option Nat) : System where
  tables := ⟨none, [], revisionCounter, voteCounter, [], ∅, [], cs⟩
  seen := []
  staging := []
  validations := ∅
  directories := []
  nextToken := 0
  history := []

variable (s : System)

/-- The end of a transaction. -/
def commit (outcome : Except VoteError Tables) : System :=
  match outcome with
  | .ok tables => { s with tables := tables }
  | .error _ => s

/-- The validation is at another stage. -/
def setStage (task : Nat) (v : Validation) (stage : ValidationStage) : System :=
  { s with validations := Dict.set s.validations task { v with stage := stage } }

/-- The commit of `create_revision_with_quarantine`; a quarantined upload has a directory from then on.  Its row gets
an id that no row has. -/
def createRevision (env : Env) (actor : Actor) (v : View) (a : NewRevision) (files : Except VoteError Bool) (id : Nat) :
    System :=
  match createRevisionWithQuarantine env actor s.tables v [.releaseCandidateDraft] a files id s.nextToken with
  | .ok (.revision tables) => { s with tables := tables }
  | .ok (.quarantined tables) =>
    if (Dict.get s.tables.quarantined id).isNone then { s with
      tables := tables
      staging := s.staging ++ [id]
      directories := s.directories ++ [s.nextToken]
      nextToken := s.nextToken + 1 }
    else s
  | .error _ => s

/-- The second commit of an upload, which queues its validation. -/
def queueValidation (id task : Nat) : System :=
  match s.tables.setPending id with
  | some tables =>
    if id ∈ s.staging ∧ (Dict.get s.validations task).isNone = true then { s with
      tables := tables
      staging := s.staging.filter fun i => decide (i ≠ id)
      validations := Dict.set s.validations task ⟨id, .queued⟩ }
    else s
  | none => s

/-- A worker starts to validate: it reads the row, and goes on if it is pending. -/
def claimValidation (task : Nat) (v : Validation) : System :=
  match v.stage with
  | .queued =>
    match Dict.get s.tables.quarantined v.quarantinedId with
    | some q => if q.status = .pending then s.setStage task v (.validating q) else s.setStage task v .finished
    | none => s.setStage task v .finished
  | _ => s

/-- The first commit of `_promote`: the directory of the upload becomes the one of the revision. -/
def promote (env : Env) (task : Nat) (v : Validation) : System :=
  match v.stage with
  | .validating q =>
    if q.token ∈ s.directories then
      match finaliseRevision env s.tables with
      | .ok tables => { s with
          tables := tables
          validations := Dict.set s.validations task { v with stage := .promoted }
          directories := s.directories.filter fun t => decide (t ≠ q.token) }
      | .error _ => s
    else s
  | _ => s

/-- The second commit of `_promote`. -/
def deleteQuarantined (task : Nat) (v : Validation) : System :=
  match v.stage with
  | .promoted => { s with
      tables := { s.tables with quarantined := Dict.pop s.tables.quarantined v.quarantinedId }
      validations := Dict.set s.validations task { v with stage := .finished } }
  | _ => s

/-- The files cannot be found or extracted. -/
def markFailed (env : Env) (task : Nat) (v : Validation) : System :=
  match v.stage with
  | .validating q =>
    match TrustedReleases.markFailed env s.tables v.quarantinedId q with
    | .ok tables => { s with
        tables := tables
        validations := Dict.set s.validations task { v with stage := .failed q } }
    | .error _ => s
  | _ => s

/-- After a failure the directory is removed. -/
def removeDirectory (v : Validation) : System :=
  match v.stage with
  | .validating q => { s with directories := s.directories.filter fun t => decide (t ≠ q.token) }
  | .failed q => { s with directories := s.directories.filter fun t => decide (t ≠ q.token) }
  | _ => s

/-- A step of a validation task. -/
def onTask (task : Nat) (f : Validation → System) : System :=
  match Dict.get s.validations task with
  | some v => f v
  | none => s

/-- A step of a request. -/
def onView (i : Nat) (f : View → System) : System :=
  match s.seen[i]? with
  | some v => f v
  | none => s

/-- The commit of `start`. -/
def startVote (env : Env) (actor : Actor) (a : StartVote) (v : View) : System :=
  match start env actor s.tables v true a with
  | .ok started => { s with tables := started.tables, history := s.history ++ [.started started.voteSeq] }
  | .error _ => s

/-- The commit of `cast_trusted`. -/
def castTrusted (env : Env) (actor : Actor) (c : CastVote) : System :=
  s.commit (TrustedReleases.castTrusted env actor s.tables c)

/-- The commit of `resolve`. -/
def resolve (env : Env) (actor : Actor) (a : ResolveVote) (v : View) : System :=
  match TrustedReleases.resolve env actor s.tables v a with
  | .ok resolved => { s with
      tables := resolved.tables
      history := s.history ++
        (s.tables.currentVoteSeq.toList.map fun n =>
          .resolved n resolved.votingRound a.voteResult s.tables.votedRevisionNumber) ++
        resolved.secondRoundVoteSeq.toList.map .started }
  | .error _ => s

/-- The commit of `delete`; the tasks and directories of the release go with it. -/
def deleteRelease (env : Env) (actor : Actor) (phase : Option ReleasePhase) : System :=
  match TrustedReleases.deleteRelease env actor s.tables phase with
  | .ok tables => { s with
      tables := tables
      validations := Dict.filterMap (fun _ v => match v.stage with | .queued => none | _ => some v) s.validations
      directories := [] }
  | .error _ => s

/-- One step. -/
def step : Op → System
  | .read => { s with seen := s.seen ++ s.tables.view.toList }
  | .setCommittees cs => { s with tables := { s.tables with committees := cs } }
  | .setTasks tasks => { s with tables := { s.tables with tasks := tasks } }
  | .startRelease env actor expedited downloadPathSuffix checks =>
    s.commit (startRelease env actor s.tables expedited downloadPathSuffix checks)
  | .deleteRelease env actor phase => s.deleteRelease env actor phase
  | .announce env actor i previewRevisionNumber published =>
    s.onView i fun v => s.commit (announce env actor s.tables v previewRevisionNumber published)
  | .createRevision env actor i a files id => s.onView i fun v => s.createRevision env actor v a files id
  | .queueValidation id task => s.queueValidation id task
  | .loseUpload id => { s with staging := s.staging.filter fun i => decide (i ≠ id) }
  | .claimValidation task => s.onTask task (s.claimValidation task)
  | .promote env task => s.onTask task (s.promote env task)
  | .deleteQuarantined task => s.onTask task (s.deleteQuarantined task)
  | .markFailed env task => s.onTask task (s.markFailed env task)
  | .removeDirectory task => s.onTask task s.removeDirectory
  | .loseWorker task => s.onTask task fun v => s.setStage task v .queued
  | .endValidation task => { s with validations := Dict.pop s.validations task }
  | .clearQuarantine env actor id => s.commit (clearQuarantine env actor s.tables id)
  | .startVote env actor i a => s.onView i (s.startVote env actor a)
  | .castTrusted env actor c => s.castTrusted env actor c
  | .resolve env actor i a => s.onView i (s.resolve env actor a)

end System

end TrustedReleases
