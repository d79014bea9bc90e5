import TrustedReleases.Lib.Run
import TrustedReleases.Vote.System

/-!
# The life of a release

An abstract model of the system that says what voting is about: a release stands in a phase, with the vote that is
current and the revision that is voted on, and each step moves it on or leaves it as it is (`Life.Step`).  Of requests
only their effect is left.  The system refines it (`System.step_life`), so invariants are proved here.
-/

namespace TrustedReleases

open Lib

/-! ### The abstract model -/

/-- Where a release stands.  Without a release there is no phase. -/
structure Standing where
  phase : Option ReleasePhase
  voteSeq : Option Nat
  voted : Option Nat
  thread : Option Str
  revisions : List Nat
  revisionCounter : Option Nat
  voteCounter : Option Nat
  ballots : List BallotPaper
  quarantined : Dict Nat Quarantined
  committees : Committees

/-- The round that a vote is in: podlings vote twice, the second time after the thread of the first is known. -/
def Committees.votingRound (cs : Committees) (thread : Option Str) : Option Nat :=
  match cs.committee with
  | some c => if c.isPodling then (if thread.isNone then some 1 else some 2) else none
  | none => none

namespace Standing

variable (t : Standing)

def latest : Option Nat := t.revisions.max?

/-- The round of the current vote. -/
def votingRound : Option Nat := t.committees.votingRound t.thread

/-- An upload waits for its validation, or will. -/
def Awaiting : Prop := ∃ id q, Dict.get t.quarantined id = some q ∧ (q.status = .staging ∨ q.status = .pending)

def addRevision : Standing :=
  { t with revisions := t.revisions ++ [allocate t.revisionCounter], revisionCounter := some (allocate t.revisionCounter) }

/-- A draft becomes a candidate. -/
def startVote (revision : Nat) : Standing :=
  { t with
    phase := some .releaseCandidate
    voteSeq := some (allocate t.voteCounter)
    voted := some revision
    voteCounter := some (allocate t.voteCounter) }

/-- The first round has passed and the second one starts. -/
def secondRound (threadId : Str) : Standing :=
  { t with
    thread := some threadId
    voteSeq := some (allocate t.voteCounter)
    voteCounter := some (allocate t.voteCounter) }

/-- A vote was not passed. -/
def toDraft : Standing := { t with phase := some .releaseCandidateDraft, voted := none, thread := none }

/-- A vote was passed. -/
def toPreview : Standing := { t with phase := some .releasePreview }

def announced : Standing := { t with phase := some .release, revisions := [] }

/-- A new release of the key. -/
def fresh : Standing :=
  { t with phase := some .releaseCandidateDraft, voteSeq := none, voted := none, thread := none }

/-- The release is deleted, and with `counters` the counters too. -/
def deleted (counters : Bool) : Standing :=
  { t with
    phase := none
    voteSeq := none
    voted := none
    thread := none
    revisions := []
    revisionCounter := if counters then none else t.revisionCounter
    voteCounter := if counters then none else t.voteCounter
    ballots := []
    quarantined := ∅ }

end Standing

/-- The life of the releases of a key: where the present one stands, the committees that requests have read, the
uploads and validations under way, and what has happened. -/
structure Life where
  standing : Standing
  known : List Committees
  staging : List Nat
  validations : Dict Nat Validation
  history : List VoteEvent

namespace Life

variable (l : Life)

/-- The current vote is resolved. -/
def resolution (round : Option Nat) (result : VoteResult) : List VoteEvent :=
  l.standing.voteSeq.toList.map fun n => .resolved n round result l.standing.voted

/-- What a step can do. -/
inductive Step : Life → Op → Life → Prop
  | stay (l : Life) (op : Op) : Step l op l
  | read (l : Life) : Step l .read { l with known := l.known ++ [l.standing.committees] }
  | setCommittees (l : Life) (cs : Committees) :
      Step l (.setCommittees cs) { l with standing := { l.standing with committees := cs } }
  | startRelease {l : Life} {env actor expedited suffix checks} (hphase : l.standing.phase = none) :
      Step l (.startRelease env actor expedited suffix checks) { l with standing := l.standing.fresh }
  | deleteRelease {l : Life} {env actor phase} (validations : Dict Nat Validation) :
      Step l (.deleteRelease env actor phase) { l with
        standing := l.standing.deleted (env.testMode && l.standing.committees.isTest)
        validations := validations }
  | announce {l : Life} {env actor i number published} (hphase : l.standing.phase = some .releasePreview) :
      Step l (.announce env actor i number published) { l with standing := l.standing.announced }
  | addRevision {l : Life} {env actor i a files id} (hphase : l.standing.phase = some .releaseCandidateDraft) :
      Step l (.createRevision env actor i a files id) { l with standing := l.standing.addRevision }
  | quarantine {l : Life} {env actor i a files id} (q : Quarantined)
      (hphase : l.standing.phase = some .releaseCandidateDraft) (hid : Dict.get l.standing.quarantined id = none)
      (hq : q.status = .staging) :
      Step l (.createRevision env actor i a files id) { l with
        standing := { l.standing with quarantined := Dict.set l.standing.quarantined id q }
        staging := l.staging ++ [id] }
  | queueValidation {l : Life} {id task : Nat} (q : Quarantined) (hq : Dict.get l.standing.quarantined id = some q)
      (hid : id ∈ l.staging) (htask : Dict.get l.validations task = none) :
      Step l (.queueValidation id task) { l with
        standing := { l.standing with
          quarantined := Dict.set l.standing.quarantined id { q with status := .pending } }
        staging := l.staging.filter fun i => decide (i ≠ id)
        validations := Dict.set l.validations task ⟨id, .queued⟩ }
  | loseUpload (l : Life) (id : Nat) :
      Step l (.loseUpload id) { l with staging := l.staging.filter fun i => decide (i ≠ id) }
  | claimValidation {l : Life} {task : Nat} (v : Validation) (q : Quarantined)
      (hv : Dict.get l.validations task = some v) (hq : Dict.get l.standing.quarantined v.quarantinedId = some q)
      (hpending : q.status = .pending) :
      Step l (.claimValidation task) { l with
        validations := Dict.set l.validations task { v with stage := .validating q } }
  | promote {l : Life} {env} {task : Nat} (v : Validation) (q : Quarantined)
      (hv : Dict.get l.validations task = some v) (hstage : v.stage = .validating q)
      (hphase : l.standing.phase ≠ none) :
      Step l (.promote env task) { l with
        standing := l.standing.addRevision
        validations := Dict.set l.validations task { v with stage := .promoted } }
  | deleteQuarantined {l : Life} {task : Nat} (v : Validation) (hv : Dict.get l.validations task = some v)
      (hstage : v.stage = .promoted) :
      Step l (.deleteQuarantined task) { l with
        standing := { l.standing with quarantined := Dict.pop l.standing.quarantined v.quarantinedId }
        validations := Dict.set l.validations task { v with stage := .finished } }
  | markFailed {l : Life} {env} {task : Nat} (v : Validation) (q : Quarantined) (completed : Option Int)
      (hv : Dict.get l.validations task = some v) (hstage : v.stage = .validating q) :
      Step l (.markFailed env task) { l with
        standing := { l.standing with
          quarantined := Dict.set l.standing.quarantined v.quarantinedId
            { q with status := .failed, completed := completed } }
        validations := Dict.set l.validations task { v with stage := .failed q } }
  | idle {l : Life} {op : Op} {task : Nat} (v v' : Validation) (hv : Dict.get l.validations task = some v)
      (hid : v'.quarantinedId = v.quarantinedId) (hworking : v'.working = false) :
      Step l op { l with validations := Dict.set l.validations task v' }
  | endValidation (l : Life) (task : Nat) :
      Step l (.endValidation task) { l with validations := Dict.pop l.validations task }
  | clearQuarantine {l : Life} {env actor} {id : Nat} (q : Quarantined)
      (hq : Dict.get l.standing.quarantined id = some q) (hfailed : q.status = .failed) :
      Step l (.clearQuarantine env actor id) { l with
        standing := { l.standing with
          quarantined := Dict.set l.standing.quarantined id { q with status := .acknowledged } } }
  | startVote {l : Life} {env actor i a} (revision : Nat) (hphase : l.standing.phase = some .releaseCandidateDraft)
      (hlatest : l.standing.latest = some revision) (hidle : ¬ l.standing.Awaiting) :
      Step l (.startVote env actor i a) { l with
        standing := l.standing.startVote revision
        history := l.history ++ [.started (allocate l.standing.voteCounter)] }
  | castTrusted {l : Life} {env actor c} (b : BallotPaper) (hphase : l.standing.phase = some .releaseCandidate)
      (hseq : l.standing.voteSeq = some b.voteSeq) (hround : b.voteRound = l.standing.votingRound)
      (hlatest : l.standing.latest = some b.revisionNumberAtCast) (hvoter : b.voterAsfUid = actor.asfUid)
      (hid : b.id = nextBallotId l.standing.ballots) :
      Step l (.castTrusted env actor c) { l with
        standing := { l.standing with ballots := l.standing.ballots ++ [b] } }
  | notPassed {l : Life} {env actor i} {a : ResolveVote} (cs : Committees) (hcs : cs ∈ l.standing.committees :: l.known)
      (hphase : l.standing.phase = some .releaseCandidate) (hresult : a.voteResult ≠ .passed) :
      Step l (.resolve env actor i a) { l with
        standing := l.standing.toDraft
        history := l.history ++ l.resolution (cs.votingRound l.standing.thread) a.voteResult }
  | passed {l : Life} {env actor i} {a : ResolveVote} (cs : Committees) (hcs : cs ∈ l.standing.committees :: l.known)
      (hphase : l.standing.phase = some .releaseCandidate) (hresult : a.voteResult = .passed)
      (hround : cs.votingRound l.standing.thread ≠ some 1) :
      Step l (.resolve env actor i a) { l with
        standing := l.standing.toPreview
        history := l.history ++ l.resolution (cs.votingRound l.standing.thread) .passed }
  | firstRoundPassed {l : Life} {env actor i} {a : ResolveVote} (cs : Committees)
      (hcs : cs ∈ l.standing.committees :: l.known) (threadId : Str)
      (hphase : l.standing.phase = some .releaseCandidate) (hresult : a.voteResult = .passed)
      (hround : cs.votingRound l.standing.thread = some 1) :
      Step l (.resolve env actor i a) { l with
        standing := l.standing.secondRound threadId
        history := l.history ++ l.resolution (some 1) .passed ++ [.started (allocate l.standing.voteCounter)] }

end Life

/-! ### Refinement -/

/-- Where the release of the tables stands. -/
def Tables.standing (s : Tables) : Standing where
  phase := s.release.map (·.phase)
  voteSeq := s.currentVoteSeq
  voted := s.votedRevisionNumber
  thread := s.release.bind (·.podlingThreadId)
  revisions := s.revisions
  revisionCounter := s.revisionCounter
  voteCounter := s.voteCounter
  ballots := s.ballots
  quarantined := s.quarantined
  committees := s.committees

/-- What a release row says of where the release stands. -/
theorem standing_of_release {s : Tables} {r : Release} (hr : s.release = some r) :
    s.standing.phase = some r.phase ∧ s.standing.voteSeq = r.currentVoteSeq ∧
      s.standing.voted = r.votedRevisionNumber ∧ s.standing.thread = r.podlingThreadId := by
  simp [Tables.standing, Tables.currentVoteSeq, Tables.votedRevisionNumber, hr]

/-- The life that a state of the system stands for. -/
def System.life (s : System) : Life where
  standing := s.tables.standing
  known := s.seen.map (·.committees)
  staging := s.staging
  validations := s.validations
  history := s.history

end TrustedReleases
