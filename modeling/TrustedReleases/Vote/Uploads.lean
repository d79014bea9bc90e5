import TrustedReleases.Vote.Tables

/-!
# Releases, revisions and quarantined uploads

What changes a release and its files around its votes: a release is started, deleted and announced, and a revision is
added to it (`atr/storage/writers/release.py`, `revision.py`, `announce.py`, `atr/tasks/quarantine.py`).  An upload with
archives that are not validated yet is quarantined, and becomes a revision when its validation promotes it.  What comes
of the files themselves is a parameter here.
-/

namespace TrustedReleases

open Lib

/-! ### Releases -/

/-- What `_assert_no_existing_release` calls a release. -/
def ReleasePhase.desc : ReleasePhase → String
  | releaseCandidateDraft => "A draft release (being composed)"
  | releaseCandidate => "A release candidate (being voted on)"
  | releasePreview => "A release preview (being finished)"
  | release => "A finished release"

/-- The row of a new release. -/
def Release.draft (now : Int) (expedited : Bool) (downloadPathSuffix : Option Str) : Release where
  phase := .releaseCandidateDraft
  expedited := expedited
  voteMode := none
  votedRevisionNumber := none
  currentVoteSeq := none
  voteStarted := none
  voteResolved := none
  podlingThreadId := none
  voteThreadUrl := none
  activityAt := now
  inactivityNoticeKey := none
  downloadPathSuffix := downloadPathSuffix
  released := none

/-- `_start_release`, up to the commit of the release row; `checks` are those of the user, the project and the
version. -/
def startRelease (env : Env) (actor : Actor) (s : Tables) (expedited : Bool) (downloadPathSuffix : Option Str)
    (checks : Except VoteError Unit) : Except VoteError Tables := do
  checks
  raiseIf (expedited = true ∧ s.committees.committee.any (·.isPodling) = true)
    (.access "Expedited releases are not available for podling projects." (some 400))
  (match s.release with
    | some r => .error (.access s!"{r.phase.desc} for {env.projectKey} {env.versionKey} already exists." (some 409))
    | none => .ok ())
  let r := Release.draft env.now expedited downloadPathSuffix
  ensureReleaseWritable actor r
  return { s with release := some r }

/-- The committee is the one of the test releases. -/
def Committees.isTest (cs : Committees) : Bool := cs.committee.any fun c => decide (c.key = "test".toList)

/-- `delete`.  The rows of the release go with it.  The counters stay, so that no number comes again, except for the
test releases of a server in test mode. -/
def deleteRelease (env : Env) (actor : Actor) (s : Tables) (phase : Option ReleasePhase) : Except VoteError Tables := do
  let r ← demand (s.release.filter fun r => phase.all fun p => decide (r.phase = p))
    (.access s!"Release '{env.projectKey} {env.versionKey}' not found." (some 404))
  ensureProjectActive env
  ensureReleaseWritable actor r
  raiseIf (r.phase = .release)
    (.reply s!"Release '{env.projectKey} {env.versionKey}' has been announced; it can only be archived, not deleted.")
  let isTestRelease := env.testMode && s.committees.isTest
  return { s with
    release := none
    revisions := []
    ballots := []
    quarantined := ∅
    tasks := []
    revisionCounter := if isTestRelease then none else s.revisionCounter
    voteCounter := if isTestRelease then none else s.voteCounter }

/-- `__promote_in_database`. -/
def promoteInDatabase (s : Tables) (previewRevisionNumber : Nat) (releaseDate : Int) : Except VoteError Tables :=
  match s.release with
  | some r =>
    if r.phase = .releasePreview ∧ s.latestRevisionNumber = some previewRevisionNumber then
      .ok { s with release := some { r with phase := .release, released := some releaseDate }, revisions := [] }
    else .error (.access "Error queuing announcement: A newer revision appeared, please refresh and try again." (some 500))
  | none =>
    .error (.access "Error queuing announcement: A newer revision appeared, please refresh and try again." (some 500))

/-- `release` of the announcements, up to its commit; `published` is what comes of the recipients, the publication and
the artifacts. -/
def announce (env : Env) (actor : Actor) (s : Tables) (v : View) (previewRevisionNumber : Option Nat)
    (published : Except VoteError Unit) : Except VoteError Tables := do
  raiseIf (v.release.phase ≠ .releasePreview)
    (.access s!"Release {env.projectKey} {env.versionKey} does not exist" (some 404))
  ensureProjectActive env
  ensureReleaseWritable actor v.release
  let latest ← demand v.latestRevisionNumber (.raised "Release has no revisions")
  (match previewRevisionNumber with
    | some number =>
      raiseIf (number ≠ latest) (.access s!"Revision {number} is not the latest revision, {latest}" (some 409))
    | none => .ok ())
  raiseIf (v.committees.committee = none) (.access "Release has no committee - Invalid state" (some 500))
  published
  promoteInDatabase s latest env.now

/-! ### Revisions -/

/-- `_commit_new_revision`, for the rows: the phase of the release is not looked at. -/
def Tables.commitNewRevision (s : Tables) (now : Int) : Tables :=
  let number := allocate s.revisionCounter
  { s with
    revisions := s.revisions ++ [number]
    revisionCounter := some number
    release := s.release.map fun r =>
      if r.activityAt ≤ now then { r with activityAt := now, inactivityNoticeKey := none } else r }

/-- The arguments of `create_revision_with_quarantine`; `sourceOverride` says that one is set, and `sourceOnly` that
nothing but the source changes.  Every caller allows drafts only. -/
structure NewRevision where
  asfUid : Str
  description : Option Str
  expectedRevision : Option Nat
  sourceOverride : Bool
  sourceOnly : Bool
  deriving DecidableEq, Repr

/-- The check of the phase in `create_revision_with_quarantine`. -/
def ensurePhaseAllowed (allowedPhases : List ReleasePhase) (r : Release) : Except VoteError Unit :=
  let allowed := ", ".intercalate ((allowedPhases.map ReleasePhase.value).mergeSort fun a b => decide (a ≤ b))
  raiseIf (r.phase ∉ allowedPhases)
    (.raised s!"Cannot create revision: release phase is {r.phase.value}, allowed: {allowed}")

/-- What `create_revision_with_quarantine` stores: a revision, or a quarantined upload. -/
inductive Stored where
  | revision (tables : Tables)
  | quarantined (tables : Tables)

/-- `create_revision_with_quarantine`, up to its first commit: it has read the release before it takes the write lock
(`v`) and reads it again under the lock.  What comes of the files is an error, or whether there are archives to
validate.  A quarantined upload gets the `id` and the `token`. -/
def createRevisionWithQuarantine (env : Env) (actor : Actor) (s : Tables) (v : View) (allowedPhases : List ReleasePhase)
    (a : NewRevision) (files : Except VoteError Bool) (id token : Nat) : Except VoteError Stored := do
  ensureProjectActive env
  ensureReleaseWritable actor v.release
  ensurePhaseAllowed allowedPhases v.release
  let requiresQuarantine ← files
  let r ← demand s.release (.raised "Release does not exist for new revision creation")
  ensurePhaseAllowed allowedPhases r
  raiseIf (a.sourceOverride = true ∧ v.latestRevisionNumber = none ∧ s.latestRevisionNumber ≠ none)
    (.raised "The release has changed, please refresh and try again")
  (match a.expectedRevision with
    | some expected =>
      raiseIf (s.latestRevisionNumber ≠ some expected)
        (.raised s!"Cannot create revision: revision {expected} is no longer the latest")
    | none => .ok ())
  if requiresQuarantine then
    raiseIf (a.sourceOnly = true) (.raised "Source archives need validation before their source can be set.")
    return .quarantined { s with quarantined := Dict.set s.quarantined id {
      asfUid := a.asfUid
      priorRevisionKey := s.latestRevisionNumber
      status := .staging
      token := token
      created := env.now
      completed := none
      description := a.description } }
  else return .revision (s.commitNewRevision env.now)

/-! ### Quarantined uploads -/

/-- The second commit of `_quarantine_archives`: the upload waits for its validation. -/
def Tables.setPending (s : Tables) (id : Nat) : Option Tables :=
  (Dict.get s.quarantined id).map fun q => { s with quarantined := Dict.set s.quarantined id { q with status := .pending } }

/-- `finalise_revision`, for the rows. -/
def finaliseRevision (env : Env) (s : Tables) : Except VoteError Tables := do
  let _ ← demand s.release (.raised "Release not found during quarantine promotion")
  return s.commitNewRevision env.now

/-- `_mark_failed`: the row is written as the validation has read it, so it comes back if it was deleted. -/
def markFailed (env : Env) (s : Tables) (id : Nat) (q : Quarantined) : Except VoteError Tables := do
  let _ ← demand s.release (.raised "FOREIGN KEY constraint failed")
  return { s with quarantined := Dict.set s.quarantined id { q with status := .failed, completed := some env.now } }

/-- `clear_quarantine`. -/
def clearQuarantine (env : Env) (actor : Actor) (s : Tables) (id : Nat) : Except VoteError Tables := do
  let r ← demand s.release (.access s!"Release '{env.projectKey} {env.versionKey}' not found." (some 404))
  ensureProjectActive env
  ensureReleaseWritable actor r
  let q ← demand ((Dict.get s.quarantined id).filter fun q => decide (q.status = .failed))
    (.raised "Quarantine failure not found or not in FAILED state")
  return { s with quarantined := Dict.set s.quarantined id { q with status := .acknowledged } }

end TrustedReleases
