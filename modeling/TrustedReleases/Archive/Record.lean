import TrustedReleases.Lib.Query
import TrustedReleases.Lib.Run
import TrustedReleases.Vote.Rows

/-!
# Archivals and their record

Published releases, the lifecycle log and the queued removals from the distribution area, with the writers that archive
a release and take an archival back (`atr/storage/writers/release.py`).  Archiving is one transaction, guarded by the
archived flag.  The other writers do not take the write lock: they read the release, look up its last archival in the
log and commit, each at a time of its own.  A project's keys and the audit log play no part here, nor does the
regeneration of the catalog site that each of the transactions queues.
-/

namespace TrustedReleases

open Lib

/-! ### Rows -/

/-- `LifecycleEventType`. -/
inductive LifecycleEventType where
  | release
  | archive
  | withdraw
  | eod
  | eos
  | eol
  deriving DecidableEq, Repr

/-- `ArchiveSource`. -/
inductive ArchiveSource where
  | manual
  | cap
  | autoPrior
  | distWatcher
  | catalogAdmin
  deriving DecidableEq, Repr

/-- `LifecycleEvent`. -/
structure LifecycleEvent where
  id : Nat
  projectKey : Str
  cycleKey : Option Str
  versionKey : Option Str
  event : LifecycleEventType
  effective : Int
  published : Int
  targetEventId : Option Nat
  deriving DecidableEq, Repr

/-- `ArtifactInput`. -/
structure ArtifactInput where
  artifactPath : Str
  classification : Str
  downloadPathSuffix : Str
  signaturePath : Option Str
  checksumPath : Option Str
  sbomPath : Option Str
  deriving DecidableEq, Repr

/-- `Artifact`. -/
structure Artifact extends ArtifactInput where
  releaseKey : Str
  managed : Bool
  dated : Int
  deriving DecidableEq, Repr

/-- `Release`, as its archivals see it. -/
structure PublishedRelease where
  projectKey : Str
  version : Str
  cycleKey : Str
  phase : ReleasePhase
  archived : Option Int
  isArchived : Bool
  archiveSource : Option ArchiveSource
  deriving DecidableEq, Repr

/-- A queued task that removes a release from the distribution area (`args.SvnUnpublish`).  The last field is not a
column: it is the event of the archival that queued the task. -/
structure Removal where
  asfUid : Str
  key : Str
  archival : Nat
  deriving DecidableEq, Repr

/-- Why an archival is taken back: the release is seen again in the distribution area, or a removal has failed. -/
inductive ReversalCause where
  | restored (released : Int) (artifacts : List ArtifactInput)
  | failedRemoval (removal : Removal)
  deriving DecidableEq, Repr

/-- A writer that has found the release archived and is about to take that back.  `found` is the event that it has
looked up, if it has, and the number of events of the release at that time. -/
structure Reversal where
  key : Str
  cause : ReversalCause
  found : Option (Option Nat × Nat)
  deriving DecidableEq, Repr

/-- The rows, and the writers at work by process. -/
structure ArchiveRecord where
  releases : Dict Str PublishedRelease
  events : List LifecycleEvent
  nextEventId : Nat
  artifacts : List Artifact
  removals : List Removal
  reversals : Dict Nat Reversal

namespace ArchiveRecord

/-- `release_key`. -/
def releaseKey (projectKey version : Str) : Str := projectKey ++ '-' :: version

/-! ### Writers -/

/-- An event is added with the next id. -/
def addEvent (s : ArchiveRecord) (r : PublishedRelease) (key : Str) (event : LifecycleEventType)
    (effective published : Int) (targetEventId : Option Nat) : ArchiveRecord :=
  { s with
    events := s.events ++
      [⟨s.nextEventId, r.projectKey, some r.cycleKey, some key, event, effective, published, targetEventId⟩]
    nextEventId := s.nextEventId + 1 }

/-- `queue_svn_unpublish`; `publishes` says whether `SVN_PUBLISH_URL` is set. -/
def queueSvnUnpublish (publishes : Bool) (s : ArchiveRecord) (asfUid key : Str) (archival : Nat) : ArchiveRecord :=
  if publishes then { s with removals := s.removals ++ [⟨asfUid, key, archival⟩] } else s

/-- `archive_release_core`. -/
def archiveReleaseCore (publishes : Bool) (s : ArchiveRecord) (asfUid key : Str) (source : ArchiveSource)
    (archiveDate : Int) : Except String ArchiveRecord :=
  match s.releases.get key with
  | none => .error s!"Release {String.ofList key} not found"
  | some r =>
    let name := s!"Release {String.ofList r.projectKey} {String.ofList r.version}"
    if r.phase ≠ .release then .error s!"{name} is not in the release phase"
    else if r.isArchived then .error s!"{name} is already archived"
    else
      let s := { s with
        releases := s.releases.set key
          { r with archived := some archiveDate, isArchived := true, archiveSource := some source } }
      let s := if source ≠ .distWatcher then s.queueSvnUnpublish publishes asfUid key s.nextEventId else s
      .ok (s.addEvent r key .archive archiveDate archiveDate none)

/-- `__add_catalogued_artifacts`. -/
def cataloguedArtifacts (key : Str) (artifacts : List ArtifactInput) (dated : Int) : List Artifact :=
  artifacts.map fun artifact => { artifact with releaseKey := key, managed := false, dated := dated }

/-- `catalogue_release`, up to the decision whether it restores the release. -/
def catalogueRelease (s : ArchiveRecord) (pid : Nat) (projectKey version cycleKey : Str) (released now : Int)
    (artifacts : List ArtifactInput) : ArchiveRecord :=
  let key := releaseKey projectKey version
  match s.releases.get key with
  | some existing =>
    if existing.isArchived then
      { s with reversals := s.reversals.set pid ⟨key, .restored released artifacts, none⟩ }
    else s
  | none =>
    let r : PublishedRelease := ⟨projectKey, version, cycleKey, .release, none, false, none⟩
    let s := { s with releases := s.releases.set key r }
    let s := s.addEvent r key .release released now none
    { s with artifacts := s.artifacts ++ cataloguedArtifacts key artifacts released }

/-- `revert_failed_archive`, up to its first read. -/
def removalFails (s : ArchiveRecord) (pid : Nat) (removal : Removal) : ArchiveRecord :=
  match s.releases.get removal.key with
  | some r =>
    if r.isArchived then { s with reversals := s.reversals.set pid ⟨removal.key, .failedRemoval removal, none⟩ } else s
  | none => s

/-- The event is an archival of the release. -/
def IsArchive (key : Str) (e : LifecycleEvent) : Prop := e.event = .archive ∧ e.versionKey = some key

instance (key : Str) (e : LifecycleEvent) : Decidable (IsArchive key e) :=
  inferInstanceAs (Decidable (_ ∧ _))

/-- `prior_event_id`: the archival that was published last. -/
def priorEventId (s : ArchiveRecord) (key : Str) : Option Nat :=
  (latestBy (·.published) (s.events.filter fun e => decide (IsArchive key e))).map (·.id)

/-- The number of events of the release. -/
def eventCount (s : ArchiveRecord) (key : Str) : Nat :=
  s.events.countP fun e => decide (e.versionKey = some key)

/-- A writer looks up the event of the archival. -/
def lookUp (s : ArchiveRecord) (pid : Nat) : ArchiveRecord :=
  match s.reversals.get pid with
  | some v =>
    { s with reversals := s.reversals.set pid { v with found := some (s.priorEventId v.key, s.eventCount v.key) } }
  | none => s

/-- The commit of `__restore_catalogued_release` or `revert_failed_archive`. -/
def finish (s : ArchiveRecord) (pid : Nat) (now : Int) : ArchiveRecord :=
  match s.reversals.get pid with
  | some ⟨key, cause, some (priorEventId, _)⟩ =>
    match s.releases.get key with
    | none => s
    | some r =>
      let s := { s with
        releases := s.releases.set key { r with archived := none, isArchived := false, archiveSource := none }
        artifacts := match cause with
          | .restored released artifacts =>
            s.artifacts.filter (fun a => decide (a.releaseKey ≠ key)) ++ cataloguedArtifacts key artifacts released
          | .failedRemoval _ => s.artifacts
        reversals := s.reversals.pop pid }
      match priorEventId with
      | some id => s.addEvent r key .withdraw now now (some id)
      | none => s
  | _ => s

/-! ### Steps -/

/-- What can happen.  A task can fail again after its process died, so a removal that fails is not forgotten. -/
inductive Op where
  | archive (asfUid key : Str) (source : ArchiveSource) (archiveDate : Int)
  | catalogue (pid : Nat) (projectKey version cycleKey : Str) (released now : Int) (artifacts : List ArtifactInput)
  | removalFails (pid : Nat) (removal : Removal)
  | lookUp (pid : Nat)
  | finish (pid : Nat) (now : Int)
  | abandon (pid : Nat)

/-- A writer that fails changes nothing. -/
def step (publishes : Bool) (s : ArchiveRecord) : Op → ArchiveRecord
  | .archive asfUid key source archiveDate =>
    match s.archiveReleaseCore publishes asfUid key source archiveDate with
    | .ok s' => s'
    | .error _ => s
  | .catalogue pid projectKey version cycleKey released now artifacts =>
    s.catalogueRelease pid projectKey version cycleKey released now artifacts
  | .removalFails pid removal => if removal ∈ s.removals then s.removalFails pid removal else s
  | .lookUp pid => s.lookUp pid
  | .finish pid now => s.finish pid now
  | .abandon pid => { s with reversals := s.reversals.pop pid }

end ArchiveRecord

end TrustedReleases
