import TrustedReleases.Lib.Dict
import TrustedReleases.Lib.Except
import TrustedReleases.Lib.PrefixCode
import TrustedReleases.Lib.Run
import TrustedReleases.Lib.Str
import TrustedReleases.Lib.Table
import TrustedReleases.TaskQueue.Table
import TrustedReleases.Vote.Rows

/-!
# Publication

A release preview is published by a task, which imports the directory of its latest revision into Subversion
(`publish_to_svn`, `publish_to_svn_execute`), and announced when the task has completed (`atr/storage/writers/announce.py`).
The import and the record of its result are not one transaction: a worker that dies between them leaves a commit that no
task knows of, and the next run finds the commit by its log message.  Runs of the task, other commits, new revisions,
deletions and announcements are interleaved in any way.
-/

namespace TrustedReleases

open Lib

namespace Publish

variable {φ : Type}

/-! ### Names and messages -/

/-- A key that stands on one line: `CommitteeKey`, `ProjectKey` and `VersionKey` have no line break. -/
def SafeKey : Type := { s : Str // '\n' ∉ s }

instance SafeKey.decidableEq : DecidableEq SafeKey := fun a b => decidable_of_iff (a.1 = b.1) Subtype.ext_iff.symm

/-- A release: its project and its version. -/
@[ext] structure ReleaseKey where
  projectKey : SafeKey
  versionKey : SafeKey
  deriving DecidableEq

/-- `args.SvnPublish`; revision numbers stand for their sequence numbers. -/
structure SvnPublish where
  asfUid : Str
  key : ReleaseKey
  revisionNumber : Nat
  downloadPathSuffix : Option Str
  voteThreadUrl : Option Str
  deriving DecidableEq

/-- The number of a revision: `str(seq).zfill(5)`. -/
def revisionNumber (seq : Nat) : Str :=
  let digits := Nat.toDigits 10 seq
  List.replicate (5 - digits.length) '0' ++ digits

/-- A line of a message. -/
def line (label text : Str) : Str := label ++ (text ++ ['\n'])

/-- The line of the vote thread, if there is one. -/
def voteLine (voteThreadUrl : Option Str) : Str :=
  match voteThreadUrl with
  | none => []
  | some [] => []
  | some url => line "Vote thread: ".toList url

/-- The log message of a publication. -/
def logMessage (committee : SafeKey) (args : SvnPublish) : Str :=
  line "Publish ".toList (args.key.projectKey.1 ++ '-' :: args.key.versionKey.1) ++
  line [] [] ++
  line "Committee: ".toList committee.1 ++
  line "Project: ".toList args.key.projectKey.1 ++
  line "Version: ".toList args.key.versionKey.1 ++
  line "Revision: ".toList (revisionNumber args.revisionNumber) ++
  voteLine args.voteThreadUrl ++
  line "Tool: ATR".toList [] ++
  ("Released by ".toList ++ args.asfUid ++ " via ATR".toList)

/-! ### Rows, commits and directories -/

/-- What is read of a `Release` with its project. -/
structure Release where
  phase : ReleasePhase
  committee : Option SafeKey
  projectIsActive : Bool
  latestRevisionNumber : Option Nat
  votedRevisionNumber : Option Nat
  voteThreadUrl : Option Str
  downloadPathSuffix : Option Str

/-- A task of the type `SVN_PUBLISH`, with the revision of its result. -/
structure Task where
  id : Nat
  args : SvnPublish
  status : TaskStatus
  result : Option Nat
  deriving DecidableEq

/-- A commit: its author, its message, whether it has the property of ATR, the paths that it adds, and what was
imported. -/
structure Commit (φ : Type) where
  author : Str
  message : Str
  byAtr : Bool
  created : List Str
  files : φ

/-- Where files are published, `SvnPublishKind`. -/
inductive SvnPublishKind where
  | asfDistribution
  | localRepository
  deriving DecidableEq

/-- `AccessError` of a request, `FailedError` of a task, or the error of the database. -/
inductive Error where
  | accessError (message : Str) (status : Option Nat)
  | failedError (message : Str)
  | runtimeError (message : Str)
  deriving DecidableEq

/-- The settings: the kind of the target and whether it is acceptable, the URL of a committee and a suffix, the path below the repository of a URL, and
the texts of errors. -/
structure Config where
  kind : SvnPublishKind
  svnPublishTarget : Except Str Unit
  internalUrl : SafeKey → Option Str → Except Str Str
  relativeUrl : Str → Str
  errorMessage : Str → Str

def ReleaseKey.text (key : ReleaseKey) : Str := key.projectKey.1 ++ ' ' :: key.versionKey.1

/-- The message of `ensure_project_active`. -/
def ReleaseKey.archivedMessage (key : ReleaseKey) : Str :=
  "Project '".toList ++ key.projectKey.1 ++ "' is archived; release actions are disabled.".toList

/-! ### The request -/

/-- The task is queued, runs or has completed. -/
def Task.Live (t : Task) : Prop := t.status = .queued ∨ t.status = .active ∨ t.status = .completed

/-- The task publishes this revision. -/
def Task.publishes (key : ReleaseKey) (revision : Nat) (t : Task) : Bool :=
  decide (t.args.key = key) && decide (t.args.revisionNumber = revision)

/-- `release_in_flight_svn_publish_task` -/
def releaseInFlightTask (tasks : List Task) (key : ReleaseKey) (revision : Nat) : Option Task :=
  tasks.find? fun t => t.publishes key revision && (decide (t.status = .queued) || decide (t.status = .active))

/-- `release_completed_svn_publish_task_for_revision` -/
def releaseCompletedTask (tasks : List Task) (key : ReleaseKey) (revision : Nat) : Option Task :=
  tasks.find? fun t => t.publishes key revision && decide (t.status = .completed) && t.result.isSome

def urlRefused (e : Str) : Error := .accessError ("SVN publish URL is not acceptable: ".toList ++ e) (some 409)

/-- `publish_to_svn`: the release has been read before, the transaction reads its latest revision number and the tasks.
The user may write to the release.  The next id is free. -/
def publishToSvn (cfg : Config) (release : Option Release) (tasks : List Task) (latestRevisionNumber : Option Nat)
    (id : Nat) (key : ReleaseKey) (expectedRevision : Nat) (suffix : Option Str) (uid : Str) : Except Error Task := do
  let release ← demand (release.filter fun r => decide (r.phase = .releasePreview))
    (.accessError ("Release preview ".toList ++ key.text ++ " does not exist".toList) (some 404))
  raiseIf (release.projectIsActive = false) (.accessError key.archivedMessage none)
  let committee ← demand release.committee (.accessError "Release has no committee - Invalid state".toList (some 500))
  let _ ← cfg.svnPublishTarget.mapError urlRefused
  let _ ← (cfg.internalUrl committee suffix).mapError urlRefused
  let latest ← demand latestRevisionNumber (.accessError "Release has no revisions - Invalid state".toList (some 500))
  raiseIf (latest ≠ expectedRevision)
    (.accessError "A newer revision appeared, please refresh and try again.".toList (some 409))
  raiseIf (releaseInFlightTask tasks key expectedRevision).isSome
    (.accessError "An SVN publish task is already queued or running for this revision".toList (some 409))
  raiseIf (releaseCompletedTask tasks key expectedRevision).isSome
    (.accessError "An SVN publish task already completed for this revision".toList (some 409))
  return ⟨id, ⟨uid, key, expectedRevision, suffix, release.voteThreadUrl⟩, .queued, none⟩

/-! ### The task -/

/-- What a run of the task knows before it calls Subversion. -/
structure Plan where
  args : SvnPublish
  committee : SafeKey
  internalUrl : Str
  deriving DecidableEq

/-- `__validate_publication_revision` -/
def validatePublicationRevision (release : Release) (revision : Nat) : Except Error Unit := do
  raiseIf (release.latestRevisionNumber ≠ some revision)
    (.failedError "A newer revision appeared after queuing this publish task".toList)
  raiseIf (release.votedRevisionNumber.isSome ∧ release.votedRevisionNumber ≠ some revision)
    (.failedError "The ATR revision to publish differs from the voted ATR revision".toList)

/-- The first part of `publish_to_svn_execute`, up to the calls of Subversion. -/
def plan (cfg : Config) (release : Option Release) (args : SvnPublish) : Except Error Plan := do
  let release ← demand (release.filter fun r => decide (r.phase = .releasePreview))
    (.failedError "Release preview not found for publish".toList)
  raiseIf (release.projectIsActive = false) (.accessError args.key.archivedMessage none)
  let committee ← demand release.committee (.failedError "Release has no committee - Invalid state".toList)
  validatePublicationRevision release args.revisionNumber
  let internalUrl ← (cfg.internalUrl committee args.downloadPathSuffix).mapError fun e =>
    .failedError ("SVN publish URL is not acceptable: ".toList ++ e)
  return ⟨args, committee, internalUrl⟩

/-- What `svn import` answers: the revision that it prints, if any, or an error and its output. -/
inductive ImportAnswer where
  | committed (revision : Option Nat)
  | failed (output : Str)

/-- What follows an import: a result, or the search for a commit that is there already. -/
inductive Followed where
  | result (r : Except Error Nat)
  | conflict

/-- `publish_to_svn_execute`, after the import. -/
def follow (cfg : Config) : ImportAnswer → Followed
  | .committed none => .result (.error (.failedError "SVN publish did not return a Committed revision line".toList))
  | .committed (some revision) => .result (.ok revision)
  | .failed output =>
    if "E160020".toList <:+: output then .conflict else .result (.error (.failedError (cfg.errorMessage output)))

/-- `publish_revision_matches`, of the commit that the log shows. -/
def publishRevisionMatches (cfg : Config) (entry : Option (Commit φ)) (relativeUrl author message : Str) : Bool :=
  match entry with
  | none => false
  | some entry =>
    !(decide (cfg.kind = .asfDistribution) && decide (entry.author ≠ author)) && decide (entry.message = message) &&
      entry.created.contains relativeUrl && entry.byAtr

/-- `__already_published_result`, and the end of the task; the last changed revision is what Subversion answers, if it
answers. -/
def alreadyPublished (cfg : Config) (commits : List (Commit φ)) (p : Plan) (lastChanged : Option Nat) :
    Except Error Nat :=
  match lastChanged with
  | none => .error (.failedError "Release file already exists in SVN".toList)
  | some revision =>
    if publishRevisionMatches cfg commits[revision]? (cfg.relativeUrl p.internalUrl) p.args.asfUid
        (logMessage p.committee p.args) then .ok revision
    else .error (.failedError "Release file already exists in SVN".toList)

/-! ### The system -/

/-- How far a run of a task has come. -/
inductive Stage where
  | planned (p : Plan)
  | conflict (p : Plan)
  | finished (args : SvnPublish) (r : Except Error Nat)

/-- A run of a task, with the row of the release that it has read. -/
structure Execution where
  taskId : Nat
  stage : Stage
  row : Option Release

/-- An announcement whose checks have passed: the release, its latest revision and the published one. -/
structure Announcement where
  key : ReleaseKey
  revisionNumber : Nat
  publishedRevision : Nat
  deriving DecidableEq

/-- The state: the rows, the directories of the revisions, the repository, the runs of tasks and what requests have read.
`made` holds every revision ever created with its files, and `importedBy` the row that the run which made a commit had
read. -/
structure State (φ : Type) where
  releases : Dict ReleaseKey Release
  revisionCounter : Dict ReleaseKey Nat
  tasks : Table Task.id
  nextId : Nat
  directories : Dict (ReleaseKey × Nat) φ
  commits : List (Commit φ)
  executions : Dict Nat Execution
  seen : List (ReleaseKey × Option Release)
  checked : List Announcement
  announced : List Announcement
  made : Dict (ReleaseKey × Nat) φ
  importedBy : Dict Nat (Option Release)

/-- Nothing is there. -/
def State.init : State φ := ⟨∅, ∅, .empty, 0, ∅, [], ∅, [], [], [], ∅, ∅⟩

/-- The last allocated number of a release's revisions. -/
def State.lastAllocated (s : State φ) (key : ReleaseKey) : Nat := (s.revisionCounter.get key).getD 0

/-- The message is one of a publication. -/
def IsPublication (message : Str) : Prop := ∃ committee args, message = logMessage committee args

/-- The suffix of the publication is recorded with the release. -/
def lockSuffix (releases : Dict ReleaseKey Release) (key : ReleaseKey) (suffix : Option Str) : Dict ReleaseKey Release :=
  match releases.get key with
  | none => releases
  | some release => releases.set key { release with downloadPathSuffix := some (suffix.getD []) }

/-- The status of a task that a worker or the manager changes. -/
def setStatus (tasks : Table Task.id) (id : Nat) (status : TaskStatus) (result : Option Nat) : Table Task.id :=
  match tasks.get id with
  | none => tasks
  | some t => tasks.replace { t with status, result }

/-- The run of a task ends in this status. -/
def resultStatus : Except Error Nat → TaskStatus
  | .ok _ => .completed
  | .error _ => .failed

/-- The steps.  A row may change in any way other than to be announced; revision numbers come from the counter, which
outlives the release.  Commits from elsewhere are assumed not to have both the property of ATR and the message of a
publication. -/
inductive Step (cfg : Config) : State φ → State φ → Prop
  | update (s : State φ) (key : ReleaseKey) (row : Release) :
      Step cfg s { s with releases := s.releases.set key row }
  | createRevision (s : State φ) (key : ReleaseKey) (files : φ) :
      Step cfg s { s with
        revisionCounter := s.revisionCounter.set key (s.lastAllocated key + 1)
        directories := s.directories.set (key, s.lastAllocated key + 1) files
        made := s.made.set (key, s.lastAllocated key + 1) files }
  | removeDirectory (s : State φ) (key : ReleaseKey) (revision : Nat) :
      Step cfg s { s with directories := s.directories.pop (key, revision) }
  | delete (s : State φ) (key : ReleaseKey) :
      Step cfg s { s with
        releases := s.releases.pop key
        tasks := s.tasks.filter fun t => decide (t.args.key ≠ key) }
  | read (s : State φ) (key : ReleaseKey) : Step cfg s { s with seen := (key, s.releases.get key) :: s.seen }
  | publishToSvn (s : State φ) (key : ReleaseKey) (release : Option Release) (expectedRevision : Nat)
      (suffix : Option Str) (uid : Str) (t : Task) (hseen : (key, release) ∈ s.seen)
      (hok : publishToSvn cfg release s.tasks.rows ((s.releases.get key).bind Release.latestRevisionNumber) s.nextId key
        expectedRevision suffix uid = .ok t) :
      Step cfg s { s with
        releases := lockSuffix s.releases key suffix
        tasks := s.tasks.insert t
        nextId := s.nextId + 1 }
  | claim (s : State φ) (t : Task) (execution : Nat) (p : Plan) (htask : s.tasks.get t.id = some t)
      (hqueued : t.status = .queued) (hfree : s.executions.get execution = none)
      (hok : plan cfg (s.releases.get t.args.key) t.args = .ok p) :
      Step cfg s { s with
        tasks := setStatus s.tasks t.id .active none
        executions := s.executions.set execution ⟨t.id, .planned p, s.releases.get t.args.key⟩ }
  | refuse (s : State φ) (t : Task) (e : Error) (htask : s.tasks.get t.id = some t) (hqueued : t.status = .queued)
      (hfails : plan cfg (s.releases.get t.args.key) t.args = .error e) :
      Step cfg s { s with tasks := setStatus s.tasks t.id .failed none }
  | importCommits (s : State φ) (execution taskId : Nat) (p : Plan) (row : Option Release) (files : φ)
      (created : List Str) (printed : Bool) (hrun : s.executions.get execution = some ⟨taskId, .planned p, row⟩)
      (hfiles : s.directories.get (p.args.key, p.args.revisionNumber) = some files) (r : Except Error Nat)
      (hfollow : follow cfg (.committed (if printed then some s.commits.length else none)) = .result r) :
      Step cfg s { s with
        commits := s.commits ++ [⟨p.args.asfUid, logMessage p.committee p.args, true, created, files⟩]
        executions := s.executions.set execution ⟨taskId, .finished p.args r, row⟩
        importedBy := s.importedBy.set s.commits.length row }
  | importFails (s : State φ) (execution taskId : Nat) (p : Plan) (row : Option Release) (output : Str)
      (hrun : s.executions.get execution = some ⟨taskId, .planned p, row⟩) (r : Except Error Nat)
      (hfollow : follow cfg (.failed output) = .result r) :
      Step cfg s { s with executions := s.executions.set execution ⟨taskId, .finished p.args r, row⟩ }
  | importConflicts (s : State φ) (execution taskId : Nat) (p : Plan) (row : Option Release) (output : Str)
      (hrun : s.executions.get execution = some ⟨taskId, .planned p, row⟩)
      (hfollow : follow cfg (.failed output) = .conflict) :
      Step cfg s { s with executions := s.executions.set execution ⟨taskId, .conflict p, row⟩ }
  | heal (s : State φ) (execution taskId : Nat) (p : Plan) (row : Option Release) (lastChanged : Option Nat)
      (hrun : s.executions.get execution = some ⟨taskId, .conflict p, row⟩) :
      Step cfg s { s with
        executions := s.executions.set execution
          ⟨taskId, .finished p.args (alreadyPublished cfg s.commits p lastChanged), row⟩ }
  | report (s : State φ) (execution : Nat) (t : Task) (args : SvnPublish) (r : Except Error Nat) (row : Option Release)
      (hrun : s.executions.get execution = some ⟨t.id, .finished args r, row⟩) (htask : s.tasks.get t.id = some t)
      (hactive : t.status = .active) :
      Step cfg s { s with
        tasks := setStatus s.tasks t.id (resultStatus r) r.toOption
        executions := s.executions.pop execution }
  | crash (s : State φ) (execution : Nat) : Step cfg s { s with executions := s.executions.pop execution }
  | manage (s : State φ) (t : Task) (status : TaskStatus) (htask : s.tasks.get t.id = some t)
      (hstatus : t.status = .queued ∧ status = .failed ∨
        t.status = .active ∧ (status = .queued ∨ status = .failed ∨ status = .broken)) :
      Step cfg s { s with tasks := setStatus s.tasks t.id status none }
  | commitElsewhere (s : State φ) (c : Commit φ) (hother : c.byAtr = true → ¬ IsPublication c.message) :
      Step cfg s { s with commits := s.commits ++ [c] }
  | checkAnnouncement (s : State φ) (key : ReleaseKey) (release : Release) (revision : Nat) (t : Task) (published : Nat)
      (hseen : (key, some release) ∈ s.seen) (hphase : release.phase = .releasePreview)
      (hlatest : release.latestRevisionNumber = some revision)
      (htask : releaseCompletedTask s.tasks.rows key revision = some t) (hpublished : t.result = some published) :
      Step cfg s { s with checked := ⟨key, revision, published⟩ :: s.checked }
  | announce (s : State φ) (a : Announcement) (release : Release) (hchecked : a ∈ s.checked)
      (hrelease : s.releases.get a.key = some release) (hphase : release.phase = .releasePreview)
      (hlatest : release.latestRevisionNumber = some a.revisionNumber) :
      Step cfg s { s with
        releases := s.releases.set a.key { release with phase := .release, latestRevisionNumber := none }
        announced := a :: s.announced }

end Publish

end TrustedReleases
