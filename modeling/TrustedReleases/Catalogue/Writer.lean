import TrustedReleases.Catalogue.Tables
import TrustedReleases.Lib.Except

/-!
# Applying a difference

The transaction that writes a difference into the tables (`_apply_diff` of `atr/storage/writers/catalogue.py`): the
deletions, the adds of projects, releases and artifacts, the repoints of artifacts and those of releases one by one,
and last the check of the foreign keys.  A statement that would give a second row its primary key raises.
-/

namespace TrustedReleases

open Lib

namespace Catalogue

/-- What an import raises. -/
inductive WriteError where
  | projectExists (key : Str)
  | releaseExists (key : Str)
  | artifactExists (pk : Pk)
  | pendingTasks (oldKey : Str)
  | danglingReferences
  deriving DecidableEq, Repr

/-- A second release of one key, or a second artifact of one primary key. -/
def WriteError.IsDuplicate : WriteError → Prop
  | .releaseExists _ => True
  | .artifactExists _ => True
  | _ => False

instance (e : WriteError) : Decidable e.IsDuplicate :=
  match e with
  | .releaseExists _ | .artifactExists _ => .isTrue trivial
  | .projectExists _ | .pendingTasks _ | .danglingReferences => .isFalse id

namespace Db

/-! ### Deletions -/

/-- `_delete_artifact_rows`. -/
def deleteArtifactRows (db : Db) (pks : List Pk) : Db :=
  { db with artifacts := Dict.filterMap (fun pk artifact => if pk ∈ pks then none else some artifact) db.artifacts }

/-- The rows that refer to releases. -/
def deleteReleaseChildren (db : Db) (keys : List Str) : Db :=
  { db with
    artifacts := Dict.filterMap (fun _ artifact =>
      if ∃ key ∈ artifact.releaseKey, key ∈ keys then none else some artifact) db.artifacts
    revisions := db.revisions.filter fun key => decide (key ∉ keys) }

/-- `_delete_release_rows`. -/
def deleteReleaseRows (db : Db) (keys : List Str) : Db :=
  { db.deleteReleaseChildren keys with
    tasks := db.tasks.filter fun task => decide ¬ ∃ key ∈ keys, Dict.get db.releases key = some ⟨task.1, task.2⟩
    releases := Dict.filterMap (fun key release => if key ∈ keys then none else some release) db.releases }

/-- The keys of the releases of a project. -/
def projectReleases (db : Db) (key : Str) : List Str :=
  db.releases.keys.filter fun releaseKey =>
    decide (∃ release ∈ Dict.get db.releases releaseKey, release.projectKey = key)

/-- `_delete_project_rows`. -/
def deleteProjectRows (db : Db) (key : Str) : Db :=
  { projects := Dict.pop db.projects key
    releases := Dict.filterMap (fun _ release => if release.projectKey = key then none else some release) db.releases
    artifacts := Dict.filterMap (fun pk artifact => if pk.project = key then none else some artifact)
      (db.deleteReleaseChildren (db.projectReleases key)).artifacts
    revisions := (db.deleteReleaseChildren (db.projectReleases key)).revisions
    tasks := db.tasks.filter fun task => decide (task.1 ≠ key) }

/-- `_apply_deletions`. -/
def applyDeletions (db : Db) (diff : CatalogueDiff) : Db :=
  diff.projectDeletions.foldl deleteProjectRows
    ((db.deleteArtifactRows diff.artifactDeletions).deleteReleaseRows diff.releaseDeletions)

/-! ### Adds -/

def addProject (db : Db) (row : ProjectRow) : Except WriteError Db := do
  raiseIf (row.key.1 ∈ db.projects.keys) (.projectExists row.key.1)
  return { db with projects := Dict.set db.projects row.key.1 (row.committeeKey.map fun key => key.1) }

def addRelease (db : Db) (row : ReleaseRow) : Except WriteError Db := do
  raiseIf (row.key.1 ∈ db.releases.keys) (.releaseExists row.key.1)
  return { db with releases := Dict.set db.releases row.key.1 row.toSql }

def addArtifact (db : Db) (row : ArtifactRow) : Except WriteError Db := do
  raiseIf (row.pk ∈ db.artifacts.keys) (.artifactExists row.pk)
  return { db with artifacts := Dict.set db.artifacts row.pk row.toSql }

/-! ### Repoints -/

/-- The update of the project, the version and the release of the artifact with a primary key, if there is one. -/
def moveArtifact (db : Db) (source target : Pk) (releaseKey : Str) : Except WriteError Db :=
  match Dict.get db.artifacts source with
  | none => .ok db
  | some artifact => do
    raiseIf (target ≠ source ∧ target ∈ db.artifacts.keys) (.artifactExists target)
    return { db with
      artifacts := Dict.set (Dict.pop db.artifacts source) target { artifact with releaseKey := some releaseKey } }

/-- `_repoint_one_artifact`. -/
def repointOneArtifact (db : Db) (x : ArtifactRepoint) : Except WriteError Db :=
  db.moveArtifact x.fromPk ⟨x.toRow.projectKey.1, x.toRow.version.1, x.fromPk.path⟩ x.toRow.releaseKey

/-- The primary keys of the artifacts of a version of a project. -/
def artifactsAt (db : Db) (project version : Str) : List Pk :=
  db.artifacts.keys.filter fun pk => decide (pk.project = project ∧ pk.version = version)

/-- The update of the artifacts of a repointed release, row by row. -/
def repointArtifacts (db : Db) (r : ReleaseRepoint) : Except WriteError Db :=
  (db.artifactsAt r.fromProject r.row.version.1).foldlM
    (fun db pk => db.moveArtifact pk { pk with project := r.toProject } r.newKey) db

/-- The update of the key and the project of a release, if there is one of its key. -/
def repointReleaseRow (db : Db) (r : ReleaseRepoint) : Except WriteError Db :=
  match Dict.get db.releases r.key with
  | none => .ok db
  | some release => do
    raiseIf (r.newKey ≠ r.key ∧ r.newKey ∈ db.releases.keys) (.releaseExists r.newKey)
    return { db with
      releases := Dict.set (Dict.pop db.releases r.key) r.newKey { release with projectKey := r.toProject } }

/-- The tasks and the revisions of a repointed release. -/
def repointChildren (db : Db) (r : ReleaseRepoint) : Db :=
  { db with
    tasks := db.tasks.map fun task =>
      if task = (r.fromProject, r.row.version.1) then (r.toProject, r.row.version.1) else task
    revisions := db.revisions.map fun key => if key = r.key then r.newKey else key }

/-- `_repoint_one_release`. -/
def repointOneRelease (db : Db) (r : ReleaseRepoint) : Except WriteError Db := do
  raiseIf ((r.fromProject, r.row.version.1) ∈ db.tasks) (.pendingTasks r.key)
  let db ← db.repointArtifacts r
  (db.repointChildren r).repointReleaseRow r

/-! ### The transaction -/

/-- `_apply_diff`. -/
def applyDiff (db : Db) (diff : CatalogueDiff) : Except WriteError Db := do
  let db ← diff.projectAdds.foldlM addProject (db.applyDeletions diff)
  let db ← diff.releaseAdds.foldlM addRelease db
  let db ← diff.artifactAdds.foldlM addArtifact db
  let db ← diff.artifactRepoints.foldlM repointOneArtifact db
  let db ← diff.releaseRepoints.foldlM repointOneRelease db
  raiseIf (¬ db.References) .danglingReferences
  return db

end Db

/-- `import_catalogue_csvs`. -/
def importCatalogueCsvs (parsers : Parsers) (upload : Upload) (committeeKey : Str) (mode : Mode) (db : Db) :
    Except WriteError Db :=
  db.applyDiff (classify parsers upload (buildSnapshot db committeeKey) committeeKey mode)

end Catalogue

end TrustedReleases
