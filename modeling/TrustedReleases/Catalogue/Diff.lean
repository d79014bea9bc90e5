import TrustedReleases.Catalogue.Rows
import TrustedReleases.Lib.Query

/-!
# The difference of a catalogue and uploaded rows

The classification of uploaded rows against a snapshot of the database (`atr/shared/catalogue_diff.py`): a row is an
add, a repoint, unchanged or a conflict.  A replace first clears the snapshot of what it deletes, and is refused as a
whole where a row conflicts.  Sets are lists of which only the members count.
-/

namespace TrustedReleases

open Lib

namespace Catalogue

inductive Mode where
  | replace
  | additive
  deriving DecidableEq, Repr

/-- The directory and the file name of an artifact that has a directory. -/
abbrev Dist := Str × Str

structure DbSnapshot where
  projectCommittee : Dict Str Str
  releaseProject : Dict Str Str
  artifactByDist : Dict Dist Pk
  managedProjectKeys : List Str
  releaseKeys : List Str
  artifactPks : List Pk
  protectedReleaseKeys : List Str

structure Conflict where
  table : Str
  key : Str
  reason : Str
  deriving DecidableEq, Repr

structure ArtifactRepoint where
  dist : Dist
  fromPk : Pk
  toRow : ArtifactRow
  deriving DecidableEq

structure ReleaseRepoint where
  key : Str
  fromProject : Str
  toProject : Str
  row : ReleaseRow
  deriving DecidableEq

/-- The key that a repointed release gets. -/
def ReleaseRepoint.newKey (r : ReleaseRepoint) : Str := releaseKeyOf r.toProject r.row.version.1

structure CatalogueDiff where
  adds : List Row := []
  artifactRepoints : List ArtifactRepoint := []
  releaseRepoints : List ReleaseRepoint := []
  conflicts : List Conflict := []
  projectDeletions : List Str := []
  releaseDeletions : List Str := []
  artifactDeletions : List Pk := []
  warnings : List Str := []
  unchanged : Nat := 0
  refused : Bool := false
  deriving DecidableEq

def Row.toProject? : Row → Option ProjectRow
  | .project row => some row
  | _ => none

def Row.toRelease? : Row → Option ReleaseRow
  | .release row => some row
  | _ => none

def Row.toArtifact? : Row → Option ArtifactRow
  | .artifact row => some row
  | _ => none

def CatalogueDiff.projectAdds (diff : CatalogueDiff) : List ProjectRow := diff.adds.filterMap Row.toProject?

def CatalogueDiff.releaseAdds (diff : CatalogueDiff) : List ReleaseRow := diff.adds.filterMap Row.toRelease?

def CatalogueDiff.artifactAdds (diff : CatalogueDiff) : List ArtifactRow := diff.adds.filterMap Row.toArtifact?

def CatalogueDiff.conflict (diff : CatalogueDiff) (table key reason : Str) : CatalogueDiff :=
  { diff with conflicts := diff.conflicts ++ [⟨table, key, reason⟩] }

def CatalogueDiff.skip (diff : CatalogueDiff) : CatalogueDiff := { diff with unchanged := diff.unchanged + 1 }

def CatalogueDiff.add (diff : CatalogueDiff) (row : Row) : CatalogueDiff := { diff with adds := diff.adds ++ [row] }

/-! ### Clearing -/

def clearProjects (upload : Upload) : Bool := upload.projects.isSome

def clearReleases (upload : Upload) : Bool := clearProjects upload || upload.releases.isSome

def clearArtifacts (upload : Upload) : Bool := clearReleases upload || upload.artifacts.isSome

/-- The projects that a replace clears: those of the committee that are not managed. -/
def DbSnapshot.catalogued (snapshot : DbSnapshot) (committeeKey : Str) : List Str :=
  snapshot.projectCommittee.keys.filter fun key =>
    decide (Dict.get snapshot.projectCommittee key = some committeeKey ∧ key ∉ snapshot.managedProjectKeys)

/-- The releases of the cleared projects. -/
def DbSnapshot.cataloguedReleases (snapshot : DbSnapshot) (committeeKey : Str) : List Str :=
  snapshot.releaseProject.keys.filter fun key =>
    decide (∃ project ∈ Dict.get snapshot.releaseProject key, project ∈ snapshot.catalogued committeeKey)

/-- The artifacts of the cleared projects. -/
def DbSnapshot.cataloguedArtifacts (snapshot : DbSnapshot) (committeeKey : Str) : List Pk :=
  snapshot.artifactPks.filter fun pk => decide (pk.project ∈ snapshot.catalogued committeeKey)

def numeral (n : Nat) : Str := (toString n).toList

/-- `_warn_about_empty_levels`. -/
def emptyLevelWarnings (upload : Upload) (releases artifacts : Nat) : List Str :=
  (if upload.projects.isSome ∧ upload.releases = none then
    ["releases.csv was not uploaded, so ".toList ++ numeral releases ++ " releases and ".toList ++ numeral artifacts ++
      " artifacts will be deleted and not restored, leaving the projects empty. ".toList ++
      "Import releases.csv next to restore them.".toList] else []) ++
  (if upload.releases.isSome ∧ upload.artifacts = none then
    ["artifacts.csv was not uploaded, so ".toList ++ numeral artifacts ++
      " artifacts will be deleted and not restored, leaving the releases with no artifacts. ".toList ++
      "Import artifacts.csv next to restore them.".toList] else [])

/-- The deletions that `_clear` puts into the empty difference. -/
def clearDiff (upload : Upload) (snapshot : DbSnapshot) (committeeKey : Str) : CatalogueDiff where
  projectDeletions := if clearProjects upload then sorted (snapshot.catalogued committeeKey) else []
  releaseDeletions := if clearReleases upload then sorted (snapshot.cataloguedReleases committeeKey) else []
  artifactDeletions :=
    if clearArtifacts upload then
      orderBy (fun pk => toLex (pk.project, toLex (pk.version, pk.path))) (snapshot.cataloguedArtifacts committeeKey)
    else []
  warnings := emptyLevelWarnings upload (snapshot.cataloguedReleases committeeKey).length
    (snapshot.cataloguedArtifacts committeeKey).length

/-- The snapshot that `_clear` returns. -/
def clear (upload : Upload) (snapshot : DbSnapshot) (committeeKey : Str) : DbSnapshot :=
  { snapshot with
    projectCommittee := Dict.filterMap (fun key committee =>
      if clearProjects upload ∧ key ∈ snapshot.catalogued committeeKey then none else some committee)
      snapshot.projectCommittee
    releaseProject := Dict.filterMap (fun key project =>
      if clearReleases upload ∧ key ∈ snapshot.cataloguedReleases committeeKey then none else some project)
      snapshot.releaseProject
    releaseKeys := snapshot.releaseKeys.filter fun key =>
      decide ¬ (clearReleases upload ∧ key ∈ snapshot.cataloguedReleases committeeKey)
    artifactByDist := Dict.filterMap (fun _ pk =>
      if clearArtifacts upload ∧ pk.project ∈ snapshot.catalogued committeeKey then none else some pk)
      snapshot.artifactByDist
    artifactPks := snapshot.artifactPks.filter fun pk =>
      decide ¬ (clearArtifacts upload ∧ pk ∈ snapshot.cataloguedArtifacts committeeKey) }

/-! ### Parsing -/

/-- `_parse`: the valid rows, and a conflict for each of the others. -/
def parse {ρ : Type} (table identity : Str) (validate : RawRow → Except Str ρ) (lines : List RawRow)
    (diff : CatalogueDiff) : List ρ × CatalogueDiff :=
  lines.foldl (fun s raw =>
    match validate raw with
    | .ok row => (s.1 ++ [row], s.2)
    | .error e => (s.1, s.2.conflict table ((Dict.get raw identity).getD "?".toList) e)) ([], diff)

/-! ### Projects -/

/-- `_known_projects`: the projects of the committee, and those that are added. -/
def knownProjects (snapshot : DbSnapshot) (diff : CatalogueDiff) (committeeKey : Str) : List Str :=
  (snapshot.projectCommittee.keys.filter fun key =>
    decide (Dict.get snapshot.projectCommittee key = some committeeKey)) ++ diff.projectAdds.map fun row => row.key.1

/-- `_project_reference_conflict`, as its reason. -/
def projectReferenceConflict (row : ProjectRow) (snapshot : DbSnapshot) (committeeKey : Str) : Option Str :=
  let committee := (row.committeeKey.map fun key => key.1).getD []
  if committee ≠ committeeKey then
    some ("committee '".toList ++ committee ++ "' is not this committee".toList)
  else
    match Dict.get snapshot.projectCommittee row.key.1 with
    | some holder =>
      if holder ≠ committeeKey then
        some ("project '".toList ++ row.key.1 ++ "' belongs to committee '".toList ++ holder ++ "'".toList)
      else none
    | none => none

/-- What the loop over project rows carries: the keys seen and the difference. -/
structure ProjectsState where
  seen : List Str
  diff : CatalogueDiff

def ProjectsState.conflict (s : ProjectsState) (row : ProjectRow) (reason : Str) : ProjectsState :=
  { s with diff := s.diff.conflict "projects".toList row.key.1 reason }

/-- One pass of `_classify_projects`. -/
def classifyProject (snapshot : DbSnapshot) (committeeKey : Str) (s : ProjectsState) (row : ProjectRow) : ProjectsState :=
  if row.key.1 ∈ s.seen then s.conflict row "listed more than once in this file".toList
  else
    let s := { s with seen := row.key.1 :: s.seen }
    match projectReferenceConflict row snapshot committeeKey with
    | some reason => s.conflict row reason
    | none =>
      if row.key.1 ∈ snapshot.projectCommittee.keys then { s with diff := s.diff.skip }
      else { s with diff := s.diff.add (.project row) }

/-- `_classify_projects`. -/
def classifyProjects (rows : List ProjectRow) (snapshot : DbSnapshot) (committeeKey : Str) (diff : CatalogueDiff) :
    CatalogueDiff :=
  (rows.foldl (classifyProject snapshot committeeKey) ⟨[], diff⟩).diff

/-! ### Releases -/

/-- `_release_reference_conflict`, as its reason. -/
def releaseReferenceConflict (row : ReleaseRow) (snapshot : DbSnapshot) (known : List Str) (current : Option Str) :
    Option Str :=
  if row.key.1 ≠ releaseKeyOf (current.getD row.projectKey.1) row.version.1 then
    some ("key does not match version '".toList ++ row.version.1 ++ "'".toList)
  else if row.projectKey.1 ∉ known then
    if row.projectKey.1 ∈ snapshot.projectCommittee.keys then
      some ("project '".toList ++ row.projectKey.1 ++ "' is not in this committee".toList)
    else some ("target project '".toList ++ row.projectKey.1 ++ "' does not exist".toList)
  else none

/-- `_repoint_artifact_collision`, as its reason. -/
def repointArtifactCollision (snapshot : DbSnapshot) (fromProject toProject version : Str) : Option Str :=
  ((snapshot.artifactPks.filter fun pk => decide (pk.project = fromProject ∧ pk.version = version)).find? fun pk =>
    decide ((⟨toProject, version, pk.path⟩ : Pk) ∈ snapshot.artifactPks)).map fun pk =>
      "target already has artifact '".toList ++ pk.path ++ "' at version ".toList ++ version

/-- What the loop over release rows carries: the keys seen, those claimed and the difference. -/
structure ReleasesState where
  seen : List Str
  claimed : List Str
  diff : CatalogueDiff

def ReleasesState.conflict (s : ReleasesState) (row : ReleaseRow) (reason : Str) : ReleasesState :=
  { s with diff := s.diff.conflict "releases".toList row.key.1 reason }

/-- What `_classify_releases` does with a row of a key that no release of the committee has. -/
def classifyNewRelease (snapshot : DbSnapshot) (s : ReleasesState) (row : ReleaseRow) : ReleasesState :=
  if row.key.1 ∈ snapshot.releaseKeys ∨ row.key.1 ∈ s.claimed then
    s.conflict row ("release '".toList ++ row.key.1 ++ "' already exists".toList)
  else { s with claimed := row.key.1 :: s.claimed, diff := s.diff.add (.release row) }

/-- What `_classify_releases` does with a row of a release of the committee under a current project. -/
def classifyHeldRelease (snapshot : DbSnapshot) (s : ReleasesState) (row : ReleaseRow) (current : Str) :
    ReleasesState :=
  let target := releaseKeyOf row.projectKey.1 row.version.1
  if current = row.projectKey.1 then { s with diff := s.diff.skip }
  else if row.key.1 ∈ snapshot.protectedReleaseKeys then
    s.conflict row "release has live workflow data".toList
  else if target ∈ snapshot.releaseKeys ∨ target ∈ s.claimed then
    s.conflict row ("target already has release '".toList ++ target ++ "'".toList)
  else
    match repointArtifactCollision snapshot current row.projectKey.1 row.version.1 with
    | some reason => s.conflict row reason
    | none =>
      { s with
        claimed := target :: s.claimed
        diff := { s.diff with
          releaseRepoints := s.diff.releaseRepoints ++ [⟨row.key.1, current, row.projectKey.1, row⟩] } }

/-- One pass of `_classify_releases`. -/
def classifyRelease (snapshot : DbSnapshot) (known : List Str) (s : ReleasesState) (row : ReleaseRow) : ReleasesState :=
  if row.key.1 ∈ s.seen then s.conflict row "listed more than once in this file".toList
  else
    let s := { s with seen := row.key.1 :: s.seen }
    let current := Dict.get snapshot.releaseProject row.key.1
    match releaseReferenceConflict row snapshot known current, current with
    | some reason, _ => s.conflict row reason
    | none, none => classifyNewRelease snapshot s row
    | none, some current => classifyHeldRelease snapshot s row current

/-- `_classify_releases`. -/
def classifyReleases (rows : List ReleaseRow) (snapshot : DbSnapshot) (committeeKey : Str) (diff : CatalogueDiff) :
    CatalogueDiff :=
  (rows.foldl (classifyRelease snapshot (knownProjects snapshot diff committeeKey)) ⟨[], [], diff⟩).diff

/-! ### Artifacts -/

/-- `_after_release_repoints`. -/
def afterReleaseRepoints (snapshot : DbSnapshot) (diff : CatalogueDiff) : DbSnapshot :=
  { snapshot with
    releaseProject := diff.releaseRepoints.foldl (fun d r => Dict.set d r.newKey r.toProject) snapshot.releaseProject
    releaseKeys := snapshot.releaseKeys ++ diff.releaseRepoints.map ReleaseRepoint.newKey }

/-- The projects that releases are repointed to, under their old projects and versions. -/
def repointedProjects (diff : CatalogueDiff) : Dict (Str × Str) Str :=
  diff.releaseRepoints.foldl (fun d r => Dict.set d (r.fromProject, r.row.version.1) r.toProject) ∅

/-- `_repointed_pk`. -/
def repointedPk (pk : Pk) (repointed : Dict (Str × Str) Str) : Pk :=
  match Dict.get repointed (pk.project, pk.version) with
  | none => pk
  | some project => { pk with project := project }

/-- `_artifact_reference_conflict`, as its reason. -/
def artifactReferenceConflict (row : ArtifactRow) (snapshot : DbSnapshot) (known knownReleases : List Str) : Option Str :=
  if row.releaseKey ∈ snapshot.protectedReleaseKeys then some "target release has live workflow data".toList
  else if row.projectKey.1 ∉ known then
    some ("project '".toList ++ row.projectKey.1 ++ "' is not in this committee".toList)
  else if row.releaseKey ∉ knownReleases then
    some ("release '".toList ++ row.releaseKey ++ "' does not exist".toList)
  else none

/-- What the loop over artifact rows carries. -/
structure ArtifactsState where
  claimed : List Pk
  seenDists : List Dist
  seenPks : List Pk
  diff : CatalogueDiff

/-- What the loop over artifact rows reads: the snapshot after the release repoints, the known keys and the repoints. -/
structure ArtifactsContext where
  snapshot : DbSnapshot
  known : List Str
  knownReleases : List Str
  repointed : Dict (Str × Str) Str

def ArtifactsState.conflict (s : ArtifactsState) (row : ArtifactRow) (reason : Str) : ArtifactsState :=
  { s with diff := s.diff.conflict "artifacts".toList row.artifactPath.1 reason }

/-- What `_classify_artifacts` does with a row of an artifact that the database holds. -/
def classifyHeldArtifact (ctx : ArtifactsContext) (s : ArtifactsState) (row : ArtifactRow) (dist : Dist) (matched : Pk) :
    ArtifactsState :=
  if row.pk = matched ∨ row.pk = repointedPk matched ctx.repointed then { s with diff := s.diff.skip }
  else if releaseKeyOf matched.project matched.version ∈ ctx.snapshot.protectedReleaseKeys then
    s.conflict row "source release has live workflow data".toList
  else if row.pk ∈ s.claimed then s.conflict row "target already exists".toList
  else
    { s with
      claimed := row.pk :: s.claimed
      diff := { s.diff with artifactRepoints := s.diff.artifactRepoints ++ [⟨dist, matched, row⟩] } }

/-- What `_classify_artifacts` does with a row of an artifact that the database does not hold. -/
def classifyNewArtifact (s : ArtifactsState) (row : ArtifactRow) : ArtifactsState :=
  if row.pk ∈ s.claimed then s.conflict row "artifact already exists at that project and version".toList
  else { s with claimed := row.pk :: s.claimed, diff := s.diff.add (.artifact row) }

/-- One pass of `_classify_artifacts`. -/
def classifyArtifact (ctx : ArtifactsContext) (s : ArtifactsState) (row : ArtifactRow) : ArtifactsState :=
  let dist : Dist := ((row.downloadPathSuffix.map fun suffix => suffix.1).getD [], row.artifactPath.1)
  match artifactReferenceConflict row ctx.snapshot ctx.known ctx.knownReleases with
  | some reason => s.conflict row reason
  | none =>
    if dist ∈ s.seenDists ∨ row.pk ∈ s.seenPks then s.conflict row "listed more than once in this file".toList
    else
      let s := { s with seenDists := dist :: s.seenDists, seenPks := row.pk :: s.seenPks }
      match if dist.1 = [] then none else Dict.get ctx.snapshot.artifactByDist dist with
      | some matched => classifyHeldArtifact ctx s row dist matched
      | none => classifyNewArtifact s row

/-- What `_classify_artifacts` computes before its loop. -/
def artifactsContext (snapshot : DbSnapshot) (committeeKey : Str) (diff : CatalogueDiff) : ArtifactsContext where
  snapshot := afterReleaseRepoints snapshot diff
  known := knownProjects (afterReleaseRepoints snapshot diff) diff committeeKey
  knownReleases := (afterReleaseRepoints snapshot diff).releaseProject.keys ++ diff.releaseAdds.map fun row => row.key.1
  repointed := repointedProjects diff

/-- `_classify_artifacts`. -/
def classifyArtifacts (rows : List ArtifactRow) (snapshot : DbSnapshot) (committeeKey : Str) (diff : CatalogueDiff) :
    CatalogueDiff :=
  let ctx := artifactsContext snapshot committeeKey diff
  (rows.foldl (classifyArtifact ctx) ⟨snapshot.artifactPks ++ snapshot.artifactPks.map fun pk => repointedPk pk ctx.repointed,
    [], [], diff⟩).diff

/-! ### Classification -/

/-- The three classifications one after the other, which `classify_additive` and `classify_replace` share. -/
def classifyRows (parsers : Parsers) (upload : Upload) (snapshot : DbSnapshot) (committeeKey : Str)
    (diff : CatalogueDiff) : CatalogueDiff :=
  let projects := parse "projects".toList "key".toList parsers.project (upload.projects.getD []) diff
  let releases := parse "releases".toList "key".toList parsers.release (upload.releases.getD []) projects.2
  let artifacts := parse "artifacts".toList "artifact_path".toList parsers.artifact (upload.artifacts.getD []) releases.2
  classifyArtifacts artifacts.1 snapshot committeeKey
    (classifyReleases releases.1 snapshot committeeKey (classifyProjects projects.1 snapshot committeeKey artifacts.2))

/-- `_refused`. -/
def refused (diff : CatalogueDiff) : CatalogueDiff where
  conflicts := diff.conflicts
  refused := true
  warnings := ["Nothing was changed. Your files replace this committee's catalogue, so a row that cannot".toList ++
    " be applied would be deleted and not restored. Fix the conflicts below and upload again.".toList]

def classifyAdditive (parsers : Parsers) (upload : Upload) (snapshot : DbSnapshot) (committeeKey : Str) : CatalogueDiff :=
  classifyRows parsers upload snapshot committeeKey {}

def classifyReplace (parsers : Parsers) (upload : Upload) (snapshot : DbSnapshot) (committeeKey : Str) : CatalogueDiff :=
  let diff := classifyRows parsers upload (clear upload snapshot committeeKey) committeeKey
    (clearDiff upload snapshot committeeKey)
  if diff.conflicts ≠ [] then refused diff else diff

def classify (parsers : Parsers) (upload : Upload) (snapshot : DbSnapshot) (committeeKey : Str) (mode : Mode) :
    CatalogueDiff :=
  match mode with
  | .replace => classifyReplace parsers upload snapshot committeeKey
  | .additive => classifyAdditive parsers upload snapshot committeeKey

end Catalogue

end TrustedReleases
