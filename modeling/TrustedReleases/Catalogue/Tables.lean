import TrustedReleases.Catalogue.Diff

/-!
# Tables of the catalogue

The tables that an import reads and writes, their constraints, and the snapshot that `build_snapshot` takes of them
(`atr/shared/catalogue_import.py`).
-/

namespace TrustedReleases

open Lib

namespace Catalogue

/-- The project and the version of a release.  Its cycle, which the writer resolves anew from both, is left out. -/
structure Release where
  projectKey : Str
  version : Str
  deriving DecidableEq, Repr

structure Artifact where
  releaseKey : Option Str
  downloadPathSuffix : Option Str
  deriving DecidableEq, Repr

/-- `ReleaseRow.to_sql`. -/
def ReleaseRow.toSql (row : ReleaseRow) : Release := ⟨row.projectKey.1, row.version.1⟩

/-- `ArtifactRow.to_sql`. -/
def ArtifactRow.toSql (row : ArtifactRow) : Artifact :=
  ⟨some row.releaseKey, row.downloadPathSuffix.map fun suffix => suffix.1⟩

/-- The tables: projects with their committees, releases, artifacts, the release keys of the revisions, and the projects
and versions of the tasks that are queued or active. -/
structure Db where
  projects : Dict Str (Option Str)
  releases : Dict Str Release
  artifacts : Dict Pk Artifact
  revisions : List Str
  tasks : List (Str × Str)

/-- The foreign keys hold. -/
structure Db.References (db : Db) : Prop where
  releases : ∀ key ∈ db.releases.keys, ∀ release ∈ Dict.get db.releases key, release.projectKey ∈ db.projects.keys
  artifactProjects : ∀ pk ∈ db.artifacts.keys, pk.project ∈ db.projects.keys
  artifactReleases : ∀ pk ∈ db.artifacts.keys, ∀ artifact ∈ Dict.get db.artifacts pk, ∀ key ∈ artifact.releaseKey,
    key ∈ db.releases.keys
  revisions : ∀ key ∈ db.revisions, key ∈ db.releases.keys

instance (db : Db) : Decidable db.References :=
  decidable_of_iff
    ((∀ key ∈ db.releases.keys, ∀ release ∈ Dict.get db.releases key, release.projectKey ∈ db.projects.keys) ∧
      (∀ pk ∈ db.artifacts.keys, pk.project ∈ db.projects.keys) ∧
      (∀ pk ∈ db.artifacts.keys, ∀ artifact ∈ Dict.get db.artifacts pk, ∀ key ∈ artifact.releaseKey,
        key ∈ db.releases.keys) ∧
      ∀ key ∈ db.revisions, key ∈ db.releases.keys)
    ⟨fun h => ⟨h.1, h.2.1, h.2.2.1, h.2.2.2⟩, fun h => ⟨h.releases, h.artifactProjects, h.artifactReleases, h.revisions⟩⟩

/-- The foreign keys hold, and the key of every release consists of its project and version. -/
structure Db.Valid (db : Db) : Prop extends db.References where
  keyed : ∀ key release, Dict.get db.releases key = some release → key = releaseKeyOf release.projectKey release.version

/-! ### Snapshots -/

/-- The committees of the projects that have one. -/
def Db.projectCommittee (db : Db) : Dict Str Str := Dict.filterMap (fun _ committee => committee) db.projects

/-- The projects of a committee. -/
def Db.workspaceKeys (db : Db) (committeeKey : Str) : List Str :=
  db.projectCommittee.keys.filter fun key => decide (Dict.get db.projectCommittee key = some committeeKey)

/-- One pass over the artifacts that a dictionary by directory and file name is built from. -/
def Db.addDist (db : Db) (committeeKey : Str) (d : Dict Dist Pk) (pk : Pk) : Dict Dist Pk :=
  match (Dict.get db.artifacts pk).bind (fun artifact => artifact.downloadPathSuffix) with
  | some suffix => if suffix ≠ [] ∧ pk.project ∈ db.workspaceKeys committeeKey then Dict.set d (suffix, pk.path) pk else d
  | none => d

/-- `build_snapshot`. -/
def buildSnapshot (db : Db) (committeeKey : Str) : DbSnapshot where
  projectCommittee := db.projectCommittee
  releaseProject := Dict.filterMap (fun _ release =>
    if release.projectKey ∈ db.workspaceKeys committeeKey then some release.projectKey else none) db.releases
  artifactByDist := db.artifacts.keys.foldl (db.addDist committeeKey) ∅
  managedProjectKeys := db.revisions.filterMap fun key => (Dict.get db.releases key).map fun release => release.projectKey
  releaseKeys := db.releases.keys
  artifactPks := db.artifacts.keys.filter fun pk => decide (pk.project ∈ db.workspaceKeys committeeKey)
  protectedReleaseKeys := db.revisions

section Snapshot

variable {db : Db} {committeeKey : Str}

private theorem mem_workspaceKeys {key : Str} :
    key ∈ db.workspaceKeys committeeKey ↔ Dict.get db.projectCommittee key = some committeeKey := by
  rw [Db.workspaceKeys, List.mem_filter, decide_eq_true_iff]
  exact ⟨fun h => h.2, fun h => ⟨Dict.mem_keys_of_get h, h⟩⟩

theorem get_releaseProject {key project : Str} :
    Dict.get (buildSnapshot db committeeKey).releaseProject key = some project ↔
      ∃ release, Dict.get db.releases key = some release ∧ release.projectKey = project ∧
        Dict.get db.projectCommittee project = some committeeKey := by
  simp only [buildSnapshot, Dict.get_filterMap, Option.bind_eq_some_iff, Option.ite_none_right_eq_some,
    Option.some.injEq, mem_workspaceKeys]
  constructor
  · rintro ⟨release, hrelease, hcommittee, rfl⟩
    exact ⟨release, hrelease, rfl, hcommittee⟩
  · rintro ⟨release, hrelease, rfl, hcommittee⟩
    exact ⟨release, hrelease, hcommittee, rfl⟩

theorem mem_artifactPks {pk : Pk} :
    pk ∈ (buildSnapshot db committeeKey).artifactPks ↔
      pk ∈ db.artifacts.keys ∧ Dict.get db.projectCommittee pk.project = some committeeKey := by
  simp only [buildSnapshot, List.mem_filter, decide_eq_true_iff, mem_workspaceKeys]

theorem mem_managedProjectKeys {project : Str} :
    project ∈ (buildSnapshot db committeeKey).managedProjectKeys ↔
      ∃ key ∈ db.revisions, ∃ release, Dict.get db.releases key = some release ∧ release.projectKey = project := by
  simp only [buildSnapshot, List.mem_filterMap, Option.map_eq_some_iff]

/-- An artifact that is found by its directory and file name has them. -/
theorem get_artifactByDist {dist : Dist} {pk : Pk}
    (h : Dict.get (buildSnapshot db committeeKey).artifactByDist dist = some pk) :
    pk ∈ (buildSnapshot db committeeKey).artifactPks ∧ pk.path = dist.2 ∧
      ∃ artifact, Dict.get db.artifacts pk = some artifact ∧ artifact.downloadPathSuffix = some dist.1 := by
  have hfold : ∀ (pks : List Pk) (d : Dict Dist Pk), (∀ pk ∈ pks, pk ∈ db.artifacts.keys) →
      Dict.get (pks.foldl (db.addDist committeeKey) d) dist = some pk →
      Dict.get d dist = some pk ∨ (pk ∈ (buildSnapshot db committeeKey).artifactPks ∧ pk.path = dist.2 ∧
        ∃ artifact, Dict.get db.artifacts pk = some artifact ∧ artifact.downloadPathSuffix = some dist.1) := by
    intro pks
    induction pks with
    | nil => exact fun d _ hget => .inl hget
    | cons pk' pks ih =>
      intro d hpks hget
      rw [List.forall_mem_cons] at hpks
      rcases ih _ hpks.2 hget with hget | hfound
      · unfold Db.addDist at hget
        split at hget
        next suffix hsuffix =>
          split_ifs at hget with hworkspace
          · rw [Dict.get_set] at hget
            split_ifs at hget with hdist
            · obtain rfl := Option.some.inj hget
              obtain ⟨artifact, hartifact, hsuffix⟩ := Option.bind_eq_some_iff.1 hsuffix
              refine .inr ⟨mem_artifactPks.2 ⟨hpks.1, mem_workspaceKeys.1 hworkspace.2⟩, ?_, artifact, hartifact, ?_⟩
              · rw [hdist]
              · rw [hsuffix, hdist]
            · exact .inl hget
          · exact .inl hget
        next => exact .inl hget
      · exact .inr hfound
  rcases hfold db.artifacts.keys ∅ (fun _ hpk => hpk) h with hempty | hfound
  · rw [Dict.get_empty] at hempty
    cases hempty
  · exact hfound

end Snapshot

end Catalogue

end TrustedReleases
