import TrustedReleases.Catalogue.Classified
import TrustedReleases.Catalogue.Writer

/-!
# The tables after the deletions

What the deletions leave in the tables, and that the cleared snapshot, against which the rows are classified, says what
they leave: the snapshot and the writer agree when the adds begin (`prepared`).
-/

namespace TrustedReleases

open Lib

namespace Catalogue

variable {db : Db} {diff : CatalogueDiff} {committeeKey : Str}

/-! ### Deletions -/

private theorem mem_projectReleases {key releaseKey : Str} :
    releaseKey ∈ db.projectReleases key ↔ ∃ release, Dict.get db.releases releaseKey = some release ∧ release.projectKey = key := by
  rw [Db.projectReleases, List.mem_filter, decide_eq_true_iff]
  constructor
  · rintro ⟨-, release, hrelease, hproject⟩
    exact ⟨release, Option.mem_def.1 hrelease, hproject⟩
  · rintro ⟨release, hrelease, hproject⟩
    exact ⟨Dict.mem_keys_of_get hrelease, release, hrelease, hproject⟩

/-- A filter of the rows of a table. -/
private theorem filterMap_ite_eq_some {α β : Type} [DecidableEq α] {p : α → β → Prop} [∀ k v, Decidable (p k v)]
    {d : Dict α β} {k : α} {v : β} :
    Dict.get (Dict.filterMap (fun k v => if p k v then none else some v) d) k = some v ↔
      Dict.get d k = some v ∧ ¬ p k v := by
  rw [Dict.get_filterMap, Option.bind_eq_some_iff]
  constructor
  · rintro ⟨w, hw, hsome⟩
    split_ifs at hsome with hp
    obtain rfl := Option.some.inj hsome
    exact ⟨hw, hp⟩
  · rintro ⟨hget, hp⟩
    exact ⟨v, hget, if_neg hp⟩

private theorem get_releases_deleteProjectRows {key releaseKey : Str} {release : Release} :
    Dict.get (db.deleteProjectRows key).releases releaseKey = some release ↔
      Dict.get db.releases releaseKey = some release ∧ release.projectKey ≠ key :=
  filterMap_ite_eq_some

private theorem get_artifacts_deleteProjectRows {key : Str} {pk : Pk} {artifact : Artifact} :
    Dict.get (db.deleteProjectRows key).artifacts pk = some artifact ↔
      Dict.get db.artifacts pk = some artifact ∧ pk.project ≠ key ∧
        ∀ releaseKey ∈ artifact.releaseKey, ∀ release, Dict.get db.releases releaseKey = some release →
          release.projectKey ≠ key := by
  have hchildren : (∃ releaseKey ∈ artifact.releaseKey, releaseKey ∈ db.projectReleases key) ↔
      ∃ releaseKey ∈ artifact.releaseKey, ∃ release, Dict.get db.releases releaseKey = some release ∧
        release.projectKey = key := by
    simp only [mem_projectReleases]
  rw [Db.deleteProjectRows, filterMap_ite_eq_some, Db.deleteReleaseChildren, filterMap_ite_eq_some, hchildren, and_assoc,
    and_comm (a := ¬ _)]
  simp only [not_exists, not_and, ne_eq]

private theorem get_projects_deleteProjectRows {key projectKey : Str} :
    Dict.get (db.deleteProjectRows key).projects projectKey =
      if projectKey = key then none else Dict.get db.projects projectKey := Dict.get_pop _ _ _

/-- What the deletion of several projects leaves. -/
private theorem deleteProjects (keys : List Str) (db : Db) :
    (∀ projectKey, Dict.get (keys.foldl Db.deleteProjectRows db).projects projectKey =
      if projectKey ∈ keys then none else Dict.get db.projects projectKey) ∧
    (∀ releaseKey release, Dict.get (keys.foldl Db.deleteProjectRows db).releases releaseKey = some release ↔
      Dict.get db.releases releaseKey = some release ∧ release.projectKey ∉ keys) ∧
    ∀ pk artifact, Dict.get (keys.foldl Db.deleteProjectRows db).artifacts pk = some artifact ↔
      Dict.get db.artifacts pk = some artifact ∧ pk.project ∉ keys ∧
        ∀ releaseKey ∈ artifact.releaseKey, ∀ release, Dict.get db.releases releaseKey = some release →
          release.projectKey ∉ keys := by
  induction keys generalizing db with
  | nil => exact ⟨by simp, by simp, by simp⟩
  | cons key keys ih =>
    obtain ⟨hprojects, hreleases, hartifacts⟩ := ih (db.deleteProjectRows key)
    rw [List.foldl_cons]
    refine ⟨fun projectKey => ?_, fun releaseKey release => ?_, fun pk artifact => ?_⟩
    · rw [hprojects, get_projects_deleteProjectRows]
      by_cases hkey : projectKey = key
      · simp [hkey]
      · simp [hkey]
    · rw [hreleases, get_releases_deleteProjectRows, List.mem_cons, not_or, and_assoc]
    · rw [hartifacts, get_artifacts_deleteProjectRows, List.mem_cons, not_or]
      constructor
      · rintro ⟨⟨hget, hproject, hkey⟩, hprojects, hkeys⟩
        refine ⟨hget, ⟨hproject, hprojects⟩, fun releaseKey hreleaseKey release hrelease => ?_⟩
        have hne := hkey releaseKey hreleaseKey release hrelease
        rw [List.mem_cons, not_or]
        exact ⟨hne, hkeys releaseKey hreleaseKey release (get_releases_deleteProjectRows.2 ⟨hrelease, hne⟩)⟩
      · rintro ⟨hget, ⟨hproject, hprojects⟩, hkeys⟩
        refine ⟨⟨hget, hproject, fun releaseKey hreleaseKey release hrelease => ?_⟩, hprojects,
          fun releaseKey hreleaseKey release hrelease => ?_⟩
        · exact List.ne_of_not_mem_cons (hkeys releaseKey hreleaseKey release hrelease)
        · have hold := (get_releases_deleteProjectRows.1 hrelease).1
          exact List.not_mem_of_not_mem_cons (hkeys releaseKey hreleaseKey release hold)

private theorem get_projects_applyDeletions (db : Db) (diff : CatalogueDiff) (projectKey : Str) :
    Dict.get (db.applyDeletions diff).projects projectKey =
      if projectKey ∈ diff.projectDeletions then none else Dict.get db.projects projectKey :=
  (deleteProjects diff.projectDeletions _).1 projectKey

theorem get_releases_applyDeletions {releaseKey : Str} {release : Release} :
    Dict.get (db.applyDeletions diff).releases releaseKey = some release ↔
      Dict.get db.releases releaseKey = some release ∧ releaseKey ∉ diff.releaseDeletions ∧
        release.projectKey ∉ diff.projectDeletions := by
  rw [Db.applyDeletions, (deleteProjects diff.projectDeletions _).2.1, Db.deleteReleaseRows, filterMap_ite_eq_some,
    and_assoc]
  rfl

theorem get_artifacts_applyDeletions {pk : Pk} {artifact : Artifact} :
    Dict.get (db.applyDeletions diff).artifacts pk = some artifact ↔
      Dict.get db.artifacts pk = some artifact ∧ pk ∉ diff.artifactDeletions ∧ pk.project ∉ diff.projectDeletions ∧
        ∀ releaseKey ∈ artifact.releaseKey, releaseKey ∉ diff.releaseDeletions ∧
          ∀ release, Dict.get db.releases releaseKey = some release → release.projectKey ∉ diff.projectDeletions := by
  have hreleases : ∀ releaseKey release,
      Dict.get ((db.deleteArtifactRows diff.artifactDeletions).deleteReleaseRows diff.releaseDeletions).releases releaseKey =
        some release ↔ Dict.get db.releases releaseKey = some release ∧ releaseKey ∉ diff.releaseDeletions :=
    fun _ _ => filterMap_ite_eq_some
  have hartifacts :
      Dict.get ((db.deleteArtifactRows diff.artifactDeletions).deleteReleaseRows diff.releaseDeletions).artifacts pk =
        some artifact ↔ (Dict.get db.artifacts pk = some artifact ∧ pk ∉ diff.artifactDeletions) ∧
          ¬ ∃ key ∈ artifact.releaseKey, key ∈ diff.releaseDeletions := by
    have hchildren : Dict.get ((db.deleteArtifactRows diff.artifactDeletions).deleteReleaseRows
        diff.releaseDeletions).artifacts pk = some artifact ↔
          Dict.get (db.deleteArtifactRows diff.artifactDeletions).artifacts pk = some artifact ∧
            ¬ ∃ key ∈ artifact.releaseKey, key ∈ diff.releaseDeletions := filterMap_ite_eq_some
    rw [hchildren, Db.deleteArtifactRows, filterMap_ite_eq_some]
  rw [Db.applyDeletions, (deleteProjects diff.projectDeletions _).2.2, hartifacts]
  simp only [hreleases]
  constructor
  · rintro ⟨⟨⟨hget, hpk⟩, hkeys⟩, hproject, hprojects⟩
    refine ⟨hget, hpk, hproject, fun releaseKey hkey => ?_⟩
    have hnot : releaseKey ∉ diff.releaseDeletions := fun hmem => hkeys ⟨releaseKey, hkey, hmem⟩
    exact ⟨hnot, fun release hrelease => hprojects releaseKey hkey release ⟨hrelease, hnot⟩⟩
  · rintro ⟨hget, hpk, hproject, hkeys⟩
    refine ⟨⟨⟨hget, hpk⟩, ?_⟩, hproject, fun releaseKey hkey release hrelease => ?_⟩
    · rintro ⟨releaseKey, hkey, hmem⟩
      exact (hkeys releaseKey hkey).1 hmem
    · exact (hkeys releaseKey hkey).2 release hrelease.1

/-- An artifact that the deletions leave has its project. -/
theorem artifactProjects_applyDeletions (h : db.References) {pk : Pk} (hpk : pk ∈ (db.applyDeletions diff).artifacts.keys) :
    pk.project ∈ (db.applyDeletions diff).projects.keys := by
  obtain ⟨artifact, hartifact⟩ := Option.isSome_iff_exists.1 (Dict.mem_keys.1 hpk)
  obtain ⟨hold, -, hproject, -⟩ := get_artifacts_applyDeletions.1 hartifact
  have hkey := h.artifactProjects pk (Dict.mem_keys_of_get hold)
  rw [Dict.mem_keys] at hkey ⊢
  rwa [get_projects_applyDeletions, if_neg hproject]

/-! ### Clearing -/

section Clear

variable {snapshot : DbSnapshot} {upload : Upload}

theorem mem_catalogued {key : Str} :
    key ∈ snapshot.catalogued committeeKey ↔
      Dict.get snapshot.projectCommittee key = some committeeKey ∧ key ∉ snapshot.managedProjectKeys := by
  rw [DbSnapshot.catalogued, List.mem_filter, decide_eq_true_iff]
  exact ⟨fun h => h.2, fun h => ⟨Dict.mem_keys_of_get h.1, h⟩⟩

theorem mem_cataloguedReleases {key : Str} :
    key ∈ snapshot.cataloguedReleases committeeKey ↔
      ∃ project, Dict.get snapshot.releaseProject key = some project ∧ project ∈ snapshot.catalogued committeeKey := by
  rw [DbSnapshot.cataloguedReleases, List.mem_filter, decide_eq_true_iff]
  constructor
  · rintro ⟨-, project, hproject, hmem⟩
    exact ⟨project, Option.mem_def.1 hproject, hmem⟩
  · rintro ⟨project, hproject, hmem⟩
    exact ⟨Dict.mem_keys_of_get hproject, project, hproject, hmem⟩

theorem mem_cataloguedArtifacts {pk : Pk} :
    pk ∈ snapshot.cataloguedArtifacts committeeKey ↔
      pk ∈ snapshot.artifactPks ∧ pk.project ∈ snapshot.catalogued committeeKey := by
  rw [DbSnapshot.cataloguedArtifacts, List.mem_filter, decide_eq_true_iff]

theorem mem_projectDeletions {key : Str} :
    key ∈ (clearDiff upload snapshot committeeKey).projectDeletions ↔
      clearProjects upload ∧ key ∈ snapshot.catalogued committeeKey := by
  simp only [clearDiff]
  split_ifs with hclear <;> simp [hclear]

theorem mem_releaseDeletions {key : Str} :
    key ∈ (clearDiff upload snapshot committeeKey).releaseDeletions ↔
      clearReleases upload ∧ key ∈ snapshot.cataloguedReleases committeeKey := by
  simp only [clearDiff]
  split_ifs with hclear <;> simp [hclear]

theorem mem_artifactDeletions {pk : Pk} :
    pk ∈ (clearDiff upload snapshot committeeKey).artifactDeletions ↔
      clearArtifacts upload ∧ pk ∈ snapshot.cataloguedArtifacts committeeKey := by
  simp only [clearDiff]
  split_ifs with hclear <;> simp [hclear]

/-- A level is cleared with those above it. -/
private theorem clearReleases_of_clearProjects (h : clearProjects upload) : clearReleases upload := by
  simp [clearReleases, h]

private theorem clearArtifacts_of_clearReleases (h : clearReleases upload) : clearArtifacts upload := by
  simp [clearArtifacts, h]

end Clear

/-! ### Modes -/

/-- A difference that changes nothing. -/
def CatalogueDiff.Idle (diff : CatalogueDiff) : Prop :=
  diff.changes = ⟨[], [], [], [], [], [], [], []⟩

/-- A classification is refused, adds to the whole catalogue or replaces the cleared one. -/
theorem classify_cases (parsers : Parsers) (upload : Upload) (snapshot : DbSnapshot) (committeeKey : Str) (mode : Mode) :
    (classify parsers upload snapshot committeeKey mode).Idle ∨
    (Classified snapshot committeeKey (classify parsers upload snapshot committeeKey mode) ∧
      (classify parsers upload snapshot committeeKey mode).projectDeletions = [] ∧
      (classify parsers upload snapshot committeeKey mode).releaseDeletions = [] ∧
      (classify parsers upload snapshot committeeKey mode).artifactDeletions = []) ∨
    (Classified (clear upload snapshot committeeKey) committeeKey (classify parsers upload snapshot committeeKey mode) ∧
      (classify parsers upload snapshot committeeKey mode).projectDeletions =
        (clearDiff upload snapshot committeeKey).projectDeletions ∧
      (classify parsers upload snapshot committeeKey mode).releaseDeletions =
        (clearDiff upload snapshot committeeKey).releaseDeletions ∧
      (classify parsers upload snapshot committeeKey mode).artifactDeletions =
        (clearDiff upload snapshot committeeKey).artifactDeletions) := by
  cases mode with
  | additive => exact .inr (.inl (classifyRows_classified parsers upload snapshot committeeKey rfl rfl rfl))
  | replace =>
    have hrows := classifyRows_classified parsers upload (clear upload snapshot committeeKey) committeeKey
      (show (clearDiff upload snapshot committeeKey).adds = [] from rfl) rfl rfl
    show (classifyReplace parsers upload snapshot committeeKey).Idle ∨ _ ∨ _
    unfold classify classifyReplace
    dsimp only
    split_ifs with hconflicts
    · exact .inl rfl
    · exact .inr (.inr hrows)

/-- A difference and the snapshot that it was classified against, which says what the deletions leave in the tables. -/
structure Prepared (db : Db) (committeeKey : Str) (snapshot : DbSnapshot) (diff : CatalogueDiff) : Prop where
  classified : Classified snapshot committeeKey diff
  releaseKeys : ∀ key ∈ (db.applyDeletions diff).releases.keys, key ∈ snapshot.releaseKeys
  releaseProject : ∀ key project, Dict.get snapshot.releaseProject key = some project →
    Dict.get snapshot.projectCommittee project = some committeeKey ∧
      ∃ release, Dict.get (db.applyDeletions diff).releases key = some release ∧ release.projectKey = project
  artifactPks : ∀ pk ∈ (db.applyDeletions diff).artifacts.keys,
    Dict.get snapshot.projectCommittee pk.project = some committeeKey → pk ∈ snapshot.artifactPks
  byDist : ∀ dist pk, Dict.get snapshot.artifactByDist dist = some pk →
    Dict.get (buildSnapshot db committeeKey).artifactByDist dist = some pk ∧ pk ∈ snapshot.artifactPks
  deletedReleases : ∀ key ∈ diff.releaseDeletions, ∃ release, Dict.get db.releases key = some release ∧
    ∀ dist pk, Dict.get snapshot.artifactByDist dist = some pk → pk.project ≠ release.projectKey
  deletedProjects : ∀ key ∈ diff.projectDeletions, ∀ dist pk, Dict.get snapshot.artifactByDist dist = some pk →
    pk.project ≠ key
  deletedArtifacts : ∀ pk ∈ diff.artifactDeletions, ∀ dist pk', Dict.get snapshot.artifactByDist dist = some pk' →
    pk'.project ≠ pk.project

private theorem applyDeletions_idle (db : Db) {diff : CatalogueDiff} (hprojects : diff.projectDeletions = [])
    (hreleases : diff.releaseDeletions = []) (hartifacts : diff.artifactDeletions = []) :
    (∀ key release, Dict.get (db.applyDeletions diff).releases key = some release ↔ Dict.get db.releases key = some release) ∧
      ∀ pk artifact, Dict.get (db.applyDeletions diff).artifacts pk = some artifact ↔
        Dict.get db.artifacts pk = some artifact := by
  constructor
  · intro key release
    simp [get_releases_applyDeletions, hprojects, hreleases]
  · intro pk artifact
    simp [get_artifacts_applyDeletions, hprojects, hreleases, hartifacts]

/-- Without deletions the snapshot says what the tables hold. -/
private theorem prepared_whole (db : Db) (hprojects : diff.projectDeletions = [])
    (hreleases : diff.releaseDeletions = []) (hartifacts : diff.artifactDeletions = [])
    (hclassified : Classified (buildSnapshot db committeeKey) committeeKey diff) :
    Prepared db committeeKey (buildSnapshot db committeeKey) diff := by
  obtain ⟨hgetReleases, hgetArtifacts⟩ := applyDeletions_idle db hprojects hreleases hartifacts
  refine ⟨hclassified, fun key hkey => ?_, fun key project hget => ?_, fun pk hpk hcommittee => ?_,
    fun dist pk hget => ⟨hget, (get_artifactByDist hget).1⟩, by simp [hreleases], by simp [hprojects],
    by simp [hartifacts]⟩
  · obtain ⟨release, hrelease⟩ := Option.isSome_iff_exists.1 (Dict.mem_keys.1 hkey)
    exact Dict.mem_keys_of_get ((hgetReleases key release).1 hrelease)
  · obtain ⟨release, hrelease, hproject, hcommittee⟩ := get_releaseProject.1 hget
    exact ⟨hcommittee, release, (hgetReleases key release).2 hrelease, hproject⟩
  · obtain ⟨artifact, hartifact⟩ := Option.isSome_iff_exists.1 (Dict.mem_keys.1 hpk)
    exact mem_artifactPks.2 ⟨Dict.mem_keys_of_get ((hgetArtifacts pk artifact).1 hartifact), hcommittee⟩

/-- The cleared snapshot says what the deletions leave. -/
private theorem prepared_clear (db : Db) (upload : Upload)
    (hprojects : diff.projectDeletions = (clearDiff upload (buildSnapshot db committeeKey) committeeKey).projectDeletions)
    (hreleases : diff.releaseDeletions = (clearDiff upload (buildSnapshot db committeeKey) committeeKey).releaseDeletions)
    (hartifacts : diff.artifactDeletions = (clearDiff upload (buildSnapshot db committeeKey) committeeKey).artifactDeletions)
    (hclassified : Classified (clear upload (buildSnapshot db committeeKey) committeeKey) committeeKey diff) :
    Prepared db committeeKey (clear upload (buildSnapshot db committeeKey) committeeKey) diff := by
  have hdist : ∀ dist pk,
      Dict.get (clear upload (buildSnapshot db committeeKey) committeeKey).artifactByDist dist = some pk →
        Dict.get (buildSnapshot db committeeKey).artifactByDist dist = some pk ∧
          ¬ (clearArtifacts upload ∧ pk.project ∈ (buildSnapshot db committeeKey).catalogued committeeKey) :=
    fun dist pk hget => filterMap_ite_eq_some.1 hget
  refine ⟨hclassified, fun key hkey => ?_, fun key project hget => ?_, fun pk hpk hcommittee => ?_,
    fun dist pk hget => ?_, fun key hkey => ?_, fun key hkey => ?_, fun pk hpk => ?_⟩
  · obtain ⟨release, hrelease⟩ := Option.isSome_iff_exists.1 (Dict.mem_keys.1 hkey)
    obtain ⟨hold, hkept, -⟩ := get_releases_applyDeletions.1 hrelease
    rw [hreleases, mem_releaseDeletions] at hkept
    exact List.mem_filter.2 ⟨Dict.mem_keys_of_get hold, decide_eq_true hkept⟩
  · obtain ⟨hold, hkept⟩ := filterMap_ite_eq_some.1 hget
    obtain ⟨release, hrelease, rfl, hcommittee⟩ := get_releaseProject.1 hold
    have hproject : ¬ (clearProjects upload ∧
        release.projectKey ∈ (buildSnapshot db committeeKey).catalogued committeeKey) := by
      rintro ⟨hclear, hcatalogued⟩
      exact hkept ⟨clearReleases_of_clearProjects hclear, mem_cataloguedReleases.2 ⟨_, hold, hcatalogued⟩⟩
    refine ⟨filterMap_ite_eq_some.2 ⟨hcommittee, hproject⟩, release,
      get_releases_applyDeletions.2 ⟨hrelease, ?_, ?_⟩, rfl⟩
    · rwa [hreleases, mem_releaseDeletions]
    · rwa [hprojects, mem_projectDeletions]
  · obtain ⟨artifact, hartifact⟩ := Option.isSome_iff_exists.1 (Dict.mem_keys.1 hpk)
    obtain ⟨hold, hkept, -⟩ := get_artifacts_applyDeletions.1 hartifact
    rw [hartifacts, mem_artifactDeletions] at hkept
    have hwhole := (filterMap_ite_eq_some.1 hcommittee).1
    exact List.mem_filter.2 ⟨mem_artifactPks.2 ⟨Dict.mem_keys_of_get hold, hwhole⟩, decide_eq_true hkept⟩
  · obtain ⟨hold, hkept⟩ := hdist dist pk hget
    refine ⟨hold, List.mem_filter.2 ⟨(get_artifactByDist hold).1, decide_eq_true ?_⟩⟩
    rintro ⟨hclear, hmem⟩
    exact hkept ⟨hclear, (mem_cataloguedArtifacts.1 hmem).2⟩
  · rw [hreleases, mem_releaseDeletions] at hkey
    obtain ⟨project, hproject, hcatalogued⟩ := mem_cataloguedReleases.1 hkey.2
    obtain ⟨release, hrelease, rfl, -⟩ := get_releaseProject.1 hproject
    refine ⟨release, hrelease, fun dist pk hget heq => ?_⟩
    exact (hdist dist pk hget).2 ⟨clearArtifacts_of_clearReleases hkey.1, heq ▸ hcatalogued⟩
  · rw [hprojects, mem_projectDeletions] at hkey
    intro dist pk hget heq
    exact (hdist dist pk hget).2
      ⟨clearArtifacts_of_clearReleases (clearReleases_of_clearProjects hkey.1), heq ▸ hkey.2⟩
  · rw [hartifacts, mem_artifactDeletions] at hpk
    have hcatalogued := (mem_cataloguedArtifacts.1 hpk.2).2
    intro dist pk' hget heq
    exact (hdist dist pk' hget).2 ⟨hpk.1, heq ▸ hcatalogued⟩

theorem CatalogueDiff.Idle.classified (h : diff.Idle) (snapshot : DbSnapshot) (committeeKey : Str) :
    Classified snapshot committeeKey diff := by
  have hprojects : diff.projectAdds = [] := congrArg Changes.projectAdds h
  have hreleases : diff.releaseAdds = [] := congrArg Changes.releaseAdds h
  have hartifacts : diff.artifactAdds = [] := congrArg Changes.artifactAdds h
  have hartifactRepoints : diff.artifactRepoints = [] := congrArg Changes.artifactRepoints h
  have hreleaseRepoints : diff.releaseRepoints = [] := congrArg Changes.releaseRepoints h
  refine ⟨?_, ?_, ?_⟩
  · rw [hprojects]
    exact ⟨by simp, by simp⟩
  · rw [hreleases, hreleaseRepoints]
    exact ⟨by simp, by simp, by simp, by simp, by simp, by simp, by simp⟩
  · rw [hartifacts, hartifactRepoints]
    exact ⟨by simp, by simp, by simp, by simp, by simp⟩

/-- The snapshot and the writer agree when the adds begin. -/
theorem prepared (parsers : Parsers) (upload : Upload) (committeeKey : Str) (mode : Mode) (db : Db) :
    ∃ snapshot, Prepared db committeeKey snapshot
      (classify parsers upload (buildSnapshot db committeeKey) committeeKey mode) := by
  rcases classify_cases parsers upload (buildSnapshot db committeeKey) committeeKey mode with hidle |
    ⟨hclassified, hprojects, hreleases, hartifacts⟩ | ⟨hclassified, hprojects, hreleases, hartifacts⟩
  · exact ⟨_, prepared_whole db (congrArg Changes.projectDeletions hidle) (congrArg Changes.releaseDeletions hidle)
      (congrArg Changes.artifactDeletions hidle) (hidle.classified _ _)⟩
  · exact ⟨_, prepared_whole db hprojects hreleases hartifacts hclassified⟩
  · exact ⟨_, prepared_clear db upload hprojects hreleases hartifacts hclassified⟩

end Catalogue

end TrustedReleases
