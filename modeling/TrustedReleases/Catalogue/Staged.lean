import TrustedReleases.Catalogue.Repoints

/-!
# The steps before the repoints of releases

The adds and the repoints of artifacts succeed, unless an added project exists (`Prepared.staged`), and give no artifact
the primary key of another: the rows were classified against a snapshot that says what the deletions left.
-/

namespace TrustedReleases

open Lib

namespace Catalogue

/-! ### The steps before -/

/-- The tables when the releases are repointed: the adds are inserted, and the artifacts are repointed. -/
structure Staged (db : Db) (diff : CatalogueDiff) (staged : Db) : Prop where
  tasks : staged.tasks = (db.applyDeletions diff).tasks
  releases : Inserted (diff.releaseAdds.map fun row => (row.key.1, row.toSql)) (db.applyDeletions diff).releases staged.releases
  artifacts : ∃ table, Inserted (diff.artifactAdds.map fun row => (row.pk, row.toSql)) (db.applyDeletions diff).artifacts table ∧
    Rekeyed (diff.artifactRepoints.map ArtifactRepoint.rekey) table staged.artifacts

/-- The steps after those that `Staged` describes. -/
def finish (diff : CatalogueDiff) (staged : Db) : Except WriteError Db := do
  let db ← diff.releaseRepoints.foldlM Db.repointOneRelease staged
  raiseIf (¬ db.References) .danglingReferences
  return db

section Prepared

variable {db : Db} {diff : CatalogueDiff} {committeeKey : Str} {snapshot : DbSnapshot}

/-- The artifact rows that a difference adds or repoints an artifact to. -/
def CatalogueDiff.acceptedRows (diff : CatalogueDiff) : List ArtifactRow :=
  diff.artifactAdds ++ diff.artifactRepoints.map fun x => x.toRow

/-- No artifact that the deletions leave has the primary key of an accepted row. -/
theorem Prepared.fresh (h : Prepared db committeeKey snapshot diff) (hdb : db.References)
    (hnew : ∀ row ∈ diff.projectAdds, row.key.1 ∉ (db.applyDeletions diff).projects.keys) {row : ArtifactRow}
    (hrow : row ∈ diff.acceptedRows) : row.pk ∉ (db.applyDeletions diff).artifacts.keys := by
  intro hmem
  obtain ⟨haccepts, hfree, -⟩ := h.classified.artifacts.accepted row hrow
  rcases List.mem_append.1 haccepts.known with hknown | hknown
  · have hcommittee := of_decide_eq_true (List.mem_filter.1 hknown).2
    exact hfree (h.artifactPks row.pk hmem hcommittee)
  · obtain ⟨project, hproject, heq⟩ := List.mem_map.1 hknown
    have hkey := artifactProjects_applyDeletions hdb hmem
    exact hnew project hproject (heq ▸ hkey)

/-- A repointed artifact keeps its path. -/
theorem Prepared.path (h : Prepared db committeeKey snapshot diff) {x : ArtifactRepoint} (hx : x ∈ diff.artifactRepoints) :
    x.fromPk.path = x.toRow.artifactPath.1 := by
  obtain ⟨hget, hpath⟩ := h.classified.artifacts.held x hx
  rw [← hpath]
  exact (get_artifactByDist (h.byDist _ _ hget).1).2.1

theorem rekey_eq_none {x : ArtifactRepoint} {k : Pk} : x.rekey.target k = none ↔ k ≠ x.fromPk := single_eq_none

theorem Prepared.rekey_eq_some (h : Prepared db committeeKey snapshot diff) {x : ArtifactRepoint}
    (hx : x ∈ diff.artifactRepoints) {k k' : Pk} : x.rekey.target k = some k' ↔ k = x.fromPk ∧ x.toRow.pk = k' := by
  have hpk : (⟨x.toRow.projectKey.1, x.toRow.version.1, x.fromPk.path⟩ : Pk) = x.toRow.pk := by
    rw [h.path hx]
    rfl
  rw [ArtifactRepoint.rekey, single_eq_some, hpk]

/-- An artifact that is repointed is in the snapshot, where no accepted row has its primary key. -/
theorem Prepared.source (h : Prepared db committeeKey snapshot diff) {x : ArtifactRepoint} (hx : x ∈ diff.artifactRepoints)
    {row : ArtifactRow} (hrow : row ∈ diff.acceptedRows) : row.pk ≠ x.fromPk := by
  intro heq
  refine (h.classified.artifacts.accepted row hrow).2.1 ?_
  rw [heq]
  exact (h.byDist _ _ (h.classified.artifacts.held x hx).1).2

/-- The artifacts that are repointed differ, as they are found by different directories and file names. -/
private theorem Prepared.dist_eq (h : Prepared db committeeKey snapshot diff) {x y : ArtifactRepoint}
    (hx : x ∈ diff.artifactRepoints) (hy : y ∈ diff.artifactRepoints) (heq : x.fromPk = y.fromPk) : x.dist = y.dist := by
  have hfound : ∀ z ∈ diff.artifactRepoints, z.fromPk.path = z.dist.2 ∧ ∃ artifact,
      Dict.get db.artifacts z.fromPk = some artifact ∧ artifact.downloadPathSuffix = some z.dist.1 := fun z hz =>
    (get_artifactByDist (h.byDist _ _ (h.classified.artifacts.held z hz).1).1).2
  obtain ⟨hpath, artifact, hartifact, hsuffix⟩ := hfound x hx
  obtain ⟨hpath', artifact', hartifact', hsuffix'⟩ := hfound y hy
  rw [heq, hartifact'] at hartifact
  obtain rfl := Option.some.inj hartifact
  rw [hsuffix'] at hsuffix
  exact Prod.ext (Option.some.inj hsuffix).symm (by rw [← hpath, ← hpath', heq])

/-! ### The adds -/

/-- Projects with different keys are added, unless one of them exists. -/
private theorem addProjects_cases {rows : List ProjectRow} (s : Db) (hnodup : (rows.map fun row => row.key.1).Nodup) :
    ((∀ row ∈ rows, row.key.1 ∉ s.projects.keys) ∧
      ∃ s', rows.foldlM Db.addProject s = .ok s' ∧ s' = { s with projects := s'.projects }) ∨
    ∃ row ∈ rows, row.key.1 ∈ s.projects.keys ∧ rows.foldlM Db.addProject s = .error (.projectExists row.key.1) := by
  have hkeys : ∀ (d : Dict Str (Option Str)) (k : Str) (v : Option Str) (q : Str),
      q ∈ (Dict.set d k v).keys ↔ q = k ∨ q ∈ d.keys := by
    intro d k v q
    rw [Dict.mem_keys, Dict.get_set, Dict.mem_keys]
    split_ifs with hq <;> simp [hq]
  have hrun := foldlM_ok_or_error (f := Db.addProject) (l := rows) (s := s)
    (fun done s' => s' = { s with projects := s'.projects } ∧
      ∀ key, key ∈ s'.projects.keys ↔ key ∈ (done.map fun row => row.key.1) ∨ key ∈ s.projects.keys)
    (fun row e => row.key.1 ∈ s.projects.keys ∧ e = .projectExists row.key.1)
    ⟨rfl, by simp⟩ ?_ ?_
  · rcases hrun with ⟨hgood, s', hok, hrest, -⟩ | ⟨row, hrow, e, ⟨hexists, rfl⟩, herror⟩
    · exact .inl ⟨fun row hrow hmem => hgood row hrow _ ⟨hmem, rfl⟩, s', hok, hrest⟩
    · exact .inr ⟨row, hrow, hexists, herror⟩
  · rintro done row rest s₁ hrows ⟨hrest, hprojects⟩ hgood
    have hnew : row.key.1 ∉ s₁.projects.keys := by
      rw [hprojects, not_or]
      exact ⟨notMem_map_of_nodup hnodup hrows, fun hmem => hgood _ ⟨hmem, rfl⟩⟩
    refine ⟨_, raiseIf_bind_eq_ok.2 ⟨hnew, rfl⟩, by rw [hrest], fun key => ?_⟩
    rw [hkeys, hprojects, List.map_append, List.mem_append, List.map_singleton, List.mem_singleton, or_assoc,
      or_left_comm]
  · rintro done row rest s₁ e hrows ⟨hrest, hprojects⟩ ⟨hexists, rfl⟩
    have hmem : row.key.1 ∈ s₁.projects.keys := (hprojects _).2 (.inr hexists)
    simp only [Db.addProject, raiseIf, if_pos hmem, error_bind]

/-- The releases are added. -/
private theorem Prepared.addReleases (h : Prepared db committeeKey snapshot diff) {s : Db}
    (hs : s.releases = (db.applyDeletions diff).releases) :
    ∃ s', diff.releaseAdds.foldlM Db.addRelease s = .ok s' ∧ s' = { s with releases := s'.releases } ∧
      Inserted (diff.releaseAdds.map fun row => (row.key.1, row.toSql)) s.releases s'.releases := by
  refine inserted_foldlM Db.releases (fun s' => s' = { s with releases := s'.releases }) rfl
    (fun s₁ row hframe hnew => ⟨_, raiseIf_bind_eq_ok.2 ⟨hnew, rfl⟩, by rw [hframe], rfl⟩)
    (List.nodup_append.1 h.classified.releases.newKeys).1 fun row hrow hmem => ?_
  rw [hs] at hmem
  exact (h.classified.releases.add row hrow).2.2 (h.releaseKeys _ hmem)

/-- The artifacts are added. -/
private theorem Prepared.addArtifacts (h : Prepared db committeeKey snapshot diff) (hdb : db.References)
    (hnew : ∀ row ∈ diff.projectAdds, row.key.1 ∉ (db.applyDeletions diff).projects.keys) {s : Db}
    (hs : s.artifacts = (db.applyDeletions diff).artifacts) :
    ∃ s', diff.artifactAdds.foldlM Db.addArtifact s = .ok s' ∧ s' = { s with artifacts := s'.artifacts } ∧
      Inserted (diff.artifactAdds.map fun row => (row.pk, row.toSql)) s.artifacts s'.artifacts := by
  have hpks := h.classified.artifacts.pks
  rw [List.map_append, List.nodup_append] at hpks
  refine inserted_foldlM Db.artifacts (fun s' => s' = { s with artifacts := s'.artifacts }) rfl
    (fun s₁ row hframe hnew => ⟨_, raiseIf_bind_eq_ok.2 ⟨hnew, rfl⟩, by rw [hframe], rfl⟩)
    hpks.1 fun row hrow hmem => ?_
  rw [hs] at hmem
  exact h.fresh hdb hnew (List.mem_append_left _ hrow) hmem

/-! ### The repoints of artifacts -/

/-- The artifacts are repointed one after the other. -/
theorem Prepared.repointArtifacts (h : Prepared db committeeKey snapshot diff) (hdb : db.References)
    (hnew : ∀ row ∈ diff.projectAdds, row.key.1 ∉ (db.applyDeletions diff).projects.keys) {s : Db}
    (hs : Inserted (diff.artifactAdds.map fun row => (row.pk, row.toSql)) (db.applyDeletions diff).artifacts s.artifacts) :
    ∃ s', diff.artifactRepoints.foldlM Db.repointOneArtifact s = .ok s' ∧ s' = { s with artifacts := s'.artifacts } ∧
      Rekeyed (diff.artifactRepoints.map ArtifactRepoint.rekey) s.artifacts s'.artifacts := by
  refine foldlM_ok (fun done (s' : Db) => s' = { s with artifacts := s'.artifacts } ∧
    Rekeyed (done.map ArtifactRepoint.rekey) s.artifacts s'.artifacts) ⟨rfl, Rekeyed.refl _⟩ ?_
  intro done x rest s₁ hxs hinv
  have hx : x ∈ diff.artifactRepoints := by simp [hxs]
  have hdone : ∀ y ∈ done, y ∈ diff.artifactRepoints := fun y hy => by simp [hxs, hy]
  have hrow : x.toRow ∈ diff.acceptedRows := List.mem_append_right _ (List.mem_map_of_mem hx)
  -- the rows of the adds and of the repoints before have other primary keys
  have hsplit : diff.artifactAdds ++ diff.artifactRepoints.map (fun y => y.toRow) =
      (diff.artifactAdds ++ done.map fun y => y.toRow) ++ x.toRow :: rest.map fun y => y.toRow := by
    rw [hxs, List.map_append, List.map_cons, List.append_assoc]
  have hother : ∀ row ∈ diff.artifactAdds ++ done.map fun y => y.toRow, row.pk ≠ x.toRow.pk := fun row hmem heq =>
    notMem_map_of_nodup h.classified.artifacts.pks hsplit (heq ▸ List.mem_map_of_mem hmem)
  have hfree : x.toRow.pk ∉ s₁.artifacts.keys := by
    rw [hinv.2.mem_keys_map, not_or]
    constructor
    · rintro ⟨hmem, -⟩
      rcases hs.mem_keys.1 hmem with hold | hadd
      · exact h.fresh hdb hnew hrow hold
      · rw [List.map_map] at hadd
        obtain ⟨row, hadd, heq⟩ := List.mem_map.1 hadd
        exact hother row (List.mem_append_left _ hadd) heq
    · rintro ⟨y, hy, k₀, -, htarget⟩
      exact hother y.toRow (List.mem_append_right _ (List.mem_map_of_mem hy)) ((h.rekey_eq_some (hdone y hy)).1 htarget).2
  have htarget : (⟨x.toRow.projectKey.1, x.toRow.version.1, x.fromPk.path⟩ : Pk) = x.toRow.pk := by
    rw [h.path hx]
    rfl
  obtain ⟨s₂, hok⟩ := Db.moveArtifact_free x.fromPk x.toRow.releaseKey hfree
  rw [← htarget] at hok
  obtain ⟨hrest, hrekeyed⟩ := Db.moveArtifact_ok hok
  refine ⟨s₂, hok, by rw [hrest, hinv.1], ?_⟩
  rw [List.map_append, List.map_singleton]
  refine hinv.2.append hrekeyed fun m hm m' hm' => ?_
  obtain ⟨y, hy, rfl⟩ := List.mem_map.1 hm
  rw [List.mem_singleton.1 hm']
  intro k k' hmoved
  obtain ⟨rfl, rfl⟩ := (h.rekey_eq_some (hdone y hy)).1 hmoved
  refine ⟨rekey_eq_none.2 fun heq => ?_, rekey_eq_none.2 ?_⟩
  · have hdist := h.dist_eq (hdone y hy) hx heq
    exact notMem_map_of_nodup h.classified.artifacts.dists hxs (hdist ▸ List.mem_map_of_mem hy)
  · exact h.source hx (List.mem_append_right _ (List.mem_map_of_mem (hdone y hy)))

/-- The steps before the repoints of releases succeed, unless an added project exists. -/
theorem Prepared.staged (h : Prepared db committeeKey snapshot diff) (hdb : db.References) :
    (∃ row ∈ diff.projectAdds, row.key.1 ∈ (db.applyDeletions diff).projects.keys ∧
      db.applyDiff diff = .error (.projectExists row.key.1)) ∨
    ((∀ row ∈ diff.projectAdds, row.key.1 ∉ (db.applyDeletions diff).projects.keys) ∧
      ∃ staged, Staged db diff staged ∧ db.applyDiff diff = finish diff staged) := by
  rcases addProjects_cases (db.applyDeletions diff) h.classified.projects.nodup with
    ⟨hnew, s₁, hok₁, hrest₁⟩ | ⟨row, hrow, hexists, herror⟩
  · obtain ⟨s₂, hok₂, hrest₂, hreleases⟩ := h.addReleases (s := s₁) (by rw [hrest₁])
    obtain ⟨s₃, hok₃, hrest₃, hadds⟩ := h.addArtifacts hdb hnew (s := s₂) (by rw [hrest₂, hrest₁])
    rw [show s₂.artifacts = (db.applyDeletions diff).artifacts by rw [hrest₂, hrest₁]] at hadds
    obtain ⟨s₄, hok₄, hrest₄, hrepoints⟩ := h.repointArtifacts hdb hnew hadds
    refine .inr ⟨hnew, s₄, ⟨?_, ?_, s₃.artifacts, hadds, hrepoints⟩, ?_⟩
    · rw [hrest₄, hrest₃, hrest₂, hrest₁]
    · rw [hrest₄, hrest₃]
      rwa [hrest₁] at hreleases
    · simp only [Db.applyDiff, hok₁, hok₂, hok₃, hok₄, ok_bind, finish]
  · refine .inl ⟨row, hrow, hexists, ?_⟩
    rw [Db.applyDiff, herror, error_bind]

end Prepared

end Catalogue

end TrustedReleases
