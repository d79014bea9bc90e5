import TrustedReleases.Catalogue.Prepared
import TrustedReleases.Lib.Rekey

/-!
# Repoints

What the repoints of the transaction leave in the tables of releases and of artifacts: they rekey rows.  A repoint of a
release is refused, collides with an artifact, or rekeys the release and its artifacts (`repointOneRelease_cases`).
-/

namespace TrustedReleases

open Lib

namespace Catalogue

/-! ### Rekeyed rows of the tables -/

/-- The update of an artifact that a difference repoints. -/
def ArtifactRepoint.rekey (x : ArtifactRepoint) : Rekey Pk Artifact :=
  .single x.fromPk ⟨x.toRow.projectKey.1, x.toRow.version.1, x.fromPk.path⟩
    fun artifact => { artifact with releaseKey := some x.toRow.releaseKey }

/-- The update of the artifacts of a release that a difference repoints. -/
def ReleaseRepoint.artifactRekey (r : ReleaseRepoint) : Rekey Pk Artifact where
  target pk :=
    if pk.project = r.fromProject ∧ pk.version = r.row.version.1 then some { pk with project := r.toProject } else none
  update _ artifact := { artifact with releaseKey := some r.newKey }

/-- The update of a release that a difference repoints. -/
def ReleaseRepoint.rekey (r : ReleaseRepoint) : Rekey Str Release :=
  .single r.key r.newKey fun release => { release with projectKey := r.toProject }

theorem Db.moveArtifact_ok {db : Db} {source target : Pk} {releaseKey : Str} {db' : Db}
    (h : db.moveArtifact source target releaseKey = .ok db') :
    db' = { db with artifacts := db'.artifacts } ∧
      Rekeyed [.single source target fun artifact => { artifact with releaseKey := some releaseKey }]
        db.artifacts db'.artifacts := by
  unfold Db.moveArtifact at h
  cases hget : Dict.get db.artifacts source with
  | none =>
    rw [hget] at h
    obtain rfl := Except.ok.inj h
    exact ⟨rfl, rekeyed_none _ hget⟩
  | some artifact =>
    rw [hget] at h
    obtain ⟨hfree, h⟩ := raiseIf_bind_eq_ok.1 h
    obtain rfl := Except.ok.inj h
    exact ⟨rfl, rekeyed_single _ hget hfree⟩

theorem Db.moveArtifact_free {db : Db} {target : Pk} (source : Pk) (releaseKey : Str)
    (h : target ∉ db.artifacts.keys) : ∃ db', db.moveArtifact source target releaseKey = .ok db' := by
  unfold Db.moveArtifact
  cases Dict.get db.artifacts source with
  | none => exact ⟨db, rfl⟩
  | some artifact => exact ⟨_, raiseIf_bind_eq_ok.2 ⟨fun htaken => h htaken.2, rfl⟩⟩

private theorem Db.moveArtifact_taken {db : Db} {source target : Pk} (releaseKey : Str)
    (hsource : source ∈ db.artifacts.keys)
    (hne : target ≠ source) (htarget : target ∈ db.artifacts.keys) :
    db.moveArtifact source target releaseKey = .error (.artifactExists target) := by
  unfold Db.moveArtifact
  obtain ⟨artifact, hget⟩ := Option.isSome_iff_exists.1 (Dict.mem_keys.1 hsource)
  rw [hget]
  simp only [raiseIf, if_pos (And.intro hne htarget), error_bind]

/-! ### The artifacts of a release -/

section Artifacts

variable {db : Db} {r : ReleaseRepoint}

private theorem mem_artifactsAt {project version : Str} {pk : Pk} :
    pk ∈ db.artifactsAt project version ↔ pk ∈ db.artifacts.keys ∧ pk.project = project ∧ pk.version = version := by
  rw [Db.artifactsAt, List.mem_filter, decide_eq_true_iff]

/-- The update of a single artifact of a release. -/
def ReleaseRepoint.moveOf (r : ReleaseRepoint) (pk : Pk) : Rekey Pk Artifact :=
  .single pk { pk with project := r.toProject } fun artifact => { artifact with releaseKey := some r.newKey }

private theorem moveOf_eq_none {pk k : Pk} : (r.moveOf pk).target k = none ↔ k ≠ pk := single_eq_none

private theorem moveOf_eq_some {pk k k' : Pk} :
    (r.moveOf pk).target k = some k' ↔ k = pk ∧ ({ pk with project := r.toProject } : Pk) = k' := single_eq_some

theorem artifactRekey_eq_none {k : Pk} :
    r.artifactRekey.target k = none ↔ ¬ (k.project = r.fromProject ∧ k.version = r.row.version.1) := by
  simp [ReleaseRepoint.artifactRekey]

theorem artifactRekey_eq_some {k k' : Pk} :
    r.artifactRekey.target k = some k' ↔
      (k.project = r.fromProject ∧ k.version = r.row.version.1) ∧ ({ k with project := r.toProject } : Pk) = k' := by
  simp [ReleaseRepoint.artifactRekey]

/-- The updates of the single artifacts of a release are the update of them all. -/
private theorem rekeyed_ofMoves {d' : Dict Pk Artifact}
    (h : Rekeyed ((db.artifactsAt r.fromProject r.row.version.1).map r.moveOf) db.artifacts d') :
    Rekeyed [r.artifactRekey] db.artifacts d' := by
  intro k v
  rw [rekeyed_map.1 h]
  simp only [List.mem_singleton, forall_eq, exists_eq_left, moveOf_eq_none, moveOf_eq_some, artifactRekey_eq_none,
    artifactRekey_eq_some, mem_artifactsAt]
  constructor
  · rintro (⟨hget, hstay⟩ | ⟨pk, ⟨-, hat⟩, k₀, v₀, ⟨rfl, rfl⟩, hget, rfl⟩)
    · exact .inl ⟨hget, fun hat => hstay k ⟨Dict.mem_keys_of_get hget, hat⟩ rfl⟩
    · exact .inr ⟨k₀, v₀, ⟨hat, rfl⟩, hget, rfl⟩
  · rintro (⟨hget, hstay⟩ | ⟨k₀, v₀, ⟨hat, rfl⟩, hget, rfl⟩)
    · refine .inl ⟨hget, ?_⟩
      rintro pk ⟨-, hat⟩ rfl
      exact hstay hat
    · exact .inr ⟨k₀, ⟨Dict.mem_keys_of_get hget, hat⟩, k₀, v₀, ⟨rfl, rfl⟩, hget, rfl⟩

/-- The artifacts of a release are rekeyed, unless one of them has the path of an artifact at its target. -/
private theorem repointArtifacts_cases (db : Db) (hne : r.fromProject ≠ r.toProject) :
    ((∃ path, (⟨r.fromProject, r.row.version.1, path⟩ : Pk) ∈ db.artifacts.keys ∧
        (⟨r.toProject, r.row.version.1, path⟩ : Pk) ∈ db.artifacts.keys) ∧
      ∃ pk, db.repointArtifacts r = .error (.artifactExists pk)) ∨
    ((¬ ∃ path, (⟨r.fromProject, r.row.version.1, path⟩ : Pk) ∈ db.artifacts.keys ∧
        (⟨r.toProject, r.row.version.1, path⟩ : Pk) ∈ db.artifacts.keys) ∧
      ∃ db', db.repointArtifacts r = .ok db' ∧ db' = { db with artifacts := db'.artifacts } ∧
        Rekeyed [r.artifactRekey] db.artifacts db'.artifacts) := by
  have hnodup : (db.artifactsAt r.fromProject r.row.version.1).Nodup := db.artifacts.keys_nodup.filter _
  -- what passes over some of the artifacts leave
  have hkeys : ∀ (done : List Pk) (d' : Dict Pk Artifact), (∀ pk ∈ done, pk.project = r.fromProject) →
      Rekeyed (done.map r.moveOf) db.artifacts d' → ∀ pk, pk.project = r.fromProject → pk ∉ done →
      (pk ∈ d'.keys ↔ pk ∈ db.artifacts.keys) ∧
        (({ pk with project := r.toProject } : Pk) ∈ d'.keys ↔ ({ pk with project := r.toProject } : Pk) ∈ db.artifacts.keys) := by
    intro done d' hdone hrekeyed pk hproject hpk
    constructor
    · rw [hrekeyed.mem_keys_map]
      simp only [moveOf_eq_none, moveOf_eq_some]
      constructor
      · rintro (⟨hmem, -⟩ | ⟨pk', -, k₀, -, -, heq⟩)
        · exact hmem
        · exact absurd ((congrArg Pk.project heq).trans hproject).symm hne
      · intro hmem
        refine .inl ⟨hmem, ?_⟩
        rintro pk' hpk' rfl
        exact hpk hpk'
    · rw [hrekeyed.mem_keys_map]
      simp only [moveOf_eq_none, moveOf_eq_some]
      constructor
      · rintro (⟨hmem, -⟩ | ⟨pk', hpk', k₀, -, -, heq⟩)
        · exact hmem
        · obtain ⟨-, hversion, hpath⟩ := Pk.mk.inj heq
          have hsame : pk' = pk := by
            obtain ⟨project, version, path⟩ := pk
            obtain ⟨project', version', path'⟩ := pk'
            rw [Pk.mk.injEq]
            exact ⟨(hdone _ hpk').trans hproject.symm, hversion, hpath⟩
          exact absurd (hsame ▸ hpk') hpk
      · intro hmem
        refine .inl ⟨hmem, fun pk' hpk' heq => ?_⟩
        have htarget := hdone pk' hpk'
        rw [← heq] at htarget
        exact hne htarget.symm
  have hat : ∀ pk ∈ db.artifactsAt r.fromProject r.row.version.1,
      pk.project = r.fromProject ∧ pk = ⟨r.fromProject, r.row.version.1, pk.path⟩ ∧
        ({ pk with project := r.toProject } : Pk) = ⟨r.toProject, r.row.version.1, pk.path⟩ := by
    intro pk hpk
    obtain ⟨-, hproject, hversion⟩ := mem_artifactsAt.1 hpk
    cases pk
    simp only at hproject hversion
    subst hproject hversion
    exact ⟨rfl, rfl, rfl⟩
  have hrun := foldlM_ok_or_error (f := fun (s : Db) pk => s.moveArtifact pk { pk with project := r.toProject } r.newKey)
    (l := db.artifactsAt r.fromProject r.row.version.1) (s := db)
    (fun done s => s = { db with artifacts := s.artifacts } ∧ Rekeyed (done.map r.moveOf) db.artifacts s.artifacts)
    (fun pk e => ({ pk with project := r.toProject } : Pk) ∈ db.artifacts.keys ∧
      e = .artifactExists { pk with project := r.toProject })
    ⟨rfl, Rekeyed.refl _⟩ ?_ ?_
  · rcases hrun with ⟨hgood, s', hok, hrest, hrekeyed⟩ | ⟨pk, hpk, e, ⟨hbad, rfl⟩, herror⟩
    · refine .inr ⟨?_, s', hok, hrest, rekeyed_ofMoves hrekeyed⟩
      rintro ⟨path, hsource, htarget⟩
      exact hgood ⟨r.fromProject, r.row.version.1, path⟩ (mem_artifactsAt.2 ⟨hsource, rfl, rfl⟩) _ ⟨htarget, rfl⟩
    · obtain ⟨-, hsource, htarget⟩ := hat pk hpk
      refine .inl ⟨⟨pk.path, ?_, ?_⟩, _, herror⟩
      · rw [← hsource]
        exact (mem_artifactsAt.1 hpk).1
      · rwa [← htarget]
  · intro done pk rest s hxs hinv hgood
    have hpk : pk ∈ db.artifactsAt r.fromProject r.row.version.1 := by simp [hxs]
    have hdone : ∀ pk' ∈ done, pk'.project = r.fromProject := fun pk' hpk' => (hat pk' (by simp [hxs, hpk'])).1
    have hunseen : pk ∉ done := by
      rw [hxs, List.nodup_middle, List.nodup_cons] at hnodup
      exact fun hmem => hnodup.1 (List.mem_append_left _ hmem)
    have hproject := (hat pk hpk).1
    have hfree : ({ pk with project := r.toProject } : Pk) ∉ s.artifacts.keys := by
      rw [(hkeys done s.artifacts hdone hinv.2 pk hproject hunseen).2]
      exact fun hmem => hgood _ ⟨hmem, rfl⟩
    obtain ⟨s', hok⟩ := Db.moveArtifact_free pk r.newKey hfree
    obtain ⟨hrest, hrekeyed⟩ := Db.moveArtifact_ok hok
    refine ⟨s', hok, by rw [hrest, hinv.1], ?_⟩
    rw [List.map_append, List.map_singleton]
    refine hinv.2.append hrekeyed fun m hm m' hm' => ?_
    obtain ⟨pk', hpk', rfl⟩ := List.mem_map.1 hm
    rw [List.mem_singleton.1 hm']
    intro k k' htarget
    obtain ⟨rfl, rfl⟩ := moveOf_eq_some.1 htarget
    refine ⟨moveOf_eq_none.2 ?_, moveOf_eq_none.2 fun heq => hne ?_⟩
    · rintro rfl
      exact hunseen hpk'
    · rw [← hproject, ← heq]
  · intro done pk rest s e hxs hinv hbad
    have hpk : pk ∈ db.artifactsAt r.fromProject r.row.version.1 := by simp [hxs]
    have hdone : ∀ pk' ∈ done, pk'.project = r.fromProject := fun pk' hpk' => (hat pk' (by simp [hxs, hpk'])).1
    have hunseen : pk ∉ done := by
      rw [hxs, List.nodup_middle, List.nodup_cons] at hnodup
      exact fun hmem => hnodup.1 (List.mem_append_left _ hmem)
    have hproject := (hat pk hpk).1
    obtain ⟨hsource, htarget⟩ := hkeys done s.artifacts hdone hinv.2 pk hproject hunseen
    rw [hbad.2]
    refine Db.moveArtifact_taken r.newKey (hsource.2 (mem_artifactsAt.1 hpk).1) (fun heq => hne ?_) (htarget.2 hbad.1)
    rw [← hproject, ← heq]

end Artifacts

/-! ### A repointed release -/

private theorem repointChildren_tasks {db : Db} {r : ReleaseRepoint} (h : (r.fromProject, r.row.version.1) ∉ db.tasks) :
    (db.repointChildren r).tasks = db.tasks := by
  refine (List.map_congr_left fun task htask => if_neg ?_).trans (List.map_id _)
  rintro rfl
  exact h htask

private theorem repointReleaseRow_free (db : Db) {r : ReleaseRepoint} (h : r.newKey ∉ db.releases.keys) :
    ∃ db', db.repointReleaseRow r = .ok db' ∧ db' = { db with releases := db'.releases } ∧
      Rekeyed [r.rekey] db.releases db'.releases := by
  unfold Db.repointReleaseRow
  cases hget : Dict.get db.releases r.key with
  | none => exact ⟨db, rfl, rfl, rekeyed_none _ hget⟩
  | some release =>
    have hfree : ¬ (r.newKey ≠ r.key ∧ r.newKey ∈ db.releases.keys) := fun htaken => h htaken.2
    exact ⟨_, raiseIf_bind_eq_ok.2 ⟨hfree, rfl⟩, rfl, rekeyed_single _ hget hfree⟩

/-- Two artifacts with one path, at the old and at the new place of a repointed release. -/
def Collides (db : Db) (r : ReleaseRepoint) : Prop :=
  ∃ path, (⟨r.fromProject, r.row.version.1, path⟩ : Pk) ∈ db.artifacts.keys ∧
    (⟨r.toProject, r.row.version.1, path⟩ : Pk) ∈ db.artifacts.keys

/-- A repoint to a new key is refused, collides with an artifact, or rekeys the release and its artifacts. -/
theorem repointOneRelease_cases {db : Db} {r : ReleaseRepoint} (hne : r.fromProject ≠ r.toProject)
    (hfree : r.newKey ∉ db.releases.keys) :
    ((r.fromProject, r.row.version.1) ∈ db.tasks ∧ db.repointOneRelease r = .error (.pendingTasks r.key)) ∨
    ((r.fromProject, r.row.version.1) ∉ db.tasks ∧ Collides db r ∧
      ∃ pk, db.repointOneRelease r = .error (.artifactExists pk)) ∨
    ((r.fromProject, r.row.version.1) ∉ db.tasks ∧ ¬ Collides db r ∧
      ∃ db', db.repointOneRelease r = .ok db' ∧ db'.tasks = db.tasks ∧
        Rekeyed [r.artifactRekey] db.artifacts db'.artifacts ∧ Rekeyed [r.rekey] db.releases db'.releases) := by
  unfold Db.repointOneRelease
  by_cases hpending : (r.fromProject, r.row.version.1) ∈ db.tasks
  · refine .inl ⟨hpending, ?_⟩
    simp only [raiseIf, if_pos hpending, error_bind]
  · simp only [raiseIf, if_neg hpending, ok_bind]
    rcases repointArtifacts_cases db hne with ⟨hcollides, pk, herror⟩ | ⟨hcollides, db₁, hok, hrest, hartifacts⟩
    · exact .inr (.inl ⟨hpending, hcollides, pk, by rw [herror, error_bind]⟩)
    · have htasks : (r.fromProject, r.row.version.1) ∉ db₁.tasks := by
        rw [hrest]
        exact hpending
      have hreleases : (db₁.repointChildren r).releases = db.releases := by
        show db₁.releases = db.releases
        rw [hrest]
      obtain ⟨db₂, hrow, hrest₂, hrekeyed⟩ := repointReleaseRow_free (db₁.repointChildren r) (r := r)
        (by rw [hreleases]; exact hfree)
      refine .inr (.inr ⟨hpending, hcollides, db₂, by rw [hok, ok_bind, hrow], ?_, ?_, ?_⟩)
      · rw [hrest₂]
        show (db₁.repointChildren r).tasks = db.tasks
        rw [repointChildren_tasks htasks, hrest]
      · rw [hrest₂]
        exact hartifacts
      · rwa [hreleases] at hrekeyed

end Catalogue

end TrustedReleases
