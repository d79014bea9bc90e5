import TrustedReleases.Catalogue.Staged

/-!
# The repoints of releases

The repoints of releases, one after the other: none reads what another has written, so that each does what it would have
done at the start (`Repointed.step`), and they leave what their updates leave together (`Prepared.applyDiff_ok`).
-/

namespace TrustedReleases

open Lib

namespace Catalogue

variable {db : Db} {diff : CatalogueDiff} {committeeKey : Str} {snapshot : DbSnapshot}

/-! ### The places of repointed releases -/

theorem Prepared.key_mem (h : Prepared db committeeKey snapshot diff) {r : ReleaseRepoint}
    (hr : r ∈ diff.releaseRepoints) : r.key ∈ snapshot.releaseKeys := by
  obtain ⟨-, release, hrelease, -⟩ := h.releaseProject _ _ (h.classified.releases.held r hr).1
  exact h.releaseKeys _ (Dict.mem_keys_of_get hrelease)

/-- No release is repointed to where another one is repointed from. -/
private theorem Prepared.newPlace_ne (h : Prepared db committeeKey snapshot diff) {r r' : ReleaseRepoint}
    (hr : r ∈ diff.releaseRepoints) (hr' : r' ∈ diff.releaseRepoints) :
    ¬ (r.toProject = r'.fromProject ∧ r.row.version.1 = r'.row.version.1) := by
  rintro ⟨hproject, hversion⟩
  have heq : r.newKey = r'.key := by
    rw [ReleaseRepoint.newKey, hproject, hversion, ← (h.classified.releases.held r' hr').2]
  exact (h.classified.releases.target r hr).2.2 (heq ▸ h.key_mem hr')

section Split

variable {done rest : List ReleaseRepoint} {r r' : ReleaseRepoint}

/-- The releases are repointed from different places. -/
theorem Prepared.oldPlace_ne (h : Prepared db committeeKey snapshot diff) (hsplit : diff.releaseRepoints = done ++ r :: rest)
    (hr' : r' ∈ done) : ¬ (r'.fromProject = r.fromProject ∧ r'.row.version.1 = r.row.version.1) := by
  rintro ⟨hproject, hversion⟩
  have hkey : r'.key = r.key := by
    rw [(h.classified.releases.held r' (by simp [hsplit, hr'])).2, (h.classified.releases.held r (by simp [hsplit])).2,
      hproject, hversion]
  exact notMem_map_of_nodup h.classified.releases.keys hsplit (hkey ▸ List.mem_map_of_mem (f := ReleaseRepoint.key) hr')

/-- The releases are repointed to different keys. -/
private theorem Prepared.newKey_ne (h : Prepared db committeeKey snapshot diff)
    (hsplit : diff.releaseRepoints = done ++ r :: rest)
    (hr' : r' ∈ done) : r'.newKey ≠ r.newKey := by
  intro heq
  have hnodup := (List.nodup_append.1 h.classified.releases.newKeys).2.1
  exact notMem_map_of_nodup hnodup hsplit (heq ▸ List.mem_map_of_mem hr')

private theorem Prepared.artifactRekey_apart (h : Prepared db committeeKey snapshot diff)
    (hsplit : diff.releaseRepoints = done ++ r :: rest) (hr' : r' ∈ done) : r'.artifactRekey.Apart r.artifactRekey := by
  intro k k' htarget
  obtain ⟨⟨hproject, hversion⟩, rfl⟩ := artifactRekey_eq_some.1 htarget
  refine ⟨artifactRekey_eq_none.2 ?_, artifactRekey_eq_none.2 ?_⟩
  · rintro ⟨hproject', hversion'⟩
    exact h.oldPlace_ne hsplit hr' ⟨hproject.symm.trans hproject', hversion.symm.trans hversion'⟩
  · rintro ⟨hproject', hversion'⟩
    have hmem' : r' ∈ diff.releaseRepoints := by simp [hsplit, hr']
    have hmem : r ∈ diff.releaseRepoints := by simp [hsplit]
    exact h.newPlace_ne hmem' hmem ⟨hproject', hversion.symm.trans hversion'⟩

private theorem Prepared.rekey_apart (h : Prepared db committeeKey snapshot diff)
    (hsplit : diff.releaseRepoints = done ++ r :: rest) (hr' : r' ∈ done) : r'.rekey.Apart r.rekey := by
  intro k k' htarget
  obtain ⟨rfl, rfl⟩ := single_eq_some.1 htarget
  refine ⟨single_eq_none.2 fun heq => ?_, single_eq_none.2 fun heq => ?_⟩
  · exact notMem_map_of_nodup h.classified.releases.keys hsplit (heq ▸ List.mem_map_of_mem (f := ReleaseRepoint.key) hr')
  · exact (h.classified.releases.target r' (by simp [hsplit, hr'])).2.2
      (heq ▸ h.key_mem (by simp [hsplit] : r ∈ diff.releaseRepoints))

end Split

/-! ### The repoints of releases -/

/-- The tables after the repoints of some releases, of which none had a pending task. -/
structure Repointed (staged : Db) (done : List ReleaseRepoint) (db : Db) : Prop where
  tasks : db.tasks = staged.tasks
  releases : Rekeyed (done.map ReleaseRepoint.rekey) staged.releases db.releases
  artifacts : Rekeyed (done.map ReleaseRepoint.artifactRekey) staged.artifacts db.artifacts
  unpending : ∀ r ∈ done, (r.fromProject, r.row.version.1) ∉ staged.tasks

theorem Repointed.refl (staged : Db) : Repointed staged [] staged := ⟨rfl, Rekeyed.refl _, Rekeyed.refl _, by simp⟩

section Repointed

variable {done rest : List ReleaseRepoint} {r : ReleaseRepoint} {staged s : Db}

/-- The repoints before leave the old and the new place of a release as they were. -/
private theorem Repointed.collides_iff (hs : Repointed staged done s) (h : Prepared db committeeKey snapshot diff)
    (hsplit : diff.releaseRepoints = done ++ r :: rest) : Collides s r ↔ Collides staged r := by
  have hr : r ∈ diff.releaseRepoints := by simp [hsplit]
  have hdone : ∀ r' ∈ done, r' ∈ diff.releaseRepoints := fun r' hr' => by simp [hsplit, hr']
  have hold : ∀ path, (⟨r.fromProject, r.row.version.1, path⟩ : Pk) ∈ s.artifacts.keys ↔
      (⟨r.fromProject, r.row.version.1, path⟩ : Pk) ∈ staged.artifacts.keys := by
    intro path
    rw [hs.artifacts.mem_keys_map]
    constructor
    · rintro (⟨hmem, -⟩ | ⟨r', hr', k₀, -, htarget⟩)
      · exact hmem
      · obtain ⟨⟨-, hversion⟩, heq⟩ := artifactRekey_eq_some.1 htarget
        obtain ⟨hproject, hversion', -⟩ := Pk.mk.inj heq
        exact absurd ⟨hproject, hversion.symm.trans hversion'⟩ (h.newPlace_ne (hdone r' hr') hr)
    · intro hmem
      exact .inl ⟨hmem, fun r' hr' => artifactRekey_eq_none.2 fun hat =>
        h.oldPlace_ne hsplit hr' ⟨hat.1.symm, hat.2.symm⟩⟩
  have hnew : ∀ path, (⟨r.toProject, r.row.version.1, path⟩ : Pk) ∈ s.artifacts.keys ↔
      (⟨r.toProject, r.row.version.1, path⟩ : Pk) ∈ staged.artifacts.keys := by
    intro path
    rw [hs.artifacts.mem_keys_map]
    constructor
    · rintro (⟨hmem, -⟩ | ⟨r', hr', k₀, -, htarget⟩)
      · exact hmem
      · obtain ⟨⟨-, hversion⟩, heq⟩ := artifactRekey_eq_some.1 htarget
        obtain ⟨hproject, hversion', -⟩ := Pk.mk.inj heq
        refine absurd ?_ (h.newKey_ne hsplit hr')
        rw [ReleaseRepoint.newKey, ReleaseRepoint.newKey, hproject, hversion.symm.trans hversion']
    · intro hmem
      exact .inl ⟨hmem, fun r' hr' => artifactRekey_eq_none.2 fun hat => h.newPlace_ne hr (hdone r' hr') hat⟩
  simp only [Collides, hold, hnew]

/-- A further repoint is refused, collides as it did at the start, or rekeys the release and its artifacts. -/
theorem Repointed.step (hs : Repointed staged done s) (h : Prepared db committeeKey snapshot diff)
    (hstaged : Staged db diff staged) (hsplit : diff.releaseRepoints = done ++ r :: rest) :
    ((r.fromProject, r.row.version.1) ∈ staged.tasks ∧ s.repointOneRelease r = .error (.pendingTasks r.key)) ∨
    ((r.fromProject, r.row.version.1) ∉ staged.tasks ∧ Collides staged r ∧
      ∃ pk, s.repointOneRelease r = .error (.artifactExists pk)) ∨
    ((r.fromProject, r.row.version.1) ∉ staged.tasks ∧ ¬ Collides staged r ∧
      ∃ s', s.repointOneRelease r = .ok s' ∧ Repointed staged (done ++ [r]) s') := by
  have hr : r ∈ diff.releaseRepoints := by simp [hsplit]
  obtain ⟨-, hne, hunheld⟩ := h.classified.releases.target r hr
  have hfree : r.newKey ∉ s.releases.keys := by
    rw [hs.releases.mem_keys_map, not_or]
    constructor
    · rintro ⟨hmem, -⟩
      rcases hstaged.releases.mem_keys.1 hmem with hold | hadd
      · exact hunheld (h.releaseKeys _ hold)
      · rw [List.map_map] at hadd
        exact (List.nodup_append.1 h.classified.releases.newKeys).2.2 _ hadd _ (List.mem_map_of_mem hr) rfl
    · rintro ⟨r', hr', k₀, -, htarget⟩
      exact h.newKey_ne hsplit hr' (single_eq_some.1 htarget).2
  rcases repointOneRelease_cases hne hfree with ⟨hpending, herror⟩ | ⟨hpending, hcollides, herror⟩ |
    ⟨hpending, hcollides, s', hok, htasks, hartifacts, hreleases⟩
  · exact .inl ⟨hs.tasks ▸ hpending, herror⟩
  · exact .inr (.inl ⟨hs.tasks ▸ hpending, (hs.collides_iff h hsplit).1 hcollides, herror⟩)
  · refine .inr (.inr ⟨hs.tasks ▸ hpending, fun hstart => hcollides ((hs.collides_iff h hsplit).2 hstart), s', hok,
      htasks.trans hs.tasks, ?_, ?_, ?_⟩)
    · rw [List.map_append, List.map_singleton]
      refine hs.releases.append hreleases fun m hm m' hm' => ?_
      obtain ⟨r', hr', rfl⟩ := List.mem_map.1 hm
      rw [List.mem_singleton.1 hm']
      exact h.rekey_apart hsplit hr'
    · rw [List.map_append, List.map_singleton]
      refine hs.artifacts.append hartifacts fun m hm m' hm' => ?_
      obtain ⟨r', hr', rfl⟩ := List.mem_map.1 hm
      rw [List.mem_singleton.1 hm']
      exact h.artifactRekey_apart hsplit hr'
    · intro r' hr'
      rcases List.mem_append.1 hr' with hmem | hlast
      · exact hs.unpending r' hmem
      · rw [List.mem_singleton.1 hlast, ← hs.tasks]
        exact hpending

/-- What the repoints leave as far as they get. -/
theorem Prepared.repointed (h : Prepared db committeeKey snapshot diff) (hstaged : Staged db diff staged)
    (hsplit : diff.releaseRepoints = done ++ rest) (hok : done.foldlM Db.repointOneRelease staged = .ok s) :
    Repointed staged done s := by
  refine foldlM_preserves (Repointed staged) (Repointed.refl staged) (fun done₁ r rest₁ s₁ s₂ hdone hinv hstep => ?_) hok
  have hsplit₁ : diff.releaseRepoints = done₁ ++ r :: (rest₁ ++ rest) := by
    rw [hsplit, hdone, List.append_assoc, List.cons_append]
  rcases hinv.step h hstaged hsplit₁ with ⟨-, herror⟩ | ⟨-, -, pk, herror⟩ | ⟨-, -, s', hok', hrepointed⟩
  · rw [herror] at hstep
    cases hstep
  · rw [herror] at hstep
    cases hstep
  · rw [hok'] at hstep
    exact Except.ok.inj hstep ▸ hrepointed

/-- What a whole difference leaves in the tables. -/
theorem Prepared.applyDiff_ok (h : Prepared db committeeKey snapshot diff) (hdb : db.References) {db' : Db}
    (hok : db.applyDiff diff = .ok db') :
    (∀ row ∈ diff.projectAdds, row.key.1 ∉ (db.applyDeletions diff).projects.keys) ∧
      ∃ staged, Staged db diff staged ∧ Repointed staged diff.releaseRepoints db' ∧ db'.References := by
  rcases h.staged hdb with ⟨row, -, -, herror⟩ | ⟨hnew, staged, hstaged, hfinish⟩
  · rw [herror] at hok
    cases hok
  · rw [hfinish] at hok
    obtain ⟨s, hrepoints, hok⟩ := bind_eq_ok hok
    obtain ⟨hreferences, hok⟩ := raiseIf_bind_eq_ok.1 hok
    obtain rfl := Except.ok.inj hok
    exact ⟨hnew, staged, hstaged, h.repointed hstaged (List.append_nil _).symm hrepoints, not_not.1 hreferences⟩

end Repointed

end Catalogue

end TrustedReleases
