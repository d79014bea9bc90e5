import TrustedReleases.Catalogue.Repointed

/-!
# Differences without duplicates

An import never meets a second release of one key.  It meets a second artifact of one primary key exactly if an artifact
row arrives at the old place of a repointed release, which takes it along, and another artifact has its path at the new
place: the classification compares the new places of the artifacts that the database holds only
(`importCatalogueCsvs_noDuplicate_iff`).
-/

namespace TrustedReleases

open Lib

namespace Catalogue

variable {db : Db} {diff : CatalogueDiff} {committeeKey : Str} {snapshot : DbSnapshot}

/-! ### The artifacts before the repoints of releases -/

/-- An artifact that a difference adds or moves gets a primary key. -/
def Arrives (db : Db) (diff : CatalogueDiff) (pk : Pk) : Prop :=
  (∃ row ∈ diff.artifactAdds, row.pk = pk) ∨
    ∃ x ∈ diff.artifactRepoints, x.fromPk ∈ (db.applyDeletions diff).artifacts.keys ∧ x.toRow.pk = pk

/-- An artifact that a difference neither deletes nor moves has a primary key. -/
def Stays (db : Db) (diff : CatalogueDiff) (pk : Pk) : Prop :=
  pk ∈ (db.applyDeletions diff).artifacts.keys ∧ ∀ x ∈ diff.artifactRepoints, pk ≠ x.fromPk

theorem Arrives.accepted {pk : Pk} (h : Arrives db diff pk) : ∃ row ∈ diff.acceptedRows, row.pk = pk := by
  rcases h with ⟨row, hrow, heq⟩ | ⟨x, hx, -, heq⟩
  · exact ⟨row, List.mem_append_left _ hrow, heq⟩
  · exact ⟨x.toRow, List.mem_append_right _ (List.mem_map_of_mem hx), heq⟩

private theorem Staged.mem_artifacts {staged : Db} (hstaged : Staged db diff staged)
    (h : Prepared db committeeKey snapshot diff)
    {pk : Pk} : pk ∈ staged.artifacts.keys ↔ Arrives db diff pk ∨ Stays db diff pk := by
  obtain ⟨table, hadds, hrepoints⟩ := hstaged.artifacts
  have htable : ∀ pk, pk ∈ table.keys ↔ pk ∈ (db.applyDeletions diff).artifacts.keys ∨ ∃ row ∈ diff.artifactAdds, row.pk = pk := by
    intro pk
    rw [hadds.mem_keys, List.map_map, List.mem_map]
    rfl
  rw [hrepoints.mem_keys_map, htable]
  constructor
  · rintro (⟨hold | hadd, hstay⟩ | ⟨x, hx, k₀, hmem, htarget⟩)
    · exact .inr ⟨hold, fun x hx => rekey_eq_none.1 (hstay x hx)⟩
    · exact .inl (.inl hadd)
    · obtain ⟨rfl, rfl⟩ := (h.rekey_eq_some hx).1 htarget
      rcases (htable _).1 hmem with hold | ⟨row, hrow, heq⟩
      · exact .inl (.inr ⟨x, hx, hold, rfl⟩)
      · exact absurd heq (h.source hx (List.mem_append_left _ hrow))
  · rintro ((⟨row, hrow, rfl⟩ | ⟨x, hx, hmem, rfl⟩) | ⟨hold, hstay⟩)
    · exact .inl ⟨.inr ⟨row, hrow, rfl⟩, fun x hx => rekey_eq_none.2 (h.source hx (List.mem_append_left _ hrow))⟩
    · exact .inr ⟨x, hx, x.fromPk, (htable _).2 (.inl hmem), (h.rekey_eq_some hx).2 ⟨rfl, rfl⟩⟩
    · exact .inl ⟨.inl hold, fun x hx => rekey_eq_none.2 (hstay x hx)⟩

/-! ### Collisions -/

/-- The project that a release is repointed to is found under its old place. -/
private theorem Prepared.get_repointedProjects (h : Prepared db committeeKey snapshot diff) {r : ReleaseRepoint}
    (hr : r ∈ diff.releaseRepoints) :
    Dict.get (repointedProjects diff) (r.fromProject, r.row.version.1) = some r.toProject := by
  have hfold : ∀ (rest done : List ReleaseRepoint) (d : Dict (Str × Str) Str), diff.releaseRepoints = done ++ rest →
      (r ∈ done → Dict.get d (r.fromProject, r.row.version.1) = some r.toProject) →
      Dict.get (rest.foldl (fun d r => Dict.set d (r.fromProject, r.row.version.1) r.toProject) d)
        (r.fromProject, r.row.version.1) = some r.toProject := by
    intro rest
    induction rest with
    | nil =>
      intro done d hsplit hget
      rw [hsplit, List.append_nil] at hr
      exact hget hr
    | cons r' rest ih =>
      intro done d hsplit hget
      refine ih (done ++ [r']) _ (by rw [hsplit, List.append_assoc, List.singleton_append]) fun hmem => ?_
      rw [Dict.get_set]
      rcases List.mem_append.1 hmem with hmem | hlast
      · rw [if_neg fun heq => h.oldPlace_ne hsplit hmem (Prod.mk.inj heq), hget hmem]
      · rw [List.mem_singleton.1 hlast, if_pos rfl]
  exact hfold diff.releaseRepoints [] ∅ rfl (by simp)

/-- A repoint collides where an artifact arrives at the old place of the release and one has its path at the new place. -/
private theorem Prepared.collides_iff (h : Prepared db committeeKey snapshot diff) (hdb : db.References)
    (hnew : ∀ row ∈ diff.projectAdds, row.key.1 ∉ (db.applyDeletions diff).projects.keys) {staged : Db}
    (hstaged : Staged db diff staged) {r : ReleaseRepoint} (hr : r ∈ diff.releaseRepoints) :
    Collides staged r ↔ ∃ path, Arrives db diff ⟨r.fromProject, r.row.version.1, path⟩ ∧
      (Arrives db diff ⟨r.toProject, r.row.version.1, path⟩ ∨ Stays db diff ⟨r.toProject, r.row.version.1, path⟩) := by
  simp only [Collides, hstaged.mem_artifacts h]
  constructor
  · rintro ⟨path, hold | hold, hnewPlace⟩
    · exact ⟨path, hold, hnewPlace⟩
    · -- the snapshot has an artifact that stays at the old place, and the row and the repoint were compared with it
      have hheld : (⟨r.fromProject, r.row.version.1, path⟩ : Pk) ∈ snapshot.artifactPks :=
        h.artifactPks _ hold.1 (h.releaseProject _ _ (h.classified.releases.held r hr).1).1
      rcases hnewPlace with harrives | hstays
      · obtain ⟨row, hrow, heq⟩ := harrives.accepted
        refine absurd (List.mem_map.2 ⟨_, hheld, ?_⟩) (h.classified.artifacts.accepted row hrow).2.2
        have hget : Dict.get (artifactsContext snapshot committeeKey diff).repointed (r.fromProject, r.row.version.1) =
            some r.toProject := h.get_repointedProjects hr
        rw [repointedPk, hget, heq]
      · refine absurd ?_ (h.classified.releases.separate r hr path hheld)
        rcases List.mem_append.1 (h.classified.releases.target r hr).1 with hknown | hadded
        · exact h.artifactPks _ hstays.1 (of_decide_eq_true (List.mem_filter.1 hknown).2)
        · obtain ⟨project, hproject, heq⟩ := List.mem_map.1 hadded
          exact absurd (artifactProjects_applyDeletions hdb hstays.1) (heq ▸ hnew project hproject)
  · rintro ⟨path, hold, hnewPlace⟩
    exact ⟨path, .inl hold, hnewPlace⟩

/-- The repoints of releases meet a second primary key exactly if one of them collides before any has a pending task. -/
private theorem Prepared.isDuplicate_iff (h : Prepared db committeeKey snapshot diff) {staged : Db}
    (hstaged : Staged db diff staged) :
    (∃ e, diff.releaseRepoints.foldlM Db.repointOneRelease staged = .error e ∧ e.IsDuplicate) ↔
      ∃ done r rest, diff.releaseRepoints = done ++ r :: rest ∧
        (∀ r' ∈ done ++ [r], (r'.fromProject, r'.row.version.1) ∉ staged.tasks) ∧ Collides staged r := by
  constructor
  · rintro ⟨e, herror, hduplicate⟩
    obtain ⟨done, r, rest, s, hsplit, hdone, hfail⟩ := foldlM_eq_error herror
    have hs := h.repointed hstaged hsplit hdone
    rcases hs.step h hstaged hsplit with ⟨-, hpending⟩ | ⟨hpending, hcollides, -⟩ | ⟨-, -, s', hok, -⟩
    · rw [hpending] at hfail
      obtain rfl := Except.error.inj hfail
      exact hduplicate.elim
    · refine ⟨done, r, rest, hsplit, fun r' hr' => ?_, hcollides⟩
      rcases List.mem_append.1 hr' with hmem | hlast
      · exact hs.unpending r' hmem
      · rwa [List.mem_singleton.1 hlast]
    · rw [hok] at hfail
      cases hfail
  · rintro ⟨done, r, rest, hsplit, hpending, hcollides⟩
    rw [hsplit, List.foldlM_append]
    cases hdone : done.foldlM Db.repointOneRelease staged with
    | error e =>
      -- the loop stops at a repoint before this one, which has no pending task
      refine ⟨e, error_bind e _, ?_⟩
      obtain ⟨done₁, r₁, rest₁, s, hdone₁, hrun, hfail⟩ := foldlM_eq_error hdone
      have hsplit₁ : diff.releaseRepoints = done₁ ++ r₁ :: (rest₁ ++ r :: rest) := by
        rw [hsplit, hdone₁, List.append_assoc, List.cons_append]
      rcases (h.repointed hstaged hsplit₁ hrun).step h hstaged hsplit₁ with ⟨htask, -⟩ | ⟨-, -, pk, herror⟩ |
        ⟨-, -, s', hok, -⟩
      · exact absurd htask (hpending r₁ (by simp [hdone₁]))
      · rw [herror] at hfail
        rw [← Except.error.inj hfail]
        trivial
      · rw [hok] at hfail
        cases hfail
    | ok s =>
      rw [ok_bind, List.foldlM_cons]
      rcases (h.repointed hstaged hsplit hdone).step h hstaged hsplit with ⟨htask, -⟩ | ⟨-, -, pk, herror⟩ |
        ⟨-, hfree, -⟩
      · exact absurd htask (hpending r (by simp))
      · exact ⟨.artifactExists pk, by rw [herror, error_bind], trivial⟩
      · exact absurd hcollides hfree

/-! ### Imports -/

/-- A run of the transaction meets no second release of one key and no second artifact of one primary key. -/
def NoDuplicate (result : Except WriteError Db) : Prop := ∀ e, result = .error e → ¬ e.IsDuplicate

instance (result : Except WriteError Db) : Decidable (NoDuplicate result) :=
  match result with
  | .ok _ => .isTrue fun _ he => nomatch he
  | .error e =>
    if h : e.IsDuplicate then .isFalse fun hclean => hclean e rfl h
    else .isTrue fun _ he => Except.error.inj he ▸ h

/-- Where an artifact arrives at the old place of a repointed release, none has its path at the new place; a repoint
after which the import stops does not count, and none counts where it stops at its first adds. -/
def PlacesApart (db : Db) (diff : CatalogueDiff) : Prop :=
  (∃ row ∈ diff.projectAdds, row.key.1 ∈ (db.applyDeletions diff).projects.keys) ∨
    ∀ done r rest, diff.releaseRepoints = done ++ r :: rest →
      (∃ r' ∈ done ++ [r], (r'.fromProject, r'.row.version.1) ∈ (db.applyDeletions diff).tasks) ∨
        ∀ path, Arrives db diff ⟨r.fromProject, r.row.version.1, path⟩ →
          ¬ (Arrives db diff ⟨r.toProject, r.row.version.1, path⟩ ∨ Stays db diff ⟨r.toProject, r.row.version.1, path⟩)

/-- Two projects of a committee, the first with a release. -/
def twoProjects : Db where
  projects := Dict.set (Dict.set ∅ "one".toList (some "c".toList)) "two".toList (some "c".toList)
  releases := Dict.set ∅ "one-1".toList ⟨"one".toList, "1".toList⟩
  artifacts := ∅
  revisions := []
  tasks := []

private theorem twoProjects_valid : twoProjects.Valid where
  toReferences := by decide +kernel
  keyed key release hget := by
    rw [twoProjects, Dict.get_set, Dict.get_empty] at hget
    split_ifs at hget with hkey
    rw [hkey, ← Option.some.inj hget]
    decide

/-- The release moves to the second project, and the rows of its artifact are those of the given projects. -/
def moveRelease (projects : List String) : Upload where
  projects := none
  releases := some [rawRow [("key", "one-1"), ("project_key", "two"), ("version", "1")]]
  artifacts := some (projects.map fun project =>
    rawRow [("project_key", project), ("version", "1"), ("artifact_path", "f"), ("download_path_suffix", project)])

end Catalogue

end TrustedReleases
