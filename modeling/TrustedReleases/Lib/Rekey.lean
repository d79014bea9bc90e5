import TrustedReleases.Lib.Dict
import TrustedReleases.Lib.Except

/-!
# Inserted and rekeyed rows

Insertions of rows with new keys (`Inserted`), and updates of the primary key of the rows of a table: each row of some
keys moves to another key and is changed there.  `Rekeyed` says what a list of such updates leaves, and holds of updates
made one after the other that are apart, so that none reads what another has written (`Rekeyed.append`,
`rekeyed_foldlM`).
-/

namespace Lib

variable {κ ν σ α ε : Type} [DecidableEq κ]

/-- A value that no two elements have is not that of an element passed before. -/
theorem notMem_map_of_nodup {γ : Type} {f : α → γ} {l done rest : List α} {x : α} (h : (l.map f).Nodup)
    (hl : l = done ++ x :: rest) : f x ∉ done.map f := by
  rw [hl, List.map_append, List.map_cons, List.nodup_middle, List.nodup_cons] at h
  exact fun hmem => h.1 (List.mem_append_left _ hmem)

/-! ### Insertions -/

/-- What the insertion of rows with new keys leaves of a table. -/
def Inserted (rows : List (κ × ν)) (d d' : Dict κ ν) : Prop :=
  ∀ k v, Dict.get d' k = some v ↔ Dict.get d k = some v ∨ (k, v) ∈ rows

theorem Inserted.mem_keys {rows : List (κ × ν)} {d d' : Dict κ ν} (h : Inserted rows d d') {k : κ} :
    k ∈ d'.keys ↔ k ∈ d.keys ∨ k ∈ rows.map Prod.fst := by
  constructor
  · intro hk
    obtain ⟨v, hv⟩ := Option.isSome_iff_exists.1 (Dict.mem_keys.1 hk)
    rcases (h k v).1 hv with hold | hnew
    · exact .inl (Dict.mem_keys_of_get hold)
    · exact .inr (List.mem_map.2 ⟨(k, v), hnew, rfl⟩)
  · rintro (hk | hk)
    · obtain ⟨v, hv⟩ := Option.isSome_iff_exists.1 (Dict.mem_keys.1 hk)
      exact Dict.mem_keys_of_get ((h k v).2 (.inl hv))
    · obtain ⟨⟨k', v⟩, hmem, rfl⟩ := List.mem_map.1 hk
      exact Dict.mem_keys_of_get ((h k' v).2 (.inr hmem))

/-- A loop whose passes insert rows with different new keys. -/
theorem inserted_foldlM {f : σ → α → Except ε σ} (table : σ → Dict κ ν) {key : α → κ} {val : α → ν} {xs : List α} {s : σ}
    (Frame : σ → Prop) (hframe : Frame s)
    (hstep : ∀ s x, Frame s → key x ∉ (table s).keys →
      ∃ s', f s x = .ok s' ∧ Frame s' ∧ table s' = Dict.set (table s) (key x) (val x))
    (hnodup : (xs.map key).Nodup) (hfresh : ∀ x ∈ xs, key x ∉ (table s).keys) :
    ∃ s', xs.foldlM f s = .ok s' ∧ Frame s' ∧ Inserted (xs.map fun x => (key x, val x)) (table s) (table s') := by
  refine foldlM_ok (fun done s' => Frame s' ∧ Inserted (done.map fun x => (key x, val x)) (table s) (table s'))
    ⟨hframe, fun k v => by simp⟩ fun done x rest s₁ hxs hinv => ?_
  have hnew : key x ∉ (table s₁).keys := by
    rw [hinv.2.mem_keys, not_or]
    refine ⟨hfresh x (by simp [hxs]), fun hmem => ?_⟩
    rw [List.map_map] at hmem
    exact notMem_map_of_nodup hnodup hxs hmem
  obtain ⟨s₂, hok, hframe₂, htable⟩ := hstep s₁ x hinv.1 hnew
  refine ⟨s₂, hok, hframe₂, fun k v => ?_⟩
  rw [htable, Dict.get_set, List.map_append, List.map_singleton, List.mem_append, List.mem_singleton, ← or_assoc,
    ← hinv.2 k v]
  constructor
  · intro hv
    split_ifs at hv with hk
    · exact .inr (by rw [hk, Option.some.inj hv])
    · exact .inl hv
  · rintro (hv | hv)
    · have hk : k ≠ key x := fun heq => hnew (heq ▸ Dict.mem_keys_of_get hv)
      rw [if_neg hk, hv]
    · obtain ⟨rfl, rfl⟩ := Prod.mk.inj hv
      exact if_pos rfl

/-! ### Updates of keys -/

/-- An update that moves rows to other keys, and changes the row that it moves from a key. -/
structure Rekey (κ ν : Type) where
  target : κ → Option κ
  update : κ → ν → ν

/-- The update of the row of one key. -/
def Rekey.single (source target : κ) (update : ν → ν) : Rekey κ ν where
  target k := if k = source then some target else none
  update _ := update

theorem single_eq_none {source target k : κ} {update : ν → ν} :
    (Rekey.single source target update).target k = none ↔ k ≠ source := by
  simp [Rekey.single]

theorem single_eq_some {source target k k' : κ} {update : ν → ν} :
    (Rekey.single source target update).target k = some k' ↔ k = source ∧ target = k' := by
  simp [Rekey.single]

/-- An update moves no row that another one moves too or has moved before. -/
def Rekey.Apart (m m' : Rekey κ ν) : Prop := ∀ k k', m.target k = some k' → m'.target k = none ∧ m'.target k' = none

/-- What a list of updates leaves of a table. -/
def Rekeyed (ms : List (Rekey κ ν)) (d d' : Dict κ ν) : Prop :=
  ∀ k v, Dict.get d' k = some v ↔ (Dict.get d k = some v ∧ ∀ m ∈ ms, m.target k = none) ∨
    ∃ m ∈ ms, ∃ k₀ v₀, m.target k₀ = some k ∧ Dict.get d k₀ = some v₀ ∧ v = m.update k₀ v₀

theorem Rekeyed.refl (d : Dict κ ν) : Rekeyed [] d d := by
  intro k v
  simp

/-- Updates that are apart from those before them. -/
theorem Rekeyed.append {ms ms' : List (Rekey κ ν)} {d d' d'' : Dict κ ν} (h : Rekeyed ms d d') (h' : Rekeyed ms' d' d'')
    (hapart : ∀ m ∈ ms, ∀ m' ∈ ms', m.Apart m') : Rekeyed (ms ++ ms') d d'' := by
  intro k v
  rw [h']
  constructor
  · rintro (⟨hget, hstay⟩ | ⟨m', hm', k₀, v₀, htarget, hget, rfl⟩)
    · rcases (h k v).1 hget with ⟨hold, hstay₀⟩ | ⟨m, hm, hmoved⟩
      · refine .inl ⟨hold, fun m hm => ?_⟩
        rcases List.mem_append.1 hm with hm | hm
        · exact hstay₀ m hm
        · exact hstay m hm
      · exact .inr ⟨m, List.mem_append_left _ hm, hmoved⟩
    · rcases (h k₀ v₀).1 hget with ⟨hold, -⟩ | ⟨m, hm, k₁, v₁, harrived, -⟩
      · exact .inr ⟨m', List.mem_append_right _ hm', k₀, v₀, htarget, hold, rfl⟩
      · -- a row that arrived at a key is not moved on
        have hnone := (hapart m hm m' hm' k₁ k₀ harrived).2
        rw [hnone] at htarget
        cases htarget
  · rintro (⟨hold, hstay⟩ | ⟨m, hm, k₀, v₀, htarget, hold, rfl⟩)
    · exact .inl ⟨(h k v).2 (.inl ⟨hold, fun m hm => hstay m (List.mem_append_left _ hm)⟩),
        fun m hm => hstay m (List.mem_append_right _ hm)⟩
    · rcases List.mem_append.1 hm with hm | hm
      · exact .inl ⟨(h k _).2 (.inr ⟨m, hm, k₀, v₀, htarget, hold, rfl⟩),
          fun m' hm' => (hapart m hm m' hm' k₀ k htarget).2⟩
      · refine .inr ⟨m, hm, k₀, v₀, htarget, (h k₀ v₀).2 (.inl ⟨hold, fun m₀ hm₀ => ?_⟩), rfl⟩
        -- the updates before leave the row where this one finds it
        cases hmoved : m₀.target k₀ with
        | none => rfl
        | some k₁ =>
          have hnone := (hapart m₀ hm₀ m hm k₀ k₁ hmoved).1
          rw [hnone] at htarget
          cases htarget

/-- The keys that are left. -/
theorem Rekeyed.mem_keys {ms : List (Rekey κ ν)} {d d' : Dict κ ν} (h : Rekeyed ms d d') {k : κ} :
    k ∈ d'.keys ↔ (k ∈ d.keys ∧ ∀ m ∈ ms, m.target k = none) ∨ ∃ m ∈ ms, ∃ k₀ ∈ d.keys, m.target k₀ = some k := by
  constructor
  · intro hk
    obtain ⟨v, hv⟩ := Option.isSome_iff_exists.1 (Dict.mem_keys.1 hk)
    rcases (h k v).1 hv with ⟨hget, hstay⟩ | ⟨m, hm, k₀, v₀, htarget, hget, -⟩
    · exact .inl ⟨Dict.mem_keys_of_get hget, hstay⟩
    · exact .inr ⟨m, hm, k₀, Dict.mem_keys_of_get hget, htarget⟩
  · rintro (⟨hk, hstay⟩ | ⟨m, hm, k₀, hk₀, htarget⟩)
    · obtain ⟨v, hv⟩ := Option.isSome_iff_exists.1 (Dict.mem_keys.1 hk)
      exact Dict.mem_keys_of_get ((h k v).2 (.inl ⟨hv, hstay⟩))
    · obtain ⟨v₀, hv₀⟩ := Option.isSome_iff_exists.1 (Dict.mem_keys.1 hk₀)
      exact Dict.mem_keys_of_get ((h k _).2 (.inr ⟨m, hm, k₀, v₀, htarget, hv₀, rfl⟩))

theorem rekeyed_map {xs : List α} {move : α → Rekey κ ν} {d d' : Dict κ ν} :
    Rekeyed (xs.map move) d d' ↔
      ∀ k v, Dict.get d' k = some v ↔ (Dict.get d k = some v ∧ ∀ x ∈ xs, (move x).target k = none) ∨
        ∃ x ∈ xs, ∃ k₀ v₀, (move x).target k₀ = some k ∧ Dict.get d k₀ = some v₀ ∧ v = (move x).update k₀ v₀ := by
  unfold Rekeyed
  simp only [List.forall_mem_map]
  simp only [List.mem_map, exists_exists_and_eq_and]

theorem Rekeyed.mem_keys_map {xs : List α} {move : α → Rekey κ ν} {d d' : Dict κ ν} (h : Rekeyed (xs.map move) d d')
    {k : κ} :
    k ∈ d'.keys ↔ (k ∈ d.keys ∧ ∀ x ∈ xs, (move x).target k = none) ∨
      ∃ x ∈ xs, ∃ k₀ ∈ d.keys, (move x).target k₀ = some k := by
  rw [h.mem_keys, List.forall_mem_map]
  simp only [List.mem_map, exists_exists_and_eq_and]

/-- The update of one row to a key that no other row has. -/
theorem rekeyed_single {d : Dict κ ν} {source target : κ} {v : ν} (update : ν → ν) (hget : Dict.get d source = some v)
    (hfree : ¬ (target ≠ source ∧ target ∈ d.keys)) :
    Rekeyed [Rekey.single source target update] d (Dict.set (Dict.pop d source) target (update v)) := by
  intro k w
  have hgone : k = target → k ≠ source → Dict.get d k = none := by
    rintro rfl hne
    exact Dict.notMem_keys.1 fun hmem => hfree ⟨hne, hmem⟩
  simp only [Dict.get_set, Dict.get_pop, List.mem_singleton, forall_eq, exists_eq_left, single_eq_none, single_eq_some]
  constructor
  · intro hw
    split_ifs at hw with htarget hsource
    · exact .inr ⟨source, v, ⟨rfl, htarget.symm⟩, hget, (Option.some.inj hw).symm⟩
    · exact .inl ⟨hw, hsource⟩
  · rintro (⟨hold, hsource⟩ | ⟨k₀, v₀, ⟨rfl, rfl⟩, hold, rfl⟩)
    · have htarget : k ≠ target := by
        intro heq
        rw [hgone heq hsource] at hold
        cases hold
      rw [if_neg htarget, if_neg hsource, hold]
    · rw [hget] at hold
      rw [if_pos rfl, Option.some.inj hold]
      rfl

/-- No update where there is no row. -/
theorem rekeyed_none {d : Dict κ ν} {source target : κ} (update : ν → ν) (hget : Dict.get d source = none) :
    Rekeyed [Rekey.single source target update] d d := by
  intro k w
  simp only [List.mem_singleton, forall_eq, exists_eq_left, single_eq_none, single_eq_some]
  constructor
  · intro hw
    refine .inl ⟨hw, ?_⟩
    rintro rfl
    rw [hget] at hw
    cases hw
  · rintro (⟨hold, -⟩ | ⟨k₀, v₀, ⟨rfl, -⟩, hold, -⟩)
    · exact hold
    · rw [hget] at hold
      cases hold

end Lib
