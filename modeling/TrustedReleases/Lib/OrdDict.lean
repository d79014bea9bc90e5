import TrustedReleases.Lib.Dict

/-!
# Dictionaries in their order

Dictionaries whose order matters: an entry keeps the place at which its key came in, and a key that comes in again after
it was removed is the last one.
-/

namespace Lib

/-- A dictionary, as its entries in their order. -/
structure OrdDict (α β : Type) where
  entries : List (α × β)
  nodup : (entries.map Prod.fst).Nodup

namespace OrdDict

variable {α β σ : Type}

def empty : OrdDict α β := ⟨[], List.nodup_nil⟩

def keys (d : OrdDict α β) : List α := d.entries.map Prod.fst

def values (d : OrdDict α β) : List β := d.entries.map Prod.snd

/-- The entries that meet a condition. -/
def filter (p : α → β → Bool) (d : OrdDict α β) : OrdDict α β :=
  ⟨d.entries.filter fun e => p e.1 e.2, d.nodup.sublist (List.filter_sublist.map _)⟩

variable [DecidableEq α]

def get (d : OrdDict α β) (k : α) : Option β := (d.entries.find? fun e => decide (e.1 = k)).map Prod.snd

/-- The dictionary without `k`. -/
def pop (d : OrdDict α β) (k : α) : OrdDict α β := d.filter fun q _ => decide (q ≠ k)

private theorem keys_map_set (entries : List (α × β)) (k : α) (v : β) :
    (entries.map fun e => if e.1 = k then (k, v) else e).map Prod.fst = entries.map Prod.fst := by
  rw [List.map_map]
  refine List.map_congr_left fun e _ => ?_
  by_cases h : e.1 = k
  · simp [h]
  · simp [h]

/-- The dictionary with `v` at `k`: in the place of the old value, or else at the end. -/
def set (d : OrdDict α β) (k : α) (v : β) : OrdDict α β :=
  if h : k ∈ d.entries.map Prod.fst then
    ⟨d.entries.map fun e => if e.1 = k then (k, v) else e, by rw [keys_map_set]; exact d.nodup⟩
  else
    ⟨d.entries ++ [(k, v)], by
      rw [List.map_append, List.map_singleton]
      exact List.nodup_append_comm.1 (List.nodup_cons.2 ⟨h, d.nodup⟩)⟩

theorem get_eq_some {d : OrdDict α β} {k : α} {v : β} : d.get k = some v ↔ (k, v) ∈ d.entries := by
  unfold get
  constructor
  · intro h
    obtain ⟨e, he, rfl⟩ := Option.map_eq_some_iff.1 h
    have hk : e.1 = k := by simpa using List.find?_some he
    rw [← hk]
    exact List.mem_of_find?_eq_some he
  · intro hmem
    cases hfind : d.entries.find? fun e => decide (e.1 = k) with
    | none =>
      have hnone := List.find?_eq_none.1 hfind (k, v) hmem
      simp at hnone
    | some e =>
      have hk : e.1 = k := by simpa using List.find?_some hfind
      have hsame := List.inj_on_of_nodup_map d.nodup (List.mem_of_find?_eq_some hfind) hmem hk
      rw [hsame]
      rfl

theorem mem_keys {d : OrdDict α β} {k : α} : k ∈ d.keys ↔ (d.get k).isSome := by
  unfold keys
  rw [List.mem_map]
  constructor
  · rintro ⟨e, he, rfl⟩
    rw [get_eq_some.2 he]
    rfl
  · intro h
    obtain ⟨v, hv⟩ := Option.isSome_iff_exists.1 h
    exact ⟨(k, v), get_eq_some.1 hv, rfl⟩

theorem get_eq_none {d : OrdDict α β} {k : α} : d.get k = none ↔ k ∉ d.keys := by
  rw [mem_keys, Option.not_isSome_iff_eq_none]

theorem mem_values {d : OrdDict α β} {v : β} : v ∈ d.values ↔ ∃ k, d.get k = some v := by
  unfold values
  rw [List.mem_map]
  constructor
  · rintro ⟨e, he, rfl⟩
    exact ⟨e.1, get_eq_some.2 he⟩
  · rintro ⟨k, hk⟩
    exact ⟨(k, v), get_eq_some.1 hk, rfl⟩

@[simp] theorem get_empty (k : α) : (empty : OrdDict α β).get k = none := rfl

@[simp] theorem get_filter (p : α → β → Bool) (d : OrdDict α β) (k : α) :
    (d.filter p).get k = (d.get k).filter (p k) := by
  have hiff : ∀ v, (d.filter p).get k = some v ↔ (d.get k).filter (p k) = some v := by
    intro v
    rw [get_eq_some, Option.filter_eq_some_iff, get_eq_some]
    exact List.mem_filter
  exact Option.ext hiff

@[simp] theorem get_set (d : OrdDict α β) (k : α) (v : β) (q : α) :
    (d.set k v).get q = if q = k then some v else d.get q := by
  have hiff : ∀ w, (d.set k v).get q = some w ↔ (if q = k then some v else d.get q) = some w := by
    intro w
    rw [get_eq_some]
    unfold set
    split
    · rename_i hk
      rw [List.mem_map]
      constructor
      · rintro ⟨e, he, heq⟩
        by_cases hek : e.1 = k
        · rw [if_pos hek, Prod.mk.injEq] at heq
          rw [if_pos heq.1.symm, heq.2]
        · rw [if_neg hek] at heq
          rw [if_neg (by rw [heq] at hek; exact hek), get_eq_some]
          rwa [← heq]
      · intro h
        by_cases hq : q = k
        · obtain ⟨e, he, hek⟩ := List.mem_map.1 hk
          rw [if_pos hq] at h
          exact ⟨e, he, by rw [if_pos hek, hq, Option.some.inj h]⟩
        · rw [if_neg hq, get_eq_some] at h
          exact ⟨(q, w), h, if_neg hq⟩
    · rename_i hk
      rw [List.mem_append, List.mem_singleton, Prod.mk.injEq]
      by_cases hq : q = k
      · rw [if_pos hq, Option.some.injEq]
        constructor
        · rintro (hmem | ⟨-, rfl⟩)
          · exact absurd (List.mem_map_of_mem hmem) (by rwa [hq])
          · rfl
        · rintro rfl
          exact .inr ⟨hq, rfl⟩
      · rw [if_neg hq, get_eq_some]
        simp [hq]
  exact Option.ext hiff

/-- Dictionaries with the same values have the same entries, in some order. -/
theorem entries_perm {d d' : OrdDict α β} (h : ∀ k, d.get k = d'.get k) : d.entries.Perm d'.entries := by
  refine (List.perm_ext_iff_of_nodup d.nodup.of_map d'.nodup.of_map).2 fun e => ?_
  obtain ⟨k, v⟩ := e
  rw [← get_eq_some, ← get_eq_some, h]

theorem values_perm {d d' : OrdDict α β} (h : ∀ k, d.get k = d'.get k) : d.values.Perm d'.values :=
  (entries_perm h).map _

end OrdDict

end Lib
