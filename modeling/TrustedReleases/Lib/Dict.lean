import Mathlib

/-!
# Dictionaries

Finite maps with the operations of a dictionary of a scripting language: reading with `get`, `set`, `pop`, the
list of `keys`, and the two comprehensions `mapVals` and `ofKeys`.  They are Mathlib's `AList` with a constant value
type; every operation comes with the equation for `get` after it, in the `if` form that the simp set uses, so that no
later proof unfolds a dictionary.
-/

namespace Lib

/-- Membership in a list is decided by comparisons. -/
instance decidableMem {α : Type} [DecidableEq α] (a : α) (l : List α) : Decidable (a ∈ l) :=
  List.instDecidableMemOfLawfulBEq a l

/-- A finite map from `α` to `β`. -/
abbrev Dict (α β : Type) := AList (fun _ : α => β)

namespace Dict

variable {α β γ : Type} [DecidableEq α]

/-- The value at a key, if there is one. -/
def get (d : Dict α β) (k : α) : Option β := AList.lookup k d

/-- The dictionary with `v` at `k`. -/
def set (d : Dict α β) (k : α) (v : β) : Dict α β := AList.insert k v d

/-- The dictionary without `k`. -/
def pop (d : Dict α β) (k : α) : Dict α β := AList.erase k d

omit [DecidableEq α] in
/-- The dictionary with the same keys and the values `f k v`. -/
def mapVals (f : α → β → γ) (d : Dict α β) : Dict α γ :=
  ⟨d.entries.map fun e => ⟨e.1, f e.1 e.2⟩, by
    have h := d.nodupKeys
    rw [List.NodupKeys, List.keys] at h ⊢
    rwa [List.map_map, show (Sigma.fst ∘ fun e : (_ : α) × β => (⟨e.1, f e.1 e.2⟩ : (_ : α) × γ)) = Sigma.fst from rfl]⟩

omit [DecidableEq α] in
private theorem nodupKeys_filterMap (f : α → β → Option γ) (l : List ((_ : α) × β)) (h : l.NodupKeys) :
    (l.filterMap fun e => (f e.1 e.2).map fun v => (⟨e.1, v⟩ : (_ : α) × γ)).NodupKeys := by
  rw [List.NodupKeys, List.keys] at h ⊢
  refine h.sublist ?_
  clear h
  induction l with
  | nil => exact List.Sublist.refl _
  | cons e l ih =>
    rw [List.filterMap_cons]
    cases f e.1 e.2 with
    | none => exact ih.cons _
    | some v => exact ih.cons_cons _

omit [DecidableEq α] in
/-- The dictionary of the keys at which `f k v` is a value, with that value. -/
def filterMap (f : α → β → Option γ) (d : Dict α β) : Dict α γ :=
  ⟨d.entries.filterMap fun e => (f e.1 e.2).map fun v => ⟨e.1, v⟩, nodupKeys_filterMap f _ d.nodupKeys⟩

/-- The dictionary with the keys `ks` and the values `f k`. -/
def ofKeys (ks : List α) (f : α → β) : Dict α β := (ks.map fun k => (⟨k, f k⟩ : (_ : α) × β)).toAList

@[simp] theorem get_empty (k : α) : get (∅ : Dict α β) k = none := rfl

@[simp] theorem get_set (d : Dict α β) (k : α) (v : β) (q : α) :
    (d.set k v).get q = if q = k then some v else d.get q := by
  unfold get set
  split
  · rename_i h; subst h; exact AList.lookup_insert d
  · rename_i h; exact AList.lookup_insert_ne h

@[simp] theorem get_pop (d : Dict α β) (k q : α) :
    (d.pop k).get q = if q = k then none else d.get q := by
  unfold get pop
  split
  · rename_i h; subst h; exact AList.lookup_erase q d
  · rename_i h; exact AList.lookup_erase_ne h

/-- A key is listed exactly when it has a value. -/
theorem mem_keys {d : Dict α β} {k : α} : k ∈ d.keys ↔ (d.get k).isSome := by
  rw [← AList.mem_keys]; exact AList.lookup_isSome.symm

theorem notMem_keys {d : Dict α β} {k : α} : k ∉ d.keys ↔ d.get k = none := by
  rw [mem_keys, Option.not_isSome_iff_eq_none]

theorem mem_keys_of_get {d : Dict α β} {k : α} {v : β} (h : d.get k = some v) : k ∈ d.keys := by
  rw [mem_keys, h]; rfl

@[simp] theorem get_mapVals (f : α → β → γ) (d : Dict α β) (k : α) :
    (d.mapVals f).get k = (d.get k).map (f k) := by
  unfold get mapVals AList.lookup
  exact List.dlookup_map₂ k

private theorem dlookup_filterMap (f : α → β → Option γ) (k : α) (l : List ((_ : α) × β)) (h : l.NodupKeys) :
    (l.filterMap fun e => (f e.1 e.2).map fun v => (⟨e.1, v⟩ : (_ : α) × γ)).dlookup k =
      (l.dlookup k).bind (f k) := by
  induction l with
  | nil => rfl
  | cons e l ih =>
    obtain ⟨a, b⟩ := e
    obtain ⟨ha, hl⟩ := List.nodupKeys_cons.1 h
    have hnone : k = a → l.dlookup k = none := fun hk => List.dlookup_eq_none.2 (hk ▸ ha)
    rw [List.filterMap_cons]
    by_cases hk : k = a
    · subst hk
      have hih := ih hl
      rw [hnone rfl] at hih
      cases hf : f k b with
      | none => simpa [hf] using hih
      | some v => simp [hf]
    · rw [List.dlookup_cons_ne _ _ hk]
      cases hf : f a b with
      | none => simpa [hf] using ih hl
      | some v =>
        simp only [Option.map_some]
        rw [List.dlookup_cons_ne _ _ (by exact hk)]
        exact ih hl

@[simp] theorem get_filterMap (f : α → β → Option γ) (d : Dict α β) (k : α) :
    (d.filterMap f).get k = (d.get k).bind (f k) :=
  dlookup_filterMap f k d.entries d.nodupKeys

@[simp] theorem get_ofKeys (ks : List α) (f : α → β) (k : α) :
    (ofKeys ks f).get k = if k ∈ ks then some (f k) else none := by
  unfold get ofKeys
  rw [AList.lookup_to_alist]
  induction ks with
  | nil => rfl
  | cons a ks ih =>
    by_cases h : k = a
    · subst h; simp
    · rw [List.map_cons, List.dlookup_cons_ne _ _ h, ih]
      simp [h]

end Dict

end Lib
