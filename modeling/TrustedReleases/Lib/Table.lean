import TrustedReleases.Lib.Query

/-!
# Tables with a primary key

The rows of a table, no two of which have the same key, with the two statements that write one row: an insertion, which
does nothing where the key is there, and an update by the key.
-/

namespace Lib

variable {α κ : Type}

structure Table (key : α → κ) where
  rows : List α
  nodup : (rows.map key).Nodup

namespace Table

variable {key : α → κ}

def empty : Table key := ⟨[], List.nodup_nil⟩

theorem eq_of_key_eq (t : Table key) {a b : α} (ha : a ∈ t.rows) (hb : b ∈ t.rows) (h : key a = key b) : a = b :=
  List.inj_on_of_nodup_map t.nodup ha hb h

variable [DecidableEq κ]

def get (t : Table key) (k : κ) : Option α := t.rows.find? fun a => decide (key a = k)

theorem get_eq_some {t : Table key} {k : κ} {a : α} : t.get k = some a ↔ a ∈ t.rows ∧ key a = k := by
  constructor
  · intro h
    exact ⟨List.mem_of_find?_eq_some h, by simpa using List.find?_some h⟩
  · intro h
    obtain ⟨hmem, rfl⟩ := h
    cases hfind : t.get (key a) with
    | none =>
      have hnone := List.find?_eq_none.1 hfind a hmem
      simp at hnone
    | some b =>
      have hb : b ∈ t.rows ∧ key b = key a := ⟨List.mem_of_find?_eq_some hfind, by simpa using List.find?_some hfind⟩
      rw [t.eq_of_key_eq hb.1 hmem hb.2]

theorem get_eq_none {t : Table key} {k : κ} : t.get k = none ↔ ∀ a ∈ t.rows, key a ≠ k := by
  unfold get
  simp

/-- The row is added at the end, unless its key is there. -/
def insert (t : Table key) (row : α) : Table key :=
  if h : key row ∈ t.rows.map key then t
  else ⟨t.rows ++ [row], by
    rw [List.map_append, List.map_singleton]
    exact List.nodup_append_comm.1 (List.nodup_cons.2 ⟨h, t.nodup⟩)⟩

/-- The row takes the place of the one with its key. -/
def replace (t : Table key) (row : α) : Table key where
  rows := t.rows.map fun a => if key a = key row then row else a
  nodup := by
    have hkeys : (t.rows.map fun a => if key a = key row then row else a).map key = t.rows.map key := by
      rw [List.map_map]
      refine List.map_congr_left fun a _ => ?_
      by_cases h : key a = key row
      · simp [h]
      · simp [h]
    rw [hkeys]
    exact t.nodup

theorem rows_insert {t : Table key} {row : α} (h : ∀ a ∈ t.rows, key a ≠ key row) :
    (t.insert row).rows = t.rows ++ [row] := by
  have hfresh : key row ∉ t.rows.map key := by
    intro hmem
    obtain ⟨a, ha, hkey⟩ := List.mem_map.1 hmem
    exact h a ha hkey
  rw [insert, dif_neg hfresh]

theorem mem_insert {t : Table key} {row a : α} (h : a ∈ (t.insert row).rows) : a ∈ t.rows ∨ a = row := by
  unfold insert at h
  split at h
  · exact .inl h
  · exact (List.mem_append.1 h).imp_right List.mem_singleton.1

theorem mem_insert_of_mem {t : Table key} {row a : α} (h : a ∈ t.rows) : a ∈ (t.insert row).rows := by
  unfold insert
  split
  · exact h
  · exact List.mem_append_left _ h

theorem mem_replace {t : Table key} {row a : α} (h : a ∈ (t.replace row).rows) : a = row ∨ a ∈ t.rows ∧ key a ≠ key row := by
  obtain ⟨b, hb, rfl⟩ := List.mem_map.1 h
  split
  · exact .inl rfl
  · rename_i hkey
    exact .inr ⟨hb, hkey⟩

theorem mem_replace_of_ne {t : Table key} {row a : α} (h : a ∈ t.rows) (hkey : key a ≠ key row) :
    a ∈ (t.replace row).rows := List.mem_map.2 ⟨a, h, if_neg hkey⟩

theorem mem_replace_self {t : Table key} {row a : α} (h : a ∈ t.rows) (hkey : key a = key row) :
    row ∈ (t.replace row).rows := List.mem_map.2 ⟨a, h, if_pos hkey⟩

/-- After an insertion of a new key. -/
theorem get_insert {t : Table key} {row : α} (h : t.get (key row) = none) (k : κ) :
    (t.insert row).get k = if k = key row then some row else t.get k := by
  have hrows := rows_insert (get_eq_none.1 h)
  have hiff : ∀ a, (t.insert row).get k = some a ↔ (if k = key row then some row else t.get k) = some a := by
    intro a
    rw [get_eq_some, hrows, List.mem_append, List.mem_singleton]
    by_cases hk : k = key row
    · rw [if_pos hk, Option.some.injEq, hk]
      constructor
      · intro ha
        rcases ha.1 with hmem | rfl
        · exact absurd ha.2 (get_eq_none.1 h a hmem)
        · rfl
      · intro ha
        exact ⟨.inr ha.symm, by rw [ha]⟩
    · rw [if_neg hk, get_eq_some]
      constructor
      · intro ha
        rcases ha.1 with hmem | rfl
        · exact ⟨hmem, ha.2⟩
        · exact absurd ha.2.symm hk
      · intro ha
        exact ⟨.inl ha.1, ha.2⟩
  exact Option.ext hiff

/-- After an update of a key that is there. -/
theorem get_replace {t : Table key} {row a : α} (h : t.get (key row) = some a) (k : κ) :
    (t.replace row).get k = if k = key row then some row else t.get k := by
  obtain ⟨hmem, hkey⟩ := get_eq_some.1 h
  have hiff : ∀ b, (t.replace row).get k = some b ↔ (if k = key row then some row else t.get k) = some b := by
    intro b
    rw [get_eq_some]
    by_cases hk : k = key row
    · rw [if_pos hk, Option.some.injEq, hk]
      constructor
      · intro hb
        rcases mem_replace hb.1 with rfl | hold
        · rfl
        · exact absurd hb.2 hold.2
      · intro hb
        rw [← hb]
        exact ⟨mem_replace_self hmem hkey, rfl⟩
    · rw [if_neg hk, get_eq_some]
      constructor
      · intro hb
        rcases mem_replace hb.1 with rfl | hold
        · exact absurd hb.2.symm hk
        · exact ⟨hold.1, hb.2⟩
      · intro hb
        exact ⟨mem_replace_of_ne hb.1 (by rw [hb.2]; exact hk), hb.2⟩
  exact Option.ext hiff

/-- A query sees the same rows, if the row that is replaced is seen as little as the one that comes. -/
theorem filter_replace {t : Table key} {row : α} {p q : α → Bool} (hnew : p row = false)
    (hold : ∀ a ∈ t.rows, key a = key row → q a = false) (hsame : ∀ a ∈ t.rows, key a ≠ key row → p a = q a) :
    (t.replace row).rows.filter p = t.rows.filter q := by
  have hmap : ∀ rows : List α, (∀ a ∈ rows, a ∈ t.rows) →
      (rows.map fun a => if key a = key row then row else a).filter p = rows.filter q := by
    intro rows hrows
    induction rows with
    | nil => rfl
    | cons a rows ih =>
      rw [List.forall_mem_cons] at hrows
      rw [List.map_cons]
      by_cases hkey : key a = key row
      · rw [if_pos hkey, List.filter_cons_of_neg (by simp [hnew]),
          List.filter_cons_of_neg (by simp [hold a hrows.1 hkey]), ih hrows.2]
      · rw [if_neg hkey, List.filter_cons, List.filter_cons, hsame a hrows.1 hkey, ih hrows.2]
  exact hmap t.rows fun _ h => h

omit [DecidableEq κ] in
/-- The rows that meet a condition. -/
def filter (t : Table key) (p : α → Bool) : Table key := ⟨t.rows.filter p, (List.filter_sublist.map key).nodup t.nodup⟩

omit [DecidableEq κ] in
/-- Every row is changed, so that the keys stay different. -/
def mapRows (t : Table key) (f : α → α) (h : ∀ a ∈ t.rows, ∀ b ∈ t.rows, key (f a) = key (f b) → key a = key b) :
    Table key where
  rows := t.rows.map f
  nodup := by
    rw [List.map_map]
    refine List.Nodup.map_on ?_ (List.Nodup.of_map key t.nodup)
    intro a ha b hb heq
    exact t.eq_of_key_eq ha hb (h a ha b hb heq)

end Table

end Lib
