import TrustedReleases.Lib.Dict

/-!
# Queries over rows

The parts of a query over a table that pick rows by rank: `orderBy` sorts the rows by a value, `latestBy` takes the
row with the greatest one, as `ORDER BY .. DESC LIMIT 1` does, and `firstPer` keeps the first row of each key, as a
window query with `row_number() = 1` and a loop over sorted rows that skips the keys it has seen both do.  Sorted by
descending time within each key, the rows kept are the latest of their keys (`mem_firstPer_latest`).
-/

namespace Lib

variable {α β κ : Type}

/-- The rows in ascending order of `f`. -/
def orderBy [LinearOrder β] (f : α → β) (rows : List α) : List α := rows.insertionSort fun a b => f a ≤ f b

theorem orderBy_perm [LinearOrder β] (f : α → β) (rows : List α) : (orderBy f rows).Perm rows :=
  List.perm_insertionSort _ rows

@[simp] theorem mem_orderBy [LinearOrder β] {f : α → β} {rows : List α} {a : α} : a ∈ orderBy f rows ↔ a ∈ rows :=
  (orderBy_perm f rows).mem_iff

theorem orderBy_pairwise [LinearOrder β] (f : α → β) (rows : List α) :
    (orderBy f rows).Pairwise fun a b => f a ≤ f b := by
  have : Std.Total fun a b : α => f a ≤ f b := ⟨fun a b => le_total (f a) (f b)⟩
  have : IsTrans α fun a b => f a ≤ f b := ⟨fun _ _ _ => le_trans⟩
  exact List.pairwise_insertionSort _ rows

/-- Sorting sorted rows changes nothing. -/
theorem orderBy_of_pairwise [LinearOrder β] {f : α → β} {rows : List α} (h : rows.Pairwise fun a b => f a ≤ f b) :
    orderBy f rows = rows := List.Pairwise.insertionSort_eq h

@[simp] theorem orderBy_orderBy [LinearOrder β] (f : α → β) (rows : List α) :
    orderBy f (orderBy f rows) = orderBy f rows := orderBy_of_pairwise (orderBy_pairwise f rows)

/-- Sorting by a value that tells the rows apart does not depend on the order of the rows. -/
theorem orderBy_congr [LinearOrder β] {f : α → β} {rows rows' : List α} (h : rows.Perm rows')
    (hinj : ∀ a ∈ rows, ∀ b ∈ rows, f a = f b → a = b) : orderBy f rows = orderBy f rows' := by
  refine List.Perm.eq_of_pairwise (fun a b ha hb hab hba => ?_) (orderBy_pairwise f rows) (orderBy_pairwise f rows')
    ((orderBy_perm f rows).trans (h.trans (orderBy_perm f rows').symm))
  exact hinj a (mem_orderBy.1 ha) b (h.mem_iff.2 (mem_orderBy.1 hb)) (le_antisymm hab hba)

/-- The first of the rows in descending order of `t`. -/
def latestBy [LinearOrder β] (t : α → β) (rows : List α) : Option α :=
  (orderBy (fun a => OrderDual.toDual (t a)) rows).head?

theorem latestBy_eq_some [LinearOrder β] {t : α → β} {rows : List α} {x : α} (h : latestBy t rows = some x) :
    x ∈ rows ∧ ∀ y ∈ rows, t y ≤ t x := by
  obtain ⟨rest, hl⟩ := List.head?_eq_some_iff.1 h
  have hsorted := orderBy_pairwise (fun a => OrderDual.toDual (t a)) rows
  have hmem : ∀ y, y ∈ x :: rest ↔ y ∈ rows := fun y => by rw [← hl, mem_orderBy]
  rw [hl, List.pairwise_cons] at hsorted
  refine ⟨(hmem x).1 List.mem_cons_self, fun y hy => ?_⟩
  rcases List.mem_cons.1 ((hmem y).2 hy) with rfl | hy
  · exact le_rfl
  · exact hsorted.1 y hy

theorem latestBy_eq_none [LinearOrder β] {t : α → β} {rows : List α} : latestBy t rows = none ↔ rows = [] := by
  rw [latestBy, List.head?_eq_none_iff, ← List.length_eq_zero_iff, (orderBy_perm _ rows).length_eq,
    List.length_eq_zero_iff]

/-- A row that is later than all others is the latest. -/
theorem latestBy_eq [LinearOrder β] {t : α → β} {rows : List α} {x : α} (hx : x ∈ rows)
    (hlatest : ∀ y ∈ rows, y ≠ x → t y < t x) : latestBy t rows = some x := by
  cases h : latestBy t rows with
  | none => rw [latestBy_eq_none.1 h] at hx; cases hx
  | some y =>
    obtain ⟨hy, hge⟩ := latestBy_eq_some h
    by_contra hne
    exact absurd (hge x hx) (not_le.2 (hlatest y hy fun heq => hne (by rw [heq])))

private theorem latestBy_cons [LinearOrder β] (t : α → β) (a : α) (rows : List α) : latestBy t (a :: rows) =
    some (match latestBy t rows with
      | none => a
      | some b => if t b ≤ t a then a else b) := by
  unfold latestBy orderBy
  rw [List.insertionSort_cons]
  cases rows.insertionSort fun a b => OrderDual.toDual (t a) ≤ OrderDual.toDual (t b) with
  | nil => rfl
  | cons b sorted =>
    rw [List.orderedInsert_cons]
    simp only [OrderDual.toDual_le_toDual, List.head?_cons]
    split <;> rfl

/-- Rows below a bound do not matter for what is above it. -/
theorem latestBy_filter [LinearOrder β] (t : α → β) (bound : β) (rows : List α) :
    latestBy t (rows.filter fun x => decide (bound ≤ t x)) =
      (latestBy t rows).filter fun x => decide (bound ≤ t x) := by
  induction rows with
  | nil => rfl
  | cons a rows ih =>
    rw [latestBy_cons]
    by_cases ha : bound ≤ t a
    · rw [List.filter_cons_of_pos (by simpa using ha), latestBy_cons, ih]
      cases latestBy t rows with
      | none => simp [Option.filter, ha]
      | some b =>
        by_cases hb : bound ≤ t b
        · by_cases hle : t b ≤ t a
          · simp [Option.filter, ha, hb, hle]
          · simp [Option.filter, hb, hle]
        · have hle : t b ≤ t a := le_trans (le_of_not_ge hb) ha
          simp [Option.filter, ha, hb, hle]
    · rw [List.filter_cons_of_neg (by simpa using ha), ih]
      cases latestBy t rows with
      | none => simp [Option.filter, ha]
      | some b =>
        by_cases hle : t b ≤ t a
        · have hb : ¬ bound ≤ t b := fun hb => ha (le_trans hb hle)
          simp [Option.filter, ha, hb, hle]
        · simp [Option.filter, hle]

/-- The rows that meet a condition, when at most one does. -/
theorem filter_eq_toList {p : α → Bool} {rows : List α} {o : Option α} (hnodup : rows.Nodup)
    (h : ∀ x, (x ∈ rows ∧ p x = true) ↔ o = some x) : rows.filter p = o.toList := by
  have hmem : ∀ x, x ∈ rows.filter p ↔ x ∈ o.toList := by
    intro x
    rw [List.mem_filter, h x, Option.mem_toList]
  have hsub : o.toList.Nodup := by cases o <;> simp
  have hperm := (List.perm_ext_iff_of_nodup (hnodup.filter p) hsub).2 hmem
  cases o with
  | none => exact List.perm_nil.1 hperm
  | some x => exact List.perm_singleton.1 hperm

/-- The rows that are the first of their key, apart from the keys in `seen`. -/
def firstPer [DecidableEq κ] (key : α → κ) : List κ → List α → List α
  | _, [] => []
  | seen, x :: xs => if key x ∈ seen then firstPer key seen xs else x :: firstPer key (key x :: seen) xs

section FirstPer

variable [DecidableEq κ] {key : α → κ} {rows : List α} {x : α}

/-- A row is kept if it is the first with its key. -/
theorem mem_firstPer {seen : List κ} :
    x ∈ firstPer key seen rows ↔ key x ∉ seen ∧ rows.find? (fun y => decide (key y = key x)) = some x := by
  induction rows generalizing seen with
  | nil => simp [firstPer]
  | cons y rows ih =>
    unfold firstPer
    by_cases hy : key y = key x
    · simp only [List.find?_cons, hy, decide_true]
      split
      · rename_i hs
        rw [ih]
        simp [hs]
      · rename_i hs
        rw [List.mem_cons, ih]
        simp [hs, eq_comm]
    · simp only [List.find?_cons, hy, decide_false]
      split
      · exact ih
      · rw [List.mem_cons, ih]
        have hne : x ≠ y := fun h => hy (h ▸ rfl)
        simp [hne, Ne.symm hy]

/-- The rows kept have different keys. -/
theorem firstPer_nodup (key : α → κ) (seen : List κ) (rows : List α) : ((firstPer key seen rows).map key).Nodup := by
  induction rows generalizing seen with
  | nil => exact List.nodup_nil
  | cons x rows ih =>
    unfold firstPer
    split
    · exact ih seen
    · rw [List.map_cons, List.nodup_cons]
      refine ⟨fun hm => ?_, ih _⟩
      obtain ⟨y, hy, hyx⟩ := List.mem_map.1 hm
      exact (mem_firstPer.1 hy).1 (by simp [hyx])

/-- The first row of a key, in rows sorted by descending time within each key, is the latest row of the key. -/
theorem find?_latest [LinearOrder β] {t : α → β} (hsorted : rows.Pairwise fun a b => key a = key b → t b ≤ t a)
    {k : κ} (hx : rows.find? (fun y => decide (key y = k)) = some x) :
    x ∈ rows ∧ key x = k ∧ ∀ y ∈ rows, key y = k → t y ≤ t x := by
  induction rows with
  | nil => cases hx
  | cons z rows ih =>
    rw [List.pairwise_cons] at hsorted
    rw [List.find?_cons] at hx
    split at hx
    · rename_i hz
      obtain rfl := Option.some.inj hx
      have hzk : key z = k := by simpa using hz
      refine ⟨List.mem_cons_self, hzk, fun y hy hyk => ?_⟩
      rcases List.mem_cons.1 hy with rfl | hy
      · exact le_rfl
      · exact hsorted.1 y hy (hzk.trans hyk.symm)
    · rename_i hz
      obtain ⟨hmem, hkey, hlatest⟩ := ih hsorted.2 hx
      refine ⟨List.mem_cons_of_mem _ hmem, hkey, fun y hy hyk => ?_⟩
      rcases List.mem_cons.1 hy with rfl | hy
      · simp [hyk] at hz
      · exact hlatest y hy hyk

/-- The rows kept from rows sorted by descending time within each key are the latest of their keys, where no two rows
of a key have the same time. -/
theorem mem_firstPer_latest [LinearOrder β] {t : α → β}
    (hsorted : rows.Pairwise fun a b => key a = key b → t b ≤ t a)
    (hinj : ∀ a ∈ rows, ∀ b ∈ rows, key a = key b → t a = t b → a = b) :
    x ∈ firstPer key [] rows ↔ x ∈ rows ∧ ∀ y ∈ rows, key y = key x → t y ≤ t x := by
  rw [mem_firstPer]
  constructor
  · rintro ⟨-, hx⟩
    obtain ⟨hmem, -, hlatest⟩ := find?_latest hsorted hx
    exact ⟨hmem, hlatest⟩
  · rintro ⟨hmem, hlatest⟩
    refine ⟨List.not_mem_nil, ?_⟩
    rcases hf : rows.find? (fun y => decide (key y = key x)) with _ | y
    · have := List.find?_eq_none.1 hf x hmem
      simp at this
    · obtain ⟨hy, hkey, hle⟩ := find?_latest hsorted hf
      have := hinj y hy x hmem hkey (le_antisymm (hlatest y hy hkey) (hle x hmem rfl))
      rw [this]

end FirstPer

end Lib
