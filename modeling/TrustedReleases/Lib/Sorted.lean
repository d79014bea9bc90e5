import Mathlib

/-!
# Parts of sorted lists

A sorted list is its parts of equal elements, in the order of what they are sorted by (`flatMap_filter_of_sorted`).
-/

namespace Lib

variable {α κ : Type} [LinearOrder κ] {f : α → κ} {k : κ} {ks : List κ} {l : List α}

/-- What sorts first is at the front of a sorted list. -/
theorem filter_append_of_least (hl : l.Pairwise fun a b => f a ≤ f b) (hleast : ∀ a ∈ l, k ≤ f a) :
    l.filter (fun a => decide (f a = k)) ++ l.filter (fun a => decide (f a ≠ k)) = l := by
  induction l with
  | nil => rfl
  | cons a l ih =>
    obtain ⟨hfirst, hrest⟩ := List.pairwise_cons.1 hl
    rw [List.forall_mem_cons] at hleast
    by_cases ha : f a = k
    · rw [List.filter_cons_of_pos (by simpa using ha), List.filter_cons_of_neg (by simpa using ha), List.cons_append,
        ih hrest hleast.2]
    · have hlater : ∀ b ∈ l, f b ≠ k := by
        intro b hb heq
        refine ha (le_antisymm ?_ hleast.1)
        rw [← heq]
        exact hfirst b hb
      have hnone : l.filter (fun b => decide (f b = k)) = [] := by
        apply List.filter_eq_nil_iff.2
        intro b hb
        simpa using hlater b hb
      have hall : l.filter (fun b => decide (f b ≠ k)) = l := by
        apply List.filter_eq_self.2
        intro b hb
        simpa using hlater b hb
      rw [List.filter_cons_of_neg (by simpa using ha), List.filter_cons_of_pos (by simpa using ha), hnone, hall]
      rfl

/-- A sorted list is put together from its parts of equal elements. -/
theorem flatMap_filter_of_sorted (hks : ks.Pairwise (· < ·)) (hl : l.Pairwise fun a b => f a ≤ f b)
    (hmem : ∀ a ∈ l, f a ∈ ks) : ks.flatMap (fun k => l.filter fun a => decide (f a = k)) = l := by
  induction ks generalizing l with
  | nil =>
    cases l with
    | nil => rfl
    | cons a l => cases hmem a List.mem_cons_self
  | cons k ks ih =>
    obtain ⟨hfirst, hrest⟩ := List.pairwise_cons.1 hks
    have hleast : ∀ a ∈ l, k ≤ f a := by
      intro a ha
      rcases List.mem_cons.1 (hmem a ha) with heq | hin
      · rw [heq]
      · exact (hfirst _ hin).le
    have hothers : ks.flatMap (fun k' => l.filter fun a => decide (f a = k')) =
        ks.flatMap fun k' => (l.filter fun a => decide (f a ≠ k)).filter fun a => decide (f a = k') := by
      apply List.flatMap_congr
      intro k' hk'
      rw [List.filter_filter]
      apply List.filter_congr
      intro a _
      have hne : f a = k' → f a ≠ k := by
        intro heq heq'
        have hlt := hfirst k' hk'
        rw [← heq, ← heq'] at hlt
        exact lt_irrefl _ hlt
      by_cases heq : f a = k'
      · rw [decide_eq_true heq, decide_eq_true (hne heq)]
        rfl
      · rw [decide_eq_false heq]
        rfl
    rw [List.flatMap_cons, hothers, ih hrest (hl.filter _), filter_append_of_least hl hleast]
    intro a ha
    obtain ⟨ha, hne⟩ := List.mem_filter.1 ha
    exact (List.mem_cons.1 (hmem a ha)).resolve_left (by simpa using hne)

end Lib
