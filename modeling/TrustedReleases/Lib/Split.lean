import Mathlib

/-!
# Texts cut at a separator

Cutting a list at a separator and joining its parts are inverse to each other: the parts are the ones of which the list
is joined and in which the separator does not occur.
-/

namespace Lib

variable {α : Type} [BEq α] [LawfulBEq α] {a : α} {s : List α} {parts : List (List α)}

private theorem notMem_of_mem_splitOn {part : List α} (h : part ∈ s.splitOn a) : a ∉ part := by
  induction s generalizing part with
  | nil =>
    have hpart : part = [] := by simpa using h
    simp [hpart]
  | cons x s ih =>
    rw [List.splitOn_cons_eq_if_modifyHead] at h
    split at h
    next =>
      rcases List.mem_cons.1 h with rfl | h
      · exact List.not_mem_nil
      · exact ih h
    next hx =>
      obtain ⟨first, rest, hsplit⟩ := List.exists_cons_of_ne_nil (List.splitOn_ne_nil a s)
      rw [hsplit] at h ih
      rcases List.mem_cons.1 h with rfl | h
      · have hfirst : a ∉ first := ih List.mem_cons_self
        have hne : a ≠ x := fun heq => hx (beq_iff_eq.2 heq.symm)
        simp [hne, hfirst]
      · exact ih (List.mem_cons_of_mem first h)

/-- The parts of a list between its separators. -/
theorem splitOn_eq_iff (hne : parts ≠ []) :
    s.splitOn a = parts ↔ s = [a].intercalate parts ∧ ∀ part ∈ parts, a ∉ part := by
  constructor
  · rintro rfl
    exact ⟨(List.intercalate_splitOn a).symm, fun part hpart => notMem_of_mem_splitOn hpart⟩
  · rintro ⟨rfl, hparts⟩
    exact List.splitOn_intercalate a hparts hne

end Lib
