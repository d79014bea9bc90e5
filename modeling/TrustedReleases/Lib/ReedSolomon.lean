import Mathlib

/-!
# Codes with consecutive powers as roots

A list over a field is read as a polynomial, its first element being the leading coefficient.  If two lists of one
length agree at `d` consecutive powers of an element whose powers up to that length are distinct, then they are equal
or differ in more than `d` positions (`eq_of_horner`).
-/

namespace Lib

/-- In how many positions two lists differ. -/
def differences {α : Type} [DecidableEq α] (u v : List α) : Nat :=
  ((Finset.range (max u.length v.length)).filter fun k : ℕ => u[k]? ≠ v[k]?).card

theorem differences_congr {α β : Type} [DecidableEq α] [DecidableEq β] {u v : List α} {u' v' : List β}
    (hu : u.length = u'.length) (hv : v.length = v'.length) (h : ∀ k : ℕ, u[k]? = v[k]? → u'[k]? = v'[k]?) :
    differences u' v' ≤ differences u v := by
  unfold differences
  rw [hu, hv]
  exact Finset.card_le_card (Finset.monotone_filter_right _ fun k _ hk => mt (h k) hk)

section Field

variable {F : Type} [Field F]

/-- The value of a polynomial, given by its coefficients from the leading one down. -/
def horner (ρ : F) (cs : List F) : F := cs.foldl (fun value c => value * ρ + c) 0

theorem horner_append (ρ : F) (cs : List F) (c : F) : horner ρ (cs ++ [c]) = horner ρ cs * ρ + c := by
  simp [horner]

/-- The value as a sum over the positions. -/
theorem horner_eq_sum (ρ : F) (cs : List F) :
    horner ρ cs = ∑ i ∈ Finset.range cs.length, cs.getD i 0 * ρ ^ (cs.length - 1 - i) := by
  induction cs using List.reverseRecOn with
  | nil => rfl
  | append_singleton cs c ih =>
    rw [horner_append, ih, List.length_append, List.length_singleton, Finset.sum_range_succ, Finset.sum_mul]
    congr 1
    · refine Finset.sum_congr rfl fun i hi => ?_
      have hlt : i < cs.length := Finset.mem_range.1 hi
      have hexp : cs.length + 1 - 1 - i = cs.length - 1 - i + 1 := by omega
      rw [List.getD_append _ _ _ _ hlt, hexp, pow_succ, mul_assoc]
    · simp

/-- Values with vanishing power sums at distinct points, as many sums as points, are zero. -/
theorem eq_zero_of_powerSums {s : Finset ℕ} {x y : ℕ → F} (hx : Set.InjOn x s)
    (h : ∀ j < s.card, ∑ i ∈ s, y i * x i ^ j = 0) : ∀ i ∈ s, y i = 0 := by
  have hinj : Function.Injective fun k : Fin s.card => x (s.equivFin.symm k) := by
    intro k l hkl
    have hval := hx (s.equivFin.symm k).2 (s.equivFin.symm l).2 hkl
    exact s.equivFin.symm.injective (Subtype.ext hval)
  have hzero := Matrix.eq_zero_of_forall_pow_sum_mul_pow_eq_zero (v := fun k => y (s.equivFin.symm k)) hinj (by
    intro j
    rw [Equiv.sum_comp s.equivFin.symm fun i : s => y i * x i ^ (j : ℕ)]
    rw [Finset.sum_coe_sort s fun i => y i * x i ^ (j : ℕ)]
    exact h j j.2)
  intro i hi
  have hat := congrFun hzero (s.equivFin ⟨i, hi⟩)
  simpa using hat

variable [DecidableEq F]

/-- Two lists that agree at `d` consecutive powers differ in more than `d` positions, unless they are equal. -/
theorem eq_of_horner {α : F} {b d : ℕ} {us vs : List F} (hlength : us.length = vs.length)
    (hα : ∀ i < us.length, ∀ j < us.length, α ^ i = α ^ j → i = j) (hne : α ≠ 0)
    (h : ∀ j < d, horner (α ^ (b + j)) us = horner (α ^ (b + j)) vs) (hd : differences us vs ≤ d) : us = vs := by
  set n := us.length with hn
  -- the positions where the lists differ, with the differences there
  set s := (Finset.range n).filter fun k : ℕ => us[k]? ≠ vs[k]? with hs
  set y : ℕ → F := fun i => (us.getD i 0 - vs.getD i 0) * α ^ (b * (n - 1 - i)) with hy
  have hcard : s.card ≤ d := by
    rwa [differences, ← hlength, max_self] at hd
  have hmem : ∀ i, i ∈ s ↔ i < n ∧ us[i]? ≠ vs[i]? := by
    intro i
    rw [hs, Finset.mem_filter, Finset.mem_range]
  have hpoints : Set.InjOn (fun i => α ^ (n - 1 - i)) s := by
    intro i hi j hj hij
    have hi' := ((hmem i).1 hi).1
    have hj' := ((hmem j).1 hj).1
    have heq := hα (n - 1 - i) (by omega) (n - 1 - j) (by omega) hij
    omega
  have hsums : ∀ j < s.card, ∑ i ∈ s, y i * (α ^ (n - 1 - i)) ^ j = 0 := by
    intro j hj
    have hall : ∑ i ∈ Finset.range n, y i * (α ^ (n - 1 - i)) ^ j = 0 := by
      have heq := h j (by omega)
      rw [horner_eq_sum, horner_eq_sum, ← hlength, ← sub_eq_zero, ← Finset.sum_sub_distrib] at heq
      rw [← heq]
      refine Finset.sum_congr rfl fun i _ => ?_
      have hpow : α ^ (b * (n - 1 - i)) * (α ^ (n - 1 - i)) ^ j = (α ^ (b + j)) ^ (n - 1 - i) := by
        rw [← pow_mul, ← pow_mul, ← pow_add, add_mul, mul_comm (n - 1 - i) j]
      rw [hy, mul_assoc, hpow, sub_mul]
    rw [← hall]
    refine Finset.sum_subset (Finset.filter_subset _ _) fun i hi hnot => ?_
    have hsame : us[i]? = vs[i]? := by
      by_contra hdiff
      exact hnot ((hmem i).2 ⟨Finset.mem_range.1 hi, hdiff⟩)
    have hzero : us.getD i 0 - vs.getD i 0 = 0 := by
      rw [List.getD_eq_getElem?_getD, List.getD_eq_getElem?_getD, hsame, sub_self]
    simp only [hy, hzero, zero_mul]
  have hzero := eq_zero_of_powerSums hpoints hsums
  refine List.ext_getElem? fun i => ?_
  by_cases hi : i < n
  · by_contra hdiff
    have hyi := hzero i ((hmem i).2 ⟨hi, hdiff⟩)
    rcases mul_eq_zero.1 hyi with hsub | hpow
    · have hi' : i < vs.length := by omega
      rw [List.getElem?_eq_getElem hi, List.getElem?_eq_getElem hi'] at hdiff
      rw [List.getD_eq_getElem _ _ hi, List.getD_eq_getElem _ _ hi'] at hsub
      exact hdiff (congrArg some (sub_eq_zero.1 hsub))
    · exact absurd hpow (pow_ne_zero _ hne)
  · rw [List.getElem?_eq_none (by omega), List.getElem?_eq_none (by omega)]

end Field

end Lib
