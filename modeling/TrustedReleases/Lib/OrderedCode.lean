import Mathlib

/-!
# Ordered codes

A code for which two different values have codes that differ before either of them ends, with the lesser element in the
code of the value that comes before.  The codes of two lists, one code after the other without anything between them,
then are ordered as the lists are from the left (`OrderedCode.flatMap_lt_iff`), and are equal only for equal lists
(`OrderedCode.flatMap_inj`).
-/

namespace Lib

variable {α β : Type} [LinearOrder β]

/-- At the first place where the two lists differ, neither has ended and the first has the lesser element. -/
def Diverges (x y : List β) : Prop := ∃ front b c x' y', x = front ++ b :: x' ∧ y = front ++ c :: y' ∧ b < c

theorem Diverges.head {b c : β} (h : b < c) (x y : List β) : Diverges (b :: x) (c :: y) := ⟨[], b, c, x, y, rfl, rfl, h⟩

theorem Diverges.append_left {x y : List β} (h : Diverges x y) (front : List β) : Diverges (front ++ x) (front ++ y) := by
  obtain ⟨front', b, c, x', y', rfl, rfl, hlt⟩ := h
  exact ⟨front ++ front', b, c, x', y', by simp, by simp, hlt⟩

theorem Diverges.append_right {x y : List β} (h : Diverges x y) (s t : List β) : Diverges (x ++ s) (y ++ t) := by
  obtain ⟨front, b, c, x', y', rfl, rfl, hlt⟩ := h
  exact ⟨front, b, c, x' ++ s, y' ++ t, by simp, by simp, hlt⟩

theorem Diverges.map {γ : Type} [LinearOrder γ] {x y : List β} {f : β → γ} (h : Diverges x y)
    (hf : ∀ b ∈ x, ∀ c ∈ y, b < c → f b < f c) : Diverges (x.map f) (y.map f) := by
  obtain ⟨front, b, c, x', y', rfl, rfl, hlt⟩ := h
  refine ⟨front.map f, f b, f c, x'.map f, y'.map f, by simp, by simp, ?_⟩
  exact hf b (by simp) c (by simp) hlt

theorem Diverges.lt {x y : List β} (h : Diverges x y) : x < y := by
  obtain ⟨front, b, c, x', y', rfl, rfl, hlt⟩ := h
  apply List.append_left_lt
  exact List.Lex.rel hlt

/-- Of two lists of one length, the lesser one differs from the other before they end. -/
theorem diverges_of_lt {x y : List β} (hlength : x.length = y.length) (h : x < y) : Diverges x y := by
  induction x generalizing y with
  | nil =>
    have hnil : y = [] := List.length_eq_zero_iff.1 hlength.symm
    rw [hnil] at h
    exact absurd h (List.lt_irrefl [])
  | cons b x ih =>
    cases y with
    | nil => cases hlength
    | cons c y =>
      rcases List.cons_lt_cons_iff.1 h with hlt | ⟨rfl, hlt⟩
      · exact .head hlt x y
      · have hrest := ih (Nat.succ.inj hlength) hlt
        exact hrest.append_left [b]

structure OrderedCode (valid : α → Prop) (before : α → α → Prop) (code : α → List β) : Prop where
  nonempty : ∀ a, valid a → code a ≠ []
  diverges : ∀ a b, valid a → valid b → before a b → Diverges (code a) (code b)
  total : ∀ a b, valid a → valid b → a ≠ b → before a b ∨ before b a

namespace OrderedCode

variable {valid : α → Prop} {before : α → α → Prop} {code : α → List β} {as bs : List α}

private theorem flatMap_lt (h : OrderedCode valid before code) (has : ∀ a ∈ as, valid a) (hbs : ∀ b ∈ bs, valid b)
    (hlex : List.Lex before as bs) : as.flatMap code < bs.flatMap code := by
  induction hlex with
  | @nil b bs =>
    have hne : code b ++ bs.flatMap code ≠ [] := by
      have hcode := h.nonempty b (hbs b List.mem_cons_self)
      simp [hcode]
    rw [List.flatMap_nil, List.flatMap_cons]
    obtain ⟨c, rest, heq⟩ := List.exists_cons_of_ne_nil hne
    rw [heq]
    exact List.nil_lt_cons c rest
  | cons _ ih =>
    rw [List.forall_mem_cons] at has hbs
    rw [List.flatMap_cons, List.flatMap_cons]
    exact List.append_left_lt (ih has.2 hbs.2)
  | @rel a as b bs hbefore =>
    rw [List.forall_mem_cons] at has hbs
    rw [List.flatMap_cons, List.flatMap_cons]
    exact ((h.diverges a b has.1 hbs.1 hbefore).append_right _ _).lt

private theorem lex_total (h : OrderedCode valid before code) (has : ∀ a ∈ as, valid a) (hbs : ∀ b ∈ bs, valid b)
    (hne : as ≠ bs) : List.Lex before as bs ∨ List.Lex before bs as := by
  induction as generalizing bs with
  | nil =>
    cases bs with
    | nil => exact absurd rfl hne
    | cons b bs => exact .inl .nil
  | cons a as ih =>
    cases bs with
    | nil => exact .inr .nil
    | cons b bs =>
      rw [List.forall_mem_cons] at has hbs
      by_cases hab : a = b
      · rw [hab] at hne ⊢
        have hrest : as ≠ bs := fun heq => hne (by rw [heq])
        exact (ih has.2 hbs.2 hrest).imp .cons .cons
      · exact (h.total a b has.1 hbs.1 hab).imp .rel .rel

theorem flatMap_lt_iff (h : OrderedCode valid before code) (has : ∀ a ∈ as, valid a) (hbs : ∀ b ∈ bs, valid b) :
    as.flatMap code < bs.flatMap code ↔ List.Lex before as bs := by
  constructor
  · intro hlt
    by_contra hnot
    have hne : as ≠ bs := by
      intro heq
      rw [heq] at hlt
      exact List.lt_irrefl _ hlt
    have hother := h.flatMap_lt hbs has ((h.lex_total has hbs hne).resolve_left hnot)
    exact lt_asymm hlt hother
  · exact h.flatMap_lt has hbs

theorem flatMap_inj (h : OrderedCode valid before code) (has : ∀ a ∈ as, valid a) (hbs : ∀ b ∈ bs, valid b)
    (heq : as.flatMap code = bs.flatMap code) : as = bs := by
  by_contra hne
  rcases h.lex_total has hbs hne with hlex | hlex
  · have hlt := h.flatMap_lt has hbs hlex
    rw [heq] at hlt
    exact lt_irrefl _ hlt
  · have hlt := h.flatMap_lt hbs has hlex
    rw [heq] at hlt
    exact lt_irrefl _ hlt

end OrderedCode

end Lib
