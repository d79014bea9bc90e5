import TrustedReleases.Lib.Query

/-!
# Lists with further elements

`Graft further as bs` says that `bs` is `as` with further elements in any places.  What a filter, a search or a choice of
the latest make of the two lists is the same as long as the further elements do not count for it.
-/

namespace Lib

/-- The second list is the first with further elements in any places. -/
inductive Graft {α : Type} (further : α → Prop) : List α → List α → Prop
  | nil : Graft further [] []
  | keep (a : α) {as bs : List α} : Graft further as bs → Graft further (a :: as) (a :: bs)
  | add {b : α} {as bs : List α} : further b → Graft further as bs → Graft further as (b :: bs)

namespace Graft

variable {α : Type} {further : α → Prop} {as bs : List α}

/-- A filter that keeps none of the further elements. -/
theorem filter_eq {p : α → Bool} (h : Graft further as bs) (hp : ∀ b, further b → p b = false) :
    bs.filter p = as.filter p := by
  induction h with
  | nil => rfl
  | keep a _ ih => rw [List.filter_cons, List.filter_cons, ih]
  | add hb _ ih =>
    have hskip := hp _ hb
    rw [List.filter_cons_of_neg (by simp [hskip]), ih]

theorem any_eq {p : α → Bool} (h : Graft further as bs) (hp : ∀ b, further b → p b = false) : bs.any p = as.any p := by
  induction h with
  | nil => rfl
  | keep a _ ih => rw [List.any_cons, List.any_cons, ih]
  | add hb _ ih =>
    have hskip := hp _ hb
    rw [List.any_cons, hskip, Bool.false_or, ih]

theorem imp {further' : α → Prop} (h : Graft further as bs) (himp : ∀ b, further b → further' b) :
    Graft further' as bs := by
  induction h with
  | nil => exact .nil
  | keep a _ ih => exact .keep a ih
  | add hb _ ih => exact .add (himp _ hb) ih

theorem append {as' bs' : List α} (h : Graft further as bs) (h' : Graft further as' bs') :
    Graft further (as ++ as') (bs ++ bs') := by
  induction h with
  | nil => exact h'
  | keep a _ ih => exact .keep a ih
  | add hb _ ih => exact .add hb ih

theorem filter (h : Graft further as bs) (p : α → Bool) :
    Graft (fun b => further b ∧ p b = true) (as.filter p) (bs.filter p) := by
  induction h with
  | nil => exact .nil
  | keep a _ ih =>
    by_cases ha : p a = true
    · rw [List.filter_cons_of_pos ha, List.filter_cons_of_pos ha]
      exact .keep a ih
    · rwa [List.filter_cons_of_neg ha, List.filter_cons_of_neg ha]
  | @add b _ _ hb _ ih =>
    by_cases hp : p b = true
    · rw [List.filter_cons_of_pos hp]
      exact .add ⟨hb, hp⟩ ih
    · rwa [List.filter_cons_of_neg hp]

private theorem nil_left (h : Graft further [] bs) (hfurther : ∀ b, ¬ further b) : bs = [] := by
  cases h with
  | nil => rfl
  | add hb _ => exact absurd hb (hfurther _)

private theorem count_le [DecidableEq α] (h : Graft further as bs) (a : α) : as.count a ≤ bs.count a := by
  induction h with
  | nil => exact le_refl _
  | keep b _ ih => rw [List.count_cons, List.count_cons]; omega
  | add _ _ ih => rw [List.count_cons]; omega

/-- The further elements are those that are there more often than before. -/
theorem of_added [DecidableEq α] {further' : α → Prop} (h : Graft further as bs)
    (hadded : ∀ b ∈ bs, as.count b < bs.count b → further' b) : Graft further' as bs := by
  induction h with
  | nil => exact .nil
  | keep a h ih =>
    refine .keep a (ih fun b hb hlt => hadded b (List.mem_cons_of_mem _ hb) ?_)
    rw [List.count_cons, List.count_cons]
    omega
  | @add b as bs hb h ih =>
    refine .add (hadded b List.mem_cons_self ?_) (ih fun c hc hlt => hadded c (List.mem_cons_of_mem _ hc) ?_)
    · rw [List.count_cons_self]
      exact Nat.lt_succ_of_le (h.count_le b)
    · rw [List.count_cons]
      omega

/-- Further elements that something is later than do not become the latest. -/
theorem latestBy_eq {β : Type} [LinearOrder β] {t : α → β} (h : Graft (fun b => ∃ a ∈ as, t b < t a) as bs) :
    latestBy t bs = latestBy t as := by
  cases hlatest : latestBy t as with
  | none =>
    rw [latestBy_eq_none] at hlatest ⊢
    rw [hlatest] at h
    exact h.nil_left fun b ⟨a, ha, _⟩ => List.not_mem_nil ha
  | some m =>
    have hm := (latestBy_eq_some hlatest).2
    have hfilter : bs.filter (fun x => decide (t m ≤ t x)) = as.filter fun x => decide (t m ≤ t x) :=
      h.filter_eq fun b ⟨a, ha, hlt⟩ => decide_eq_false (not_le.2 (lt_of_lt_of_le hlt (hm a ha)))
    have hbs := latestBy_filter t (t m) bs
    rw [hfilter, latestBy_filter, hlatest, Option.filter_some_pos (by simp)] at hbs
    exact (Option.filter_eq_some_iff.1 hbs.symm).1

end Graft

end Lib
