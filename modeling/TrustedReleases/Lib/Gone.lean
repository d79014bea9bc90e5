import TrustedReleases.Lib.Run

/-!
# Names that do not come back

A system that gives out names, where a name that is given out has not been used before.  What has been used stays used,
and a used name that is not held by anything is never held again.
-/

namespace Lib

variable {σ κ : Type} {Step : σ → σ → Prop} {live used : σ → κ → Prop}

/-- A step keeps the used names, and whatever it makes live was live or is new. -/
def FreshNames (Step : σ → σ → Prop) (live used : σ → κ → Prop) : Prop :=
  ∀ s s', Step s s' → (∀ k, used s k → used s' k) ∧ ∀ k, live s' k → live s k ∨ ¬ used s k

/-- A name has been used and is not live. -/
def Gone (live used : σ → κ → Prop) (s : σ) (k : κ) : Prop := used s k ∧ ¬ live s k

/-- What is gone stays gone. -/
theorem Gone.stays (hfresh : FreshNames Step live used) {s s' : σ} (hrun : Reaches Step s s') {k : κ}
    (h : Gone live used s k) : Gone live used s' k := by
  refine hrun.invariant (I := fun t => Gone live used t k) (fun t t' ht hstep => ?_) h
  obtain ⟨hused, hlive⟩ := hfresh t t' hstep
  refine ⟨hused k ht.1, fun hlive' => ?_⟩
  rcases hlive k hlive' with hold | hnew
  · exact ht.2 hold
  · exact hnew ht.1

end Lib
