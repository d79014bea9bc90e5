import TrustedReleases.Lib.Except

/-!
# Programs that fail exactly where they should

What is known of a program that fails with an error of a kind exactly where something is bad, and otherwise returns a
known result.  Such programs are put together one after the other and in loops.
-/

namespace Lib

variable {ε σ τ α γ : Type} {kind : ε → Prop} {bad bad' : Prop} {result : σ}

/-- A program fails with an error of a kind where something is bad, and else returns a result. -/
structure Settles (kind : ε → Prop) (bad : Prop) (result : σ) (outcome : Except ε σ) : Prop where
  rejects : bad → ∃ e, outcome = .error e ∧ kind e
  accepts : ¬ bad → outcome = .ok result

namespace Settles

theorem ok (h : ¬ bad) : Settles kind bad result (.ok result) := ⟨fun hbad => absurd hbad h, fun _ => rfl⟩

theorem error {e : ε} (h : bad) (he : kind e) : Settles kind bad result (.error e) :=
  ⟨fun _ => ⟨e, rfl, he⟩, fun hgood => absurd h hgood⟩

theorem congr {outcome : Except ε σ} (h : Settles kind bad result outcome) (hiff : bad ↔ bad') :
    Settles kind bad' result outcome :=
  ⟨fun hbad => h.rejects (hiff.2 hbad), fun hgood => h.accepts fun hbad => hgood (hiff.1 hbad)⟩

/-- A check. -/
theorem raiseIf {p : Prop} [Decidable p] {e : ε} (he : kind e) : Settles kind p () (raiseIf p e) := by
  by_cases h : p
  · rw [Lib.raiseIf, if_pos h]
    exact error h he
  · rw [Lib.raiseIf, if_neg h]
    exact ok h

/-- One program after the other. -/
theorem bind {outcome : Except ε σ} {f : σ → Except ε τ} {result' : τ} (h : Settles kind bad result outcome)
    (h' : ¬ bad → Settles kind bad' result' (f result)) : Settles kind (bad ∨ bad') result' (outcome >>= f) := by
  by_cases hbad : bad
  · obtain ⟨e, herror, he⟩ := h.rejects hbad
    rw [herror, error_bind]
    exact error (Or.inl hbad) he
  · rw [h.accepts hbad, ok_bind]
    exact (h' hbad).congr ⟨Or.inr, fun hor => hor.resolve_left hbad⟩

/-- What follows changes the result only. -/
theorem map {outcome : Except ε σ} {f : σ → Except ε τ} {result' : τ} (h : Settles kind bad result outcome)
    (h' : f result = .ok result') : Settles kind bad result' (outcome >>= f) := by
  have hrest : ¬ bad → Settles kind False result' (f result) := by
    intro _
    rw [h']
    exact ok not_false
  exact (h.bind hrest).congr ⟨fun hor => hor.resolve_right not_false, Or.inl⟩

/-- A loop.  The states that it goes through stand for those of a loop that does not fail. -/
theorem foldlM {l : List α} {step : σ → α → Except ε σ} {next : γ → α → γ} {state : γ → σ} {bad : α → Prop} {c : γ}
    (h : ∀ done a rest, l = done ++ a :: rest → Settles kind (bad a) (state (next (done.foldl next c) a))
      (step (state (done.foldl next c)) a)) :
    Settles kind (∃ a ∈ l, bad a) (state (l.foldl next c)) (l.foldlM step (state c)) := by
  induction l generalizing c with
  | nil => exact ok (by simp)
  | cons a l ih =>
    have hhead := h [] a l rfl
    have htail : Settles kind (∃ a ∈ l, bad a) (state (l.foldl next (next c a)))
        (l.foldlM step (state (next c a))) := by
      apply ih
      intro done b rest hsplit
      exact h (a :: done) b rest (by rw [hsplit]; rfl)
    rw [List.foldlM_cons, List.foldl_cons]
    exact (hhead.bind fun _ => htail).congr (by simp)

end Settles

end Lib
