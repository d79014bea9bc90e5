import TrustedReleases.Lib.Except

/-!
# Runs

Runs of a system, given by the relation of a step (`Reaches`) or by a function of the state and an event that may
fail (`runAll`).  `Along` says that a condition holds at every step of a run, in the state before the step; for a
function that does not fail, `StepWhen` gives the steps that meet a condition, and `moments` the events of a run with the
states in which they happen.
-/

namespace Lib

variable {σ ε err : Type}

/-! ### Step relations -/

/-- The states after any number of steps. -/
abbrev Reaches (Step : σ → σ → Prop) : σ → σ → Prop := Relation.ReflTransGen Step

/-- An invariant of every step is one of every run. -/
theorem Reaches.invariant {Step : σ → σ → Prop} {I : σ → Prop} (keep : ∀ s s', I s → Step s s' → I s') {s s' : σ}
    (hrun : Reaches Step s s') (h : I s) : I s' := by
  induction hrun with
  | refl => exact h
  | tail _ hstep ih => exact keep _ _ ih hstep

/-- The steps of a function of the state and an event that meet a condition. -/
def StepWhen (step : σ → ε → σ) (P : σ → ε → Prop) (s s' : σ) : Prop := ∃ e, P s e ∧ s' = step s e

/-- A run whose steps all meet a condition keeps what each of them keeps. -/
theorem Reaches.keeps {step : σ → ε → σ} {P : σ → ε → Prop} {I : σ → Prop} (keep : ∀ s e, I s → P s e → I (step s e))
    {s s' : σ} (hrun : Reaches (StepWhen step P) s s') (h : I s) : I s' := by
  refine hrun.invariant ?_ h
  rintro s _ hs ⟨e, hP, rfl⟩
  exact keep s e hs hP

theorem Reaches.event {step : σ → ε → σ} {P : σ → ε → Prop} {s s' : σ} (hrun : Reaches (StepWhen step P) s s') (e : ε)
    (hP : P s' e) : Reaches (StepWhen step P) s (step s' e) := hrun.tail ⟨e, hP, rfl⟩

/-- The condition holds at every event of a list, in the state before it. -/
def Throughout (step : σ → ε → σ) (P : σ → ε → Prop) : σ → List ε → Prop
  | _, [] => True
  | s, e :: es => P s e ∧ Throughout step P (step s e) es

theorem Reaches.foldl {step : σ → ε → σ} {P : σ → ε → Prop} {s : σ} {es : List ε} (h : Throughout step P s es) :
    Reaches (StepWhen step P) s (es.foldl step s) := by
  induction es generalizing s with
  | nil => exact .refl
  | cons e es ih => exact .head ⟨e, h.1, rfl⟩ (ih h.2)

theorem Throughout.append {step : σ → ε → σ} {P : σ → ε → Prop} {s : σ} {es es' : List ε} :
    Throughout step P s (es ++ es') ↔ Throughout step P s es ∧ Throughout step P (es.foldl step s) es' := by
  induction es generalizing s with
  | nil => exact (iff_of_eq (true_and _)).symm
  | cons e es ih => exact (and_congr_right fun _ => ih).trans and_assoc.symm

/-- The events of a run, each with the state in which it happens. -/
def moments (step : σ → ε → σ) : σ → List ε → List (σ × ε)
  | _, [] => []
  | s, e :: es => (s, e) :: moments step (step s e) es

/-- An invariant of the state and of what has happened. -/
theorem Throughout.remembers {step : σ → ε → σ} {P : σ → ε → Prop} {I : List (σ × ε) → σ → Prop}
    (keep : ∀ past s e, I past s → P s e → I (past ++ [(s, e)]) (step s e)) {past : List (σ × ε)} {s : σ} {es : List ε}
    (hrun : Throughout step P s es) (h : I past s) : I (past ++ moments step s es) (es.foldl step s) := by
  induction es generalizing past s with
  | nil =>
    rw [moments, List.append_nil]
    exact h
  | cons e es ih =>
    have hrest := ih hrun.2 (keep past s e h hrun.1)
    rw [List.append_assoc] at hrest
    exact hrest

theorem Throughout.of_forall {step : σ → ε → σ} {P : σ → ε → Prop} (h : ∀ s e, P s e) (s : σ) (es : List ε) :
    Throughout step P s es := by
  induction es generalizing s with
  | nil => trivial
  | cons e es ih => exact ⟨h s e, ih (step s e)⟩

instance Throughout.decidable {step : σ → ε → σ} {P : σ → ε → Prop} [dec : ∀ s e, Decidable (P s e)] :
    ∀ (s : σ) (es : List ε), Decidable (Throughout step P s es)
  | _, [] => .isTrue trivial
  | s, e :: es => @instDecidableAnd _ _ (dec s e) (Throughout.decidable (step s e) es)

/-! ### Step functions that can fail -/

/-- The events one after the other. -/
def runAll (step : σ → ε → Except err σ) (s : σ) (es : List ε) : Except err σ := es.foldlM step s

/-- The condition holds at every step of the run. -/
def Along (step : σ → ε → Except err σ) (P : σ → ε → Prop) : σ → List ε → Prop
  | _, [] => True
  | s, e :: es => P s e ∧ ∀ s', step s e = .ok s' → Along step P s' es

variable {step : σ → ε → Except err σ} {P Q : σ → ε → Prop} {s s' : σ}

private theorem runAll_cons {e : ε} {es : List ε} (h : runAll step s (e :: es) = .ok s') :
    ∃ s₁, step s e = .ok s₁ ∧ runAll step s₁ es = .ok s' := bind_eq_ok h

theorem Along.cons {e : ε} {es : List ε} {t : σ} (hstep : step s e = .ok t) (hP : P s e) (h : Along step P t es) :
    Along step P s (e :: es) := by
  refine ⟨hP, fun t' ht' => ?_⟩
  rw [hstep] at ht'
  rwa [← Except.ok.inj ht']

/-- A property that every step under the condition keeps holds at the end. -/
theorem Along.keeps {I : σ → Prop} (keep : ∀ s e s', P s e → step s e = .ok s' → I s → I s') {es : List ε}
    (hrun : runAll step s es = .ok s') (hP : Along step P s es) (h : I s) : I s' := by
  induction es generalizing s with
  | nil =>
    obtain rfl := Except.ok.inj hrun
    exact h
  | cons e es ih =>
    obtain ⟨s₁, hstep, hrest⟩ := runAll_cons hrun
    exact ih hrest (hP.2 s₁ hstep) (keep s e s₁ hP.1 hstep h)

/-- A property of histories: if a step from a good state ends in a good state exactly when `Q` holds at the step, and
no step repairs a bad state, then a run ends in a good state exactly when `Q` holds at all of its steps. -/
theorem Along.good_iff (Good : σ → Prop) (back : ∀ s e s', P s e → step s e = .ok s' → Good s' → Good s)
    (one : ∀ s e s', P s e → step s e = .ok s' → Good s → (Good s' ↔ Q s e)) {es : List ε}
    (hrun : runAll step s es = .ok s') (hP : Along step P s es) (h : Good s) : Good s' ↔ Along step Q s es := by
  induction es generalizing s with
  | nil =>
    obtain rfl := Except.ok.inj hrun
    exact ⟨fun _ => trivial, fun _ => h⟩
  | cons e es ih =>
    obtain ⟨s₁, hstep, hrest⟩ := runAll_cons hrun
    have hone := one s e s₁ hP.1 hstep h
    have hback : Good s' → Good s₁ := by
      have hkeep : ¬ Good s₁ → ¬ Good s' :=
        Along.keeps (I := fun t => ¬ Good t) (fun t e t' hp ht hbad hgood => hbad (back t e t' hp ht hgood)) hrest
          (hP.2 s₁ hstep)
      exact fun hgood => by_contra fun hbad => hkeep hbad hgood
    constructor
    · intro hgood
      have h₁ := hback hgood
      exact Along.cons hstep (hone.1 h₁) ((ih hrest (hP.2 s₁ hstep) h₁).1 hgood)
    · intro hQ
      have h₁ := hone.2 hQ.1
      exact (ih hrest (hP.2 s₁ hstep) h₁).2 (hQ.2 s₁ hstep)

end Lib
