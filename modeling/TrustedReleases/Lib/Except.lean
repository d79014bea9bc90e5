import TrustedReleases.Lib.Dict

/-!
# Programs that can fail

The equations that run a program in `Except` up to its first failure, the checks that make it fail (`raiseIf`,
`demand`) and the rules for a `for` loop whose body may raise (`List.foldlM`).
-/

namespace Lib

variable {ε ε' α β σ : Type}

@[simp] theorem ok_bind (a : α) (f : α → Except ε β) : (Except.ok a >>= f) = f a := rfl

@[simp] theorem error_bind (e : ε) (f : α → Except ε β) : (Except.error e >>= f) = .error e := rfl

@[simp] theorem pure_eq_ok (a : α) : (pure a : Except ε α) = .ok a := rfl

@[simp] theorem mapError_ok (f : ε → ε') (a : α) : (Except.ok a).mapError f = .ok a := rfl

@[simp] theorem mapError_error (f : ε → ε') (e : ε) : (Except.error e : Except ε α).mapError f = .error (f e) := rfl

theorem mapError_eq_ok {x : Except ε α} {f : ε → ε'} {a : α} : x.mapError f = .ok a ↔ x = .ok a := by
  cases x <;> simp

theorem toOption_eq_some {x : Except ε α} {a : α} : x.toOption = some a ↔ x = .ok a := by
  cases x <;> simp [Except.toOption]

/-- A program that ends well ran its first part well. -/
theorem bind_eq_ok {x : Except ε α} {f : α → Except ε β} {b : β} (h : (x >>= f) = .ok b) :
    ∃ a, x = .ok a ∧ f a = .ok b := by
  cases x with
  | error e => cases h
  | ok a => exact ⟨a, rfl, h⟩

/-- A program fails where the condition holds. -/
def raiseIf (p : Prop) [Decidable p] (e : ε) : Except ε Unit := if p then .error e else .ok ()

/-- A program fails where there is no value. -/
def demand (o : Option α) (e : ε) : Except ε α :=
  match o with
  | some a => .ok a
  | none => .error e

@[simp] theorem raiseIf_eq_ok {p : Prop} [Decidable p] {e : ε} {u : Unit} : raiseIf p e = .ok u ↔ ¬ p := by
  unfold raiseIf
  split <;> simp [*]

@[simp] theorem demand_eq_ok {o : Option α} {e : ε} {a : α} : demand o e = .ok a ↔ o = some a := by
  cases o <;> simp [demand]

/-- A program that goes on past a check ends well exactly if the check passes and the rest ends well. -/
theorem raiseIf_bind_eq_ok {p : Prop} [Decidable p] {e : ε} {f : Unit → Except ε β} {b : β} :
    (raiseIf p e >>= f) = .ok b ↔ ¬ p ∧ f () = .ok b := by
  unfold raiseIf
  split <;> simp [*]

theorem demand_bind_eq_ok {o : Option α} {e : ε} {f : α → Except ε β} {b : β} :
    (demand o e >>= f) = .ok b ↔ ∃ a, o = some a ∧ f a = .ok b := by
  cases o <;> simp [demand]

/-- A loop that only checks ends well exactly if every check does. -/
theorem forM_eq_ok {f : α → Except ε Unit} {xs : List α} : xs.forM f = .ok () ↔ ∀ x ∈ xs, f x = .ok () := by
  induction xs with
  | nil => exact ⟨fun _ => by simp, fun _ => rfl⟩
  | cons x xs ih =>
    have hstep : (x :: xs).forM f = f x >>= fun _ => xs.forM f := rfl
    rw [hstep, List.forall_mem_cons, ← ih]
    cases f x <;> simp

/-- A loop whose passes that start in the invariant succeed and keep it, except at the elements that are `bad` for an
error, where they fail with it: the loop ends in its invariant if no element is bad, and otherwise fails at a bad one.
The invariant speaks about the elements passed over so far. -/
theorem foldlM_ok_or_error {f : σ → α → Except ε σ} {l : List α} {s : σ} (Inv : List α → σ → Prop)
    (bad : α → ε → Prop) (h₀ : Inv [] s)
    (step : ∀ done x rest s, l = done ++ x :: rest → Inv done s → (∀ e, ¬ bad x e) →
      ∃ s', f s x = .ok s' ∧ Inv (done ++ [x]) s')
    (fails : ∀ done x rest s e, l = done ++ x :: rest → Inv done s → bad x e → f s x = .error e) :
    ((∀ x ∈ l, ∀ e, ¬ bad x e) ∧ ∃ s', l.foldlM f s = .ok s' ∧ Inv l s') ∨
      ∃ x ∈ l, ∃ e, bad x e ∧ l.foldlM f s = .error e := by
  have key : ∀ rest done s, l = done ++ rest → Inv done s →
      ((∀ x ∈ rest, ∀ e, ¬ bad x e) ∧ ∃ s', rest.foldlM f s = .ok s' ∧ Inv l s') ∨
        ∃ x ∈ rest, ∃ e, bad x e ∧ rest.foldlM f s = .error e := by
    intro rest
    induction rest with
    | nil =>
      intro done s hl h
      exact .inl ⟨by simp, s, rfl, by simpa [hl] using h⟩
    | cons x rest ih =>
      intro done s hl h
      by_cases hx : ∃ e, bad x e
      · obtain ⟨e, he⟩ := hx
        refine .inr ⟨x, List.mem_cons_self, e, he, ?_⟩
        rw [List.foldlM_cons, fails done x rest s e hl h he, error_bind]
      · have hgood : ∀ e, ¬ bad x e := fun e he => hx ⟨e, he⟩
        obtain ⟨s₁, hok, h₁⟩ := step done x rest s hl h hgood
        rw [List.foldlM_cons, hok, ok_bind]
        rcases ih (done ++ [x]) s₁ (by simpa using hl) h₁ with ⟨hrest, hend⟩ | ⟨y, hy, herr⟩
        · exact .inl ⟨by simpa using ⟨hgood, hrest⟩, hend⟩
        · exact .inr ⟨y, List.mem_cons_of_mem _ hy, herr⟩
  exact key l [] s rfl h₀

/-- A loop succeeds and ends in its invariant if every pass that starts in the invariant succeeds and keeps it. -/
theorem foldlM_ok {f : σ → α → Except ε σ} {xs : List α} {s : σ} (Inv : List α → σ → Prop) (h₀ : Inv [] s)
    (step : ∀ done x rest s, xs = done ++ x :: rest → Inv done s → ∃ s', f s x = .ok s' ∧ Inv (done ++ [x]) s') :
    ∃ s', xs.foldlM f s = .ok s' ∧ Inv xs s' := by
  rcases foldlM_ok_or_error Inv (fun _ _ => False) h₀ (fun done x rest s hxs h _ => step done x rest s hxs h)
    (fun _ _ _ _ _ _ _ h => h.elim) with ⟨-, h⟩ | ⟨_, -, _, h, -⟩
  · exact h
  · exact h.elim

/-- A loop that ends well ends in its invariant, if every pass that ends well keeps it. -/
theorem foldlM_preserves {f : σ → α → Except ε σ} {xs : List α} {s s' : σ} (Inv : List α → σ → Prop) (h₀ : Inv [] s)
    (step : ∀ done x rest s s', xs = done ++ x :: rest → Inv done s → f s x = .ok s' → Inv (done ++ [x]) s')
    (h : xs.foldlM f s = .ok s') : Inv xs s' := by
  have key : ∀ rest done s, xs = done ++ rest → Inv done s → rest.foldlM f s = .ok s' → Inv xs s' := by
    intro rest
    induction rest with
    | nil =>
      intro done s hxs hinv hok
      obtain rfl := Except.ok.inj hok
      rwa [hxs, List.append_nil]
    | cons x rest ih =>
      intro done s hxs hinv hok
      rw [List.foldlM_cons] at hok
      obtain ⟨s₁, hstep, hrest⟩ := bind_eq_ok hok
      exact ih (done ++ [x]) s₁ (by simpa using hxs) (step done x rest s s₁ hxs hinv hstep) hrest
  exact key xs [] s rfl h₀ h

/-- A loop that fails does so at one of its elements, after passes over those before it. -/
theorem foldlM_eq_error {f : σ → α → Except ε σ} {xs : List α} {s : σ} {e : ε} (h : xs.foldlM f s = .error e) :
    ∃ done x rest s', xs = done ++ x :: rest ∧ done.foldlM f s = .ok s' ∧ f s' x = .error e := by
  induction xs generalizing s with
  | nil => cases h
  | cons x xs ih =>
    rw [List.foldlM_cons] at h
    cases hstep : f s x with
    | error e' =>
      rw [hstep, error_bind] at h
      exact ⟨[], x, xs, s, rfl, rfl, by rw [hstep, Except.error.inj h]⟩
    | ok s₁ =>
      rw [hstep, ok_bind] at h
      obtain ⟨done, y, rest, s', hxs, hdone, hfail⟩ := ih h
      exact ⟨x :: done, y, rest, s', by rw [hxs]; rfl, by rw [List.foldlM_cons, hstep, ok_bind, hdone], hfail⟩

/-- A loop that collects the elements that pass a test. -/
theorem foldlM_filter {f : List α → α → Except ε (List α)} {xs : List α} {q : α → Bool}
    (h : ∀ acc, ∀ x ∈ xs, f acc x = .ok (if q x then acc ++ [x] else acc)) (acc : List α) :
    xs.foldlM f acc = .ok (acc ++ xs.filter q) := by
  induction xs generalizing acc with
  | nil => rw [List.foldlM_nil, List.filter_nil, List.append_nil]; rfl
  | cons x xs ih =>
    rw [List.foldlM_cons, h acc x List.mem_cons_self, ok_bind, ih fun acc y hy => h acc y (List.mem_cons_of_mem _ hy)]
    by_cases hq : q x = true <;> simp [hq]

/-- A program for each element ends well if and only if each of them does. -/
theorem mapM_eq_ok {f : α → Except ε β} {xs : List α} {ys : List β} :
    xs.mapM f = .ok ys ↔ List.Forall₂ (fun x y => f x = .ok y) xs ys := by
  induction xs generalizing ys with
  | nil => cases ys <;> simp
  | cons x xs ih =>
    rw [List.mapM_cons]
    constructor
    · intro h
      obtain ⟨y, hy, h⟩ := bind_eq_ok h
      obtain ⟨ys', hys, h⟩ := bind_eq_ok h
      obtain rfl := Except.ok.inj h
      exact .cons hy (ih.1 hys)
    · intro h
      cases h with
      | cons hy hys => rw [hy, ok_bind, ih.2 hys]; rfl

/-- Related lists: every element is related to one of the other list. -/
theorem exists_of_forall₂ {r : α → β → Prop} {as : List α} {bs : List β} (h : List.Forall₂ r as bs) :
    (∀ a ∈ as, ∃ b ∈ bs, r a b) ∧ ∀ b ∈ bs, ∃ a ∈ as, r a b := by
  induction h with
  | nil => exact ⟨by simp, by simp⟩
  | @cons a b as bs hab _ ih =>
    obtain ⟨hleft, hright⟩ := ih
    constructor
    · refine List.forall_mem_cons.2 ⟨⟨b, List.mem_cons_self, hab⟩, fun a' ha' => ?_⟩
      obtain ⟨b', hb', hr⟩ := hleft a' ha'
      exact ⟨b', List.mem_cons_of_mem _ hb', hr⟩
    · refine List.forall_mem_cons.2 ⟨⟨a, List.mem_cons_self, hab⟩, fun b' hb' => ?_⟩
      obtain ⟨a', ha', hr⟩ := hright b' hb'
      exact ⟨a', List.mem_cons_of_mem _ ha', hr⟩

end Lib
