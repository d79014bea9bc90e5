import TrustedReleases.Lib.JsonTree
import TrustedReleases.Lib.Numeral

/-!
# Patches of JSON documents

Pointers into documents and the operations `add`, `remove` and `replace` of a patch.  A pointer is the list of its
tokens, and a token stands for an index of an array if it is a numeral without leading zeros.  An operation changes
nothing but what its pointer points to, and the items of the array that it is in.
-/

namespace Lib

/-! ### Tokens -/

/-- The index that a token stands for. -/
def tokenIndex (token : Str) : Option Nat :=
  if IsDigits token ∧ (token = ['0'] ∨ token ≠ [] ∧ stripZeros token = token) then some (numeral token) else none

/-- The token of an index. -/
def indexToken (n : Nat) : Str := Nat.toDigits 10 n

private theorem tokenIndex_inj {s t : Str} {i : Nat} (hs : tokenIndex s = some i) (ht : tokenIndex t = some i) :
    s = t := by
  unfold tokenIndex at hs ht
  split at hs
  · rename_i hsform
    split at ht
    · rename_i htform
      have hsame : numeral s = numeral t := (Option.some.inj hs).trans (Option.some.inj ht).symm
      have hstrip := (numeral_eq_iff hsform.1 htform.1).1 hsame
      rcases hsform.2 with rfl | ⟨hsne, hscanonical⟩
      · rcases htform.2 with rfl | ⟨htne, htcanonical⟩
        · rfl
        · rw [htcanonical] at hstrip
          exact absurd hstrip.symm htne
      · rcases htform.2 with rfl | ⟨htne, htcanonical⟩
        · rw [hscanonical] at hstrip
          exact absurd hstrip hsne
        · rw [← hscanonical, hstrip, htcanonical]
    · cases ht
  · cases hs

theorem numeral_toDigits (n : Nat) : numeral (Nat.toDigits 10 n) = n := by
  have hchars := @Nat.ofDigitChars_toDigits 10 n (by decide) (by decide)
  rw [Nat.ofDigitChars_eq_foldl] at hchars
  have hsame : ∀ (s : Str) (k : Nat), s.foldl (fun n c => n * 10 + digitValue c) k =
      s.foldl (fun n c => 10 * n + (c.toNat - '0'.toNat)) k := by
    intro s
    induction s with
    | nil => exact fun k => rfl
    | cons c s ih =>
      intro k
      rw [List.foldl_cons, List.foldl_cons, ih, Nat.mul_comm k 10]
      rfl
  exact (hsame _ 0).trans hchars

private theorem stripZeros_toDigits {n : Nat} (h : n ≠ 0) : stripZeros (Nat.toDigits 10 n) = Nat.toDigits 10 n := by
  have hhead : ∀ n, n ≠ 0 → ∀ c ∈ (Nat.toDigits 10 n).head?, c ≠ '0' := by
    intro n
    induction n using Nat.strongRecOn with
    | ind n ih =>
      intro hn c hc
      by_cases hlt : n < 10
      · rw [Nat.toDigits_of_lt_base hlt] at hc
        obtain rfl := Option.some.inj hc
        intro hzero
        exact hn (Nat.digitChar_eq_zero.1 hzero)
      · rw [Nat.toDigits_of_base_le (by decide) (by omega)] at hc
        have hne : Nat.toDigits 10 (n / 10) ≠ [] := Nat.toDigits_ne_nil
        rw [List.head?_append_of_ne_nil _ hne] at hc
        exact ih (n / 10) (by omega) (by omega) c hc
  cases hdigits : Nat.toDigits 10 n with
  | nil => rfl
  | cons c rest =>
    have hc : c ≠ '0' := hhead n h c (by rw [hdigits]; rfl)
    simp [stripZeros, hc]

/-- The token of an index stands for it. -/
@[simp] theorem tokenIndex_indexToken (n : Nat) : tokenIndex (indexToken n) = some n := by
  have hdigits : IsDigits (indexToken n) := fun c hc => Nat.isDigit_of_mem_toDigits (by decide) (by decide) hc
  have hcanonical : indexToken n = ['0'] ∨ indexToken n ≠ [] ∧ stripZeros (indexToken n) = indexToken n := by
    by_cases hn : n = 0
    · rw [hn]
      exact Or.inl (Nat.toDigits_zero 10)
    · exact Or.inr ⟨Nat.toDigits_ne_nil, stripZeros_toDigits hn⟩
  unfold tokenIndex
  rw [if_pos ⟨hdigits, hcanonical⟩]
  exact congrArg some (numeral_toDigits n)

namespace JsonTree

variable {σ : Type}

/-! ### Pointers -/

/-- What a token points to in a value. -/
def child (token : Str) : JsonTree σ → Option (JsonTree σ)
  | scalar _ => none
  | array items => (tokenIndex token).bind fun i => items[i]?
  | object members => members.lookup token

/-- What a pointer points to. -/
def resolve : List Str → JsonTree σ → Option (JsonTree σ)
  | [], t => some t
  | token :: p, t => (child token t).bind (resolve p)

/-- The value with another one in the place of what a token points to. -/
def setChild (token : Str) (u : JsonTree σ) : JsonTree σ → JsonTree σ
  | scalar value => scalar value
  | array items => array (match tokenIndex token with
    | some i => items.set i u
    | none => items)
  | object members => object (setMember token u members)

/-- The document with a function applied to what a pointer points to. -/
def modify (f : JsonTree σ → Option (JsonTree σ)) : List Str → JsonTree σ → Option (JsonTree σ)
  | [], t => f t
  | token :: p, t => (child token t).bind fun u => (modify f p u).map fun u => setChild token u t

private theorem child_setChild {token token' : Str} {u t : JsonTree σ} (h : (child token t).isSome) :
    child token' (setChild token u t) = if token' = token then some u else child token' t := by
  cases t with
  | scalar value => cases h
  | object members => exact lookup_setMember token u members token'
  | array items =>
    unfold child setChild
    cases hindex : tokenIndex token with
    | none =>
      unfold child at h
      rw [hindex] at h
      cases h
    | some i =>
      have hlt : i < items.length := by
        unfold child at h
        rw [hindex] at h
        obtain ⟨v, hv⟩ := Option.isSome_iff_exists.1 h
        exact (List.getElem?_eq_some_iff.1 hv).1
      dsimp only
      by_cases htoken : token' = token
      · rw [if_pos htoken, htoken, hindex, Option.bind_some, List.getElem?_set_self hlt]
      · rw [if_neg htoken]
        cases hindex' : tokenIndex token' with
        | none => rfl
        | some j =>
          have hne : i ≠ j := by
            rintro rfl
            exact htoken (tokenIndex_inj hindex' hindex)
          rw [Option.bind_some, Option.bind_some, List.getElem?_set_ne hne]

theorem resolve_append (p q : List Str) (t : JsonTree σ) : resolve (p ++ q) t = (resolve p t).bind (resolve q) := by
  induction p generalizing t with
  | nil => rfl
  | cons token p ih =>
    rw [List.cons_append, resolve, resolve]
    cases child token t with
    | none => rfl
    | some u => exact ih u

/-- Neither pointer leads on from the other. -/
def Diverge (p q : List Str) : Prop := ¬ p <+: q ∧ ¬ q <+: p

theorem diverge_cons {a b : Str} {p q : List Str} : Diverge (a :: p) (b :: q) ↔ a ≠ b ∨ Diverge p q := by
  unfold Diverge
  rw [List.cons_prefix_cons, List.cons_prefix_cons]
  by_cases hab : a = b
  · simp [hab]
  · simp [hab, Ne.symm hab]

/-- Nothing changes elsewhere. -/
theorem resolve_modify_diverge {f : JsonTree σ → Option (JsonTree σ)} {p q : List Str} {t t' : JsonTree σ}
    (h : modify f p t = some t') (hdiverge : Diverge p q) : resolve q t' = resolve q t := by
  induction p generalizing q t t' with
  | nil => exact absurd (List.nil_prefix) hdiverge.1
  | cons token p ih =>
    cases q with
    | nil => exact absurd (List.nil_prefix) hdiverge.2
    | cons token' q =>
      rw [modify] at h
      obtain ⟨u, hu, hmap⟩ := Option.bind_eq_some_iff.1 h
      obtain ⟨u', hu', rfl⟩ := Option.map_eq_some_iff.1 hmap
      rw [resolve, resolve, child_setChild (by rw [hu]; rfl)]
      by_cases htoken : token' = token
      · rw [if_pos htoken, htoken, hu, Option.bind_some, Option.bind_some]
        exact ih hu' ((diverge_cons.1 hdiverge).resolve_left fun hne => hne htoken.symm)
      · rw [if_neg htoken]

/-- What the pointer points to is what the function makes of it. -/
theorem modify_eq_some {f : JsonTree σ → Option (JsonTree σ)} {p : List Str} {t t' : JsonTree σ} :
    modify f p t = some t' → ∃ u u', resolve p t = some u ∧ f u = some u' ∧ resolve p t' = some u' := by
  induction p generalizing t t' with
  | nil => exact fun h => ⟨t, t', rfl, h, rfl⟩
  | cons token p ih =>
    intro h
    rw [modify] at h
    obtain ⟨v, hv, hmap⟩ := Option.bind_eq_some_iff.1 h
    obtain ⟨v', hv', rfl⟩ := Option.map_eq_some_iff.1 hmap
    obtain ⟨u, u', hu, hf, hu'⟩ := ih hv'
    refine ⟨u, u', ?_, hf, ?_⟩
    · rw [resolve, hv]
      exact hu
    · rw [resolve, child_setChild (by rw [hv]; rfl), if_pos rfl]
      exact hu'

private theorem modify_isSome {f : JsonTree σ → Option (JsonTree σ)} {p : List Str} {t u u' : JsonTree σ}
    (hu : resolve p t = some u) (hf : f u = some u') : ∃ t', modify f p t = some t' := by
  induction p generalizing t with
  | nil =>
    obtain rfl := Option.some.inj hu
    exact ⟨u', hf⟩
  | cons token p ih =>
    rw [resolve] at hu
    obtain ⟨v, hv, hrest⟩ := Option.bind_eq_some_iff.1 hu
    obtain ⟨v', hv'⟩ := ih hrest
    exact ⟨setChild token v' t, by rw [modify, hv, Option.bind_some, hv']; rfl⟩

/-- The values on the way are objects as before. -/
theorem object_of_modify {f : JsonTree σ → Option (JsonTree σ)} {p q : List Str} {t t' : JsonTree σ}
    (h : modify f p t = some t') (hf : ∀ members t', f (object members) = some t' → ∃ members', t' = object members')
    (hinitial : q <+: p) {members : List (Str × JsonTree σ)} (hq : resolve q t = some (object members)) :
    ∃ members', resolve q t' = some (object members') := by
  induction q generalizing p t t' with
  | nil =>
    obtain rfl := Option.some.inj hq
    cases p with
    | nil =>
      obtain ⟨members', rfl⟩ := hf members t' h
      exact ⟨members', rfl⟩
    | cons token p =>
      rw [modify] at h
      obtain ⟨u, -, hmap⟩ := Option.bind_eq_some_iff.1 h
      obtain ⟨u', -, rfl⟩ := Option.map_eq_some_iff.1 hmap
      exact ⟨_, rfl⟩
  | cons token q ih =>
    obtain ⟨p, rfl⟩ := hinitial
    rw [List.cons_append, modify] at h
    obtain ⟨u, hu, hmap⟩ := Option.bind_eq_some_iff.1 h
    obtain ⟨u', hu', rfl⟩ := Option.map_eq_some_iff.1 hmap
    rw [resolve, hu, Option.bind_some] at hq
    obtain ⟨members', hmembers⟩ := ih hu' (List.prefix_append q p) hq
    refine ⟨members', ?_⟩
    rw [resolve, child_setChild (by rw [hu]; rfl), if_pos rfl]
    exact hmembers

/-! ### Operations -/

/-- The value with another one under a token. -/
def addChild (token : Str) (value : JsonTree σ) : JsonTree σ → Option (JsonTree σ)
  | scalar _ => none
  | array items =>
    if token = ['-'] then some (array (items ++ [value]))
    else (tokenIndex token).bind fun i => if i ≤ items.length then some (array (items.insertIdx i value)) else none
  | object members => some (object (setMember token value members))

/-- An item is added at the end of an array under the next index. -/
theorem addChild_end (items : List (JsonTree σ)) (value : JsonTree σ) :
    addChild (indexToken items.length) value (array items) = some (array (items ++ [value])) := by
  have hdash : indexToken items.length ≠ ['-'] := by
    intro hdash
    have hnone := congrArg tokenIndex hdash
    rw [tokenIndex_indexToken] at hnone
    cases hnone
  unfold addChild
  dsimp only
  rw [if_neg hdash, tokenIndex_indexToken, Option.bind_some, if_pos (le_refl _), List.insertIdx_length_self]

/-- The value without what a token points to. -/
def removeChild (token : Str) (t : JsonTree σ) : Option (JsonTree σ) :=
  (child token t).bind fun _ =>
    match t with
    | scalar _ => none
    | array items => (tokenIndex token).map fun i => array (items.eraseIdx i)
    | object members => some (object (members.filter fun m => decide (m.1 ≠ token)))

def replaceChild (token : Str) (value t : JsonTree σ) : Option (JsonTree σ) :=
  (child token t).map fun _ => setChild token value t

end JsonTree

/-- The operations of a patch. -/
inductive PatchOp (σ : Type) where
  | add (path : List Str) (value : JsonTree σ)
  | remove (path : List Str)
  | replace (path : List Str) (value : JsonTree σ)

namespace PatchOp

open JsonTree

variable {σ : Type}

def path : PatchOp σ → List Str
  | add path _ | remove path | replace path _ => path

/-- The document after an operation, if it can be carried out. -/
def apply (op : PatchOp σ) (t : JsonTree σ) : Option (JsonTree σ) :=
  match op, op.path.getLast? with
  | add _ value, none => some value
  | replace _ value, none => some value
  | remove _, none => none
  | add path value, some token => modify (addChild token value) path.dropLast t
  | remove path, some token => modify (removeChild token) path.dropLast t
  | replace path value, some token => modify (replaceChild token value) path.dropLast t

theorem apply_add (p : List Str) (token : Str) (value t : JsonTree σ) :
    (add (p ++ [token]) value).apply t = modify (addChild token value) p t := by
  simp [apply, path]

theorem apply_replace (p : List Str) (token : Str) (value t : JsonTree σ) :
    (replace (p ++ [token]) value).apply t = modify (replaceChild token value) p t := by
  simp [apply, path]

/-- What an addition to an object changes: the value is there, everything elsewhere is as before, and the objects that it
is not added in the place of are objects. -/
structure Added (path : List Str) (value t t' : JsonTree σ) : Prop where
  value : resolve path t' = some value
  elsewhere : ∀ q, Diverge path q → resolve q t' = resolve q t
  objects : ∀ q, ¬ path <+: q → ∀ members, resolve q t = some (object members) →
    ∃ members', resolve q t' = some (object members')

theorem add_added {p : List Str} {token : Str} {value t : JsonTree σ} {members : List (Str × JsonTree σ)}
    (h : resolve p t = some (object members)) :
    ∃ t', (add (p ++ [token]) value).apply t = some t' ∧ Added (p ++ [token]) value t t' := by
  have hadd : addChild token value (object members) = some (object (setMember token value members)) := rfl
  obtain ⟨t', ht'⟩ := modify_isSome h hadd
  obtain ⟨u, u', hu, hf, hu'⟩ := modify_eq_some ht'
  obtain rfl := Option.some.inj (h.symm.trans hu)
  obtain rfl := Option.some.inj (hadd.symm.trans hf)
  -- what the pointers below the object point to
  have hbelow (other : Str) (r : List Str) (hne : other ≠ token) :
      resolve (p ++ other :: r) t' = resolve (p ++ other :: r) t := by
    rw [resolve_append, resolve_append, hu', h, Option.bind_some, Option.bind_some, resolve, resolve, child, child,
      lookup_setMember, if_neg hne]
  have helsewhere : ∀ q, Diverge (p ++ [token]) q → resolve q t' = resolve q t := by
    intro q hq
    by_cases hdiverge : Diverge p q
    · exact resolve_modify_diverge ht' hdiverge
    · have hqp : ¬ q <+: p := fun hqp => hq.2 (hqp.trans (List.prefix_append p [token]))
      have hpq : p <+: q := by
        by_contra hpq
        exact hdiverge ⟨hpq, hqp⟩
      obtain ⟨r, rfl⟩ := hpq
      cases r with
      | nil => exact absurd (by rw [List.append_nil]) hqp
      | cons other r =>
        apply hbelow
        rintro rfl
        apply hq.1
        rw [show p ++ other :: r = (p ++ [other]) ++ r by simp]
        exact List.prefix_append _ _
  refine ⟨t', (apply_add p token value t).trans ht', ⟨?_, helsewhere, ?_⟩⟩
  · rw [resolve_append, hu', Option.bind_some, resolve, child, lookup_setMember, if_pos rfl]
    rfl
  · intro q hq mm hmm
    by_cases hinitial : q <+: p
    · refine object_of_modify ht' ?_ hinitial hmm
      intro ms t'' ht''
      exact ⟨_, (Option.some.inj ht'').symm⟩
    · refine ⟨mm, (helsewhere q ⟨hq, fun hqp => ?_⟩).trans hmm⟩
      rcases List.prefix_concat_iff.1 hqp with rfl | hqp
      · exact hq List.prefix_rfl
      · exact hinitial hqp

end PatchOp

/-- The document after a patch, if each operation can be carried out. -/
def applyPatch {σ : Type} (ops : List (PatchOp σ)) (t : JsonTree σ) : Option (JsonTree σ) :=
  ops.foldlM (fun t op => op.apply t) t

end Lib
