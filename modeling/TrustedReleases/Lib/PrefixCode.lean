import Mathlib

/-!
# Codes that are read from the front

A code of which no word is read in two ways, whatever follows it: a field of a fixed length, a field up to its
terminator, and fields one after the other.  Words written one after the other without anything between them are read
back (`PrefixCode.flatMap_inj`).
-/

namespace Lib

variable {α β γ : Type} {valid : α → Prop} {code : α → List β}

/-- What follows a word does not change what is read. -/
def PrefixCode (valid : α → Prop) (code : α → List β) : Prop :=
  ∀ a b x y, valid a → valid b → code a ++ x = code b ++ y → a = b ∧ x = y

namespace PrefixCode

theorem inj (h : PrefixCode valid code) {a b : α} (ha : valid a) (hb : valid b) (heq : code a = code b) : a = b :=
  (h a b [] [] ha hb (by rw [heq])).1

/-- Fields of one length. -/
theorem fixed (n : Nat) : PrefixCode (fun s : List β => s.length = n) id := by
  intro s t x y hs ht heq
  exact List.append_inj heq (hs.trans ht.symm)

/-- Fields up to a terminator. -/
theorem terminated (sep : β) : PrefixCode (fun s : List β => sep ∉ s) (fun s => s ++ [sep]) := by
  intro s
  induction s with
  | nil =>
    intro t x y _ ht heq
    cases t with
    | nil => exact ⟨rfl, List.tail_eq_of_cons_eq heq⟩
    | cons b t =>
      have hfirst : sep = b := List.head_eq_of_cons_eq heq
      exact absurd (hfirst ▸ List.mem_cons_self) ht
  | cons a s ih =>
    intro t x y hs ht heq
    cases t with
    | nil =>
      have hfirst : a = sep := List.head_eq_of_cons_eq heq
      exact absurd (hfirst ▸ List.mem_cons_self) hs
    | cons b t =>
      obtain rfl : a = b := List.head_eq_of_cons_eq heq
      have hrest : (s ++ [sep]) ++ x = (t ++ [sep]) ++ y := List.tail_eq_of_cons_eq heq
      obtain ⟨rfl, rfl⟩ := ih t x y (fun h => hs (List.mem_cons_of_mem a h)) (fun h => ht (List.mem_cons_of_mem a h)) hrest
      exact ⟨rfl, rfl⟩

/-- One field after the other. -/
theorem pair {valid' : γ → Prop} {code' : γ → List β} (h : PrefixCode valid code) (h' : PrefixCode valid' code') :
    PrefixCode (fun p : α × γ => valid p.1 ∧ valid' p.2) (fun p => code p.1 ++ code' p.2) := by
  rintro ⟨a, c⟩ ⟨b, d⟩ x y ⟨ha, hc⟩ ⟨hb, hd⟩ heq
  rw [List.append_assoc, List.append_assoc] at heq
  obtain ⟨rfl, hrest⟩ := h a b _ _ ha hb heq
  obtain ⟨rfl, rfl⟩ := h' c d x y hc hd hrest
  exact ⟨rfl, rfl⟩

/-- Values that are told apart by what is written of them. -/
theorem comap {f : γ → α} {valid' : γ → Prop} (h : PrefixCode valid code) (hvalid : ∀ c, valid' c → valid (f c))
    (hf : ∀ c d, valid' c → valid' d → f c = f d → c = d) : PrefixCode valid' (fun c => code (f c)) := by
  intro c d x y hc hd heq
  obtain ⟨hfc, hrest⟩ := h (f c) (f d) x y (hvalid c hc) (hvalid d hd) heq
  exact ⟨hf c d hc hd hfc, hrest⟩

/-- Words one after the other are read back. -/
theorem flatMap_inj (h : PrefixCode valid code) (hne : ∀ a, valid a → code a ≠ []) {as bs : List α}
    (has : ∀ a ∈ as, valid a) (hbs : ∀ b ∈ bs, valid b) (heq : as.flatMap code = bs.flatMap code) : as = bs := by
  induction as generalizing bs with
  | nil =>
    cases bs with
    | nil => rfl
    | cons b bs =>
      rw [List.flatMap_nil, List.flatMap_cons] at heq
      exact absurd (List.append_eq_nil_iff.1 heq.symm).1 (hne b (hbs b List.mem_cons_self))
  | cons a as ih =>
    cases bs with
    | nil =>
      rw [List.flatMap_nil, List.flatMap_cons] at heq
      exact absurd (List.append_eq_nil_iff.1 heq).1 (hne a (has a List.mem_cons_self))
    | cons b bs =>
      rw [List.forall_mem_cons] at has hbs
      rw [List.flatMap_cons, List.flatMap_cons] at heq
      obtain ⟨rfl, hrest⟩ := h a b _ _ has.1 hbs.1 heq
      rw [ih has.2 hbs.2 hrest]

end PrefixCode

end Lib
