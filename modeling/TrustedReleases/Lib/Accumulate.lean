import TrustedReleases.Lib.Dict

/-!
# Dictionaries filled in a loop

A loop that reads the value at a key of every item and writes a new one there.  Such a loop treats the items of every
key on their own, in their order: the value at a key after it is the fold of that key's items alone.
-/

namespace Lib

namespace Dict

variable {α β γ : Type} [DecidableEq α]

/-- The dictionary after each item has updated the value at its key. -/
def accumulate (key : γ → α) (f : γ → Option β → β) (items : List γ) (d : Dict α β) : Dict α β :=
  items.foldl (fun d x => d.set (key x) (f x (d.get (key x)))) d

@[simp] theorem accumulate_nil (key : γ → α) (f : γ → Option β → β) (d : Dict α β) : d.accumulate key f [] = d := rfl

private theorem accumulate_cons (key : γ → α) (f : γ → Option β → β) (x : γ) (items : List γ) (d : Dict α β) :
    d.accumulate key f (x :: items) = (d.set (key x) (f x (d.get (key x)))).accumulate key f items := rfl

/-- The value at a key is the fold of the items with that key. -/
theorem get_accumulate (key : γ → α) (f : γ → Option β → β) (items : List γ) (d : Dict α β) (k : α) :
    (d.accumulate key f items).get k =
      (items.filter fun x => decide (key x = k)).foldl (fun o x => some (f x o)) (d.get k) := by
  induction items generalizing d with
  | nil => simp
  | cons x items ih =>
    rw [accumulate_cons, ih]
    by_cases h : key x = k
    · simp [h]
    · have hne : k ≠ key x := fun he => h he.symm
      simp [h, hne]

/-- Where every key has at most one item, each item updates what was at its key before the loop. -/
theorem get_accumulate_nodup {f : α → Option β → β} {items : List α} (hnd : items.Nodup) (d : Dict α β) (k : α) :
    (d.accumulate id f items).get k = if k ∈ items then some (f k (d.get k)) else d.get k := by
  rw [get_accumulate]
  by_cases h : k ∈ items
  · have hone : (items.filter fun x => decide (id x = k)) = [k] := by
      have hcount : items.count k = 1 := List.count_eq_one_of_mem hnd h
      rw [← List.replicate_one, ← hcount, ← List.filter_beq]
      apply List.filter_congr
      intro x _
      simp [beq_eq_decide]
    rw [hone, if_pos h]
    rfl
  · have hnone : (items.filter fun x => decide (id x = k)) = [] := by
      apply List.filter_eq_nil_iff.2
      intro x hx
      have hne : x ≠ k := fun he => h (he ▸ hx)
      simp [hne]
    rw [hnone, if_neg h]
    rfl

end Dict

end Lib
