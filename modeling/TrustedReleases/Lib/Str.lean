import TrustedReleases.Lib.Dict

/-!
# Strings

Strings are lists of characters, ordered as a scripting language orders them, by code point from the left.
-/

namespace Lib

/-- A string, as the list of its characters. -/
abbrev Str := List Char

/-- The list in ascending order of strings. -/
def sorted (l : List Str) : List Str := l.insertionSort (fun a b => ¬ b < a)

theorem sorted_perm (l : List Str) : (sorted l).Perm l := List.perm_insertionSort _ l

@[simp] theorem mem_sorted {l : List Str} {s : Str} : s ∈ sorted l ↔ s ∈ l := (sorted_perm l).mem_iff

theorem sorted_nodup {l : List Str} (h : l.Nodup) : (sorted l).Nodup := (sorted_perm l).nodup_iff.2 h

/-- The characters that `str.strip` removes. -/
def isSpace (c : Char) : Bool :=
  let n := c.toNat
  (9 ≤ n && n ≤ 13) || (28 ≤ n && n ≤ 32) || n == 0x85 || n == 0xA0 || n == 0x1680 || (0x2000 ≤ n && n ≤ 0x200A) ||
    n == 0x2028 || n == 0x2029 || n == 0x202F || n == 0x205F || n == 0x3000

/-- The string without the white space at its ends. -/
def strip (s : Str) : Str := ((s.dropWhile isSpace).reverse.dropWhile isSpace).reverse

/-- The characters that end a line for `str.splitlines`. -/
def isLineBreak (c : Char) : Bool :=
  let n := c.toNat
  (10 ≤ n && n ≤ 13) || (28 ≤ n && n ≤ 30) || n == 0x85 || n == 0x2028 || n == 0x2029

/-- `str.splitlines`, where a carriage return and a line feed end one line. -/
def splitLines : Str → List Str
  | [] => []
  | '\r' :: '\n' :: s => [] :: splitLines s
  | c :: s =>
    if isLineBreak c then [] :: splitLines s
    else
      match splitLines s with
      | [] => [[c]]
      | l :: ls => (c :: l) :: ls

/-- A line with a line feed after it is split off. -/
theorem splitLines_append {l : Str} (h : ∀ c ∈ l, isLineBreak c = false) (s : Str) :
    splitLines (l ++ '\n' :: s) = l :: splitLines s := by
  induction l with
  | nil => rfl
  | cons c l ih =>
    rw [List.forall_mem_cons] at h
    have hreturn : c ≠ '\r' := by
      rintro rfl
      exact absurd h.1 (by decide)
    rw [List.cons_append, splitLines, if_neg (by rw [h.1]; decide), ih h.2]
    intro s' hc
    exact absurd hc hreturn

/-- A line without white space is left as it is. -/
theorem strip_eq {s : Str} (h : ∀ c ∈ s, isSpace c = false) : strip s = s := by
  have hdrop : ∀ {t : Str}, (∀ c ∈ t, isSpace c = false) → t.dropWhile isSpace = t := by
    intro t ht
    cases t with
    | nil => rfl
    | cons c t => rw [List.dropWhile_cons_of_neg (by rw [ht c List.mem_cons_self]; decide)]
  rw [strip, hdrop h, hdrop fun c hc => h c (List.mem_reverse.1 hc), List.reverse_reverse]

end Lib
