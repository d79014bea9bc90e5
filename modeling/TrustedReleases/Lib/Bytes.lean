import TrustedReleases.Lib.Str

/-!
# Bytes and lines

Bytes are the numbers below 256, and byte strings are ordered from the left.  `lines` cuts a list after every
separator, as reading a file line by line does; a list of terminated lines is read back from what it joins to.
-/

namespace Lib

/-- A byte. -/
abbrev Byte := Fin 256

instance neZeroBytes : NeZero 256 := ⟨by decide⟩

/-- A byte string. -/
abbrev Bytes := List Byte

/-- The byte with the value of a number modulo 256. -/
def byte (n : Nat) : Byte := Fin.ofNat 256 n

@[simp] theorem byte_val (n : Nat) : (byte n).val = n % 256 := rfl

/-- The bytes of a string of ASCII characters. -/
def ascii (s : Str) : Bytes := s.map fun c => byte c.toNat

/-- The line feed. -/
def newline : Byte := byte 10

/-- The elements of a list from a first position up to before a last one. -/
def slice {α : Type} (first last : Nat) (l : List α) : List α := (l.take last).drop first

theorem slice_length_le {α : Type} (first last : Nat) (l : List α) : (slice first last l).length ≤ last - first := by
  simp only [slice, List.length_drop, List.length_take]
  omega

/-- The middle of three parts. -/
theorem slice_middle {α : Type} (a b c : List α) : slice a.length (a.length + b.length) (a ++ b ++ c) = b := by
  rw [slice, ← List.length_append, List.take_left, List.drop_left]

/-! ### Numbers as bytes -/

/-- The number that bytes denote, the first being the most significant one. -/
def fromBytes (bs : Bytes) : Nat := bs.foldl (fun n b => n * 256 + b.val) 0

private theorem fromBytes_append (bs : Bytes) (b : Byte) : fromBytes (bs ++ [b]) = fromBytes bs * 256 + b.val := by
  simp [fromBytes]

theorem fromBytes_lt (bs : Bytes) : fromBytes bs < 256 ^ bs.length := by
  induction bs using List.reverseRecOn with
  | nil => exact Nat.one_pos
  | append_singleton bs b ih =>
    have hb := b.isLt
    rw [fromBytes_append, List.length_append, List.length_singleton, Nat.pow_succ]
    omega

/-- The last bytes of a number, as many as the width. -/
def toBytes : Nat → Nat → Bytes
  | 0, _ => []
  | width + 1, n => toBytes width (n / 256) ++ [byte n]

theorem fromBytes_toBytes {width n : Nat} (h : n < 256 ^ width) : fromBytes (toBytes width n) = n := by
  induction width generalizing n with
  | zero => simpa [toBytes, fromBytes] using (Nat.lt_one_iff.1 h).symm
  | succ width ih =>
    have hlt : n / 256 < 256 ^ width := Nat.div_lt_of_lt_mul (by rwa [Nat.mul_comm, ← Nat.pow_succ])
    rw [toBytes, fromBytes_append, ih hlt, byte_val]
    omega

/-! ### Lines -/

section Lines

variable {α : Type} [DecidableEq α] {sep : α}

/-- The pieces of a list, cut after every separator.  The last piece may lack it. -/
def lines (sep : α) : List α → List (List α)
  | [] => []
  | c :: s =>
    if c = sep then [c] :: lines sep s
    else
      match lines sep s with
      | [] => [[c]]
      | l :: ls => (c :: l) :: ls

/-- One terminated line: the separator is at the end and nowhere else. -/
def IsLine (sep : α) (l : List α) : Prop := ∃ body, sep ∉ body ∧ l = body ++ [sep]

omit [DecidableEq α] in
theorem IsLine.getLast? {l : List α} (h : IsLine sep l) : l.getLast? = some sep := by
  obtain ⟨body, -, rfl⟩ := h
  simp

private theorem lines_append {body : List α} (h : sep ∉ body) (s : List α) :
    lines sep (body ++ sep :: s) = (body ++ [sep]) :: lines sep s := by
  induction body with
  | nil => simp [lines]
  | cons c body ih =>
    simp only [List.mem_cons, not_or] at h
    rw [List.cons_append, lines, if_neg (Ne.symm h.1), ih h.2]
    rfl

/-- Terminated lines are read back from what they join to. -/
theorem lines_flatten {ls : List (List α)} (h : ∀ l ∈ ls, IsLine sep l) : lines sep ls.flatten = ls := by
  induction ls with
  | nil => rfl
  | cons l ls ih =>
    obtain ⟨body, hbody, rfl⟩ := h _ List.mem_cons_self
    have hrest : lines sep ls.flatten = ls := ih fun l hl => h l (List.mem_cons_of_mem _ hl)
    rw [List.flatten_cons, List.append_assoc, List.singleton_append, lines_append hbody, hrest]

end Lines

end Lib
