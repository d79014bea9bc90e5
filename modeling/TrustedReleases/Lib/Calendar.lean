import TrustedReleases.Lib.Str

/-!
# Dates and instants as text

A date is its ordinal in the Gregorian calendar, where the first of January of the year 1 is day 1, and an instant is
a date with the microsecond of the day in universal time.  The texts are those of ISO 8601 with a fixed number of
digits, so that the text of an instant begins with the text of its date.
-/

namespace Lib

/-- A date, by its ordinal. -/
abbrev Day := Nat

/-- An instant in universal time. -/
structure Instant where
  day : Day
  microsecond : Nat
  deriving DecidableEq, Repr

/-! ### The calendar -/

def isLeap (year : Nat) : Bool := year % 4 = 0 && (year % 100 ≠ 0 || year % 400 = 0)

def daysInMonth (year month : Nat) : Nat :=
  if month = 2 then (if isLeap year then 29 else 28)
  else if month ∈ [4, 6, 9, 11] then 30 else 31

/-- The days of a common year before a month. -/
def daysBeforeMonth (month : Nat) : Nat :=
  [0, 0, 31, 59, 90, 120, 151, 181, 212, 243, 273, 304, 334].getD month 0

/-- The year, month and day of a date. -/
def yearMonthDay (day : Day) : Nat × Nat × Nat :=
  let n := day - 1
  let n400 := n / 146097
  let n := n % 146097
  let n100 := n / 36524
  let n := n % 36524
  let n4 := n / 1461
  let n := n % 1461
  let n1 := n / 365
  let n := n % 365
  let year := n400 * 400 + n100 * 100 + n4 * 4 + n1 + 1
  if n1 = 4 ∨ n100 = 4 then (year - 1, 12, 31)
  else
    let month := (n + 50) / 32
    let preceding := daysBeforeMonth month + if 2 < month ∧ isLeap year then 1 else 0
    -- the estimate of the month is either right or one too large
    if n < preceding then (year, month - 1, n + daysInMonth year (month - 1) - preceding + 1)
    else (year, month, n - preceding + 1)

/-! ### Texts -/

/-- The last `width` decimal digits of a number. -/
def digits : Nat → Nat → Str
  | 0, _ => []
  | width + 1, n => digits width (n / 10) ++ [Char.ofNat (48 + n % 10)]

@[simp] theorem digits_length (width n : Nat) : (digits width n).length = width := by
  induction width generalizing n with
  | zero => rfl
  | succ width ih => simp [digits, ih]

/-- The text of a date, such as `2026-09-28`. -/
def dateText (day : Day) : Str :=
  let (y, m, d) := yearMonthDay day
  digits 4 y ++ '-' :: digits 2 m ++ '-' :: digits 2 d

@[simp] theorem dateText_length (day : Day) : (dateText day).length = 10 := by
  simp [dateText]

/-- The text of an instant, such as `2026-09-28T00:00:00.000001Z`. -/
def instantText (t : Instant) : Str :=
  let second := t.microsecond / 1000000
  dateText t.day ++ 'T' :: digits 2 (second / 3600) ++ ':' :: digits 2 (second / 60 % 60) ++ ':' ::
    digits 2 (second % 60) ++ '.' :: digits 6 (t.microsecond % 1000000) ++ ['Z']

/-- The text of an instant begins with that of its date. -/
theorem instantText_take (t : Instant) : (instantText t).take 10 = dateText t.day := by
  simp only [instantText, List.append_assoc]
  exact List.take_left' (dateText_length t.day)

/-- The value of a string of decimal digits. -/
def decimal (s : Str) : Option Nat :=
  s.foldl (fun acc c => if c.isDigit then acc.map fun n => n * 10 + (c.toNat - 48) else none) (some 0)

/-- Is the text one of an instant, with six digits of the second's fraction and `Z`? -/
def isInstantText (s : Str) : Bool :=
  s.length = 27 && s[4]? = some '-' && s[7]? = some '-' && s[10]? = some 'T' && s[13]? = some ':' &&
    s[16]? = some ':' && s[19]? = some '.' && s[26]? = some 'Z' && (decimal ((s.drop 20).take 6)).isSome &&
    match decimal (s.take 4), decimal ((s.drop 5).take 2), decimal ((s.drop 8).take 2), decimal ((s.drop 11).take 2),
      decimal ((s.drop 14).take 2), decimal ((s.drop 17).take 2) with
    | some y, some m, some d, some hour, some minute, some second =>
      1 ≤ y && 1 ≤ m && m ≤ 12 && 1 ≤ d && d ≤ daysInMonth y m && hour < 24 && minute < 60 && second < 60
    | _, _, _, _, _, _ => false

end Lib
