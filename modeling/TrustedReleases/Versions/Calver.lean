import TrustedReleases.Lib.Decimal
import TrustedReleases.Lib.Except
import TrustedReleases.Lib.Language

/-!
# Calendar versions

The date formats of calendar versions (`atr/models/calver.py`).  A format is a sequence of tokens with literal separators
between them, of which a span can be marked as the cycle.  It is compiled twice, to a pattern that captures the cycle and
to one that captures the fields by which versions are ordered.  A fragment of a pattern is the expression that its text
is compiled to, so that one text after the other is one expression after the other.
-/

namespace TrustedReleases

open Lib Regex

namespace Calver

/-- The ordering roles. -/
inductive Role where
  | year
  | month
  | day
  | serial
  deriving DecidableEq, Repr

/-- The name of the group of a role. -/
def Role.name : Role → Str
  | year => "year".toList
  | month => "month".toList
  | day => "day".toList
  | serial => "serial".toList

/-- `_Atom`: a token or a literal character, which has no role. -/
structure Atom where
  regex : Regex
  role : Option Role
  inCycle : Bool

/-- A token: its text, its fragment and its role. -/
structure Token where
  text : Str
  regex : Regex
  role : Role

/-- One or two digits, two if possible. -/
def oneOrTwoDigits : Regex := seq decimal (opt decimal)

/-- `_TOKENS` -/
def TOKENS : List Token :=
  [⟨"YYYY".toList, times 4 decimal, .year⟩,
   ⟨"YY".toList, times 2 decimal, .year⟩,
   ⟨"MM".toList, times 2 decimal, .month⟩,
   ⟨"DD".toList, times 2 decimal, .day⟩,
   ⟨"M".toList, oneOrTwoDigits, .month⟩,
   ⟨"D".toList, oneOrTwoDigits, .day⟩,
   ⟨"N".toList, many1 decimal, .serial⟩]

/-- `_CALENDAR_ROLES` -/
def CALENDAR_ROLES : List Role := [.year, .month, .day]

/-- The most digits that `int` reads. -/
def MAX_STR_DIGITS : Nat := 4300

/-- The errors of date formats, and that of `int`. -/
inductive Error where
  | emptyFormat
  | noCalendarField
  | repeatedField
  | noFields
  | twoSpans
  | unmatchedClose
  | unmatchedOpen
  | tooManyDigits
  deriving DecidableEq, Repr

/-- The texts of the errors that the module raises itself. -/
def Error.message : Error → Option String
  | emptyFormat => some "Calver format is empty"
  | noCalendarField => some "Calver format needs at least one of YYYY/YY, MM/M or DD/D"
  | repeatedField => some "Calver format repeats a field"
  | noFields => some "Calver format has no fields"
  | twoSpans => some "Calver format may contain at most one (cycle) span"
  | unmatchedClose => some "Calver format has an unmatched )"
  | unmatchedOpen => some "Calver format has an unmatched ("
  | tooManyDigits => none

/-! ### Parsing a format -/

/-- `_match_token`, of what is left of the format. -/
def matchToken (rest : Str) : Option Token := TOKENS.find? fun token => token.text.isPrefixOf rest

/-- The loop of `_parse`, where the next `skip` characters belong to a token that is already read. -/
def parseFrom (inCycle seenCycle : Bool) : Nat → Str → Except Error (List Atom)
  | _, [] => do
    raiseIf (inCycle = true) .unmatchedOpen
    return []
  | skip + 1, _ :: rest => parseFrom inCycle seenCycle skip rest
  | 0, char :: rest =>
    if char = '(' then do
      raiseIf (seenCycle = true) .twoSpans
      parseFrom true true 0 rest
    else if char = ')' then do
      raiseIf (inCycle = false) .unmatchedClose
      parseFrom false seenCycle 0 rest
    else
      match matchToken (char :: rest) with
      | some token => do
        let atoms ← parseFrom inCycle seenCycle (token.text.length - 1) rest
        return ⟨token.regex, some token.role, inCycle⟩ :: atoms
      | none => do
        let atoms ← parseFrom inCycle seenCycle 0 rest
        return ⟨one (· == char), none, inCycle⟩ :: atoms

/-- `_parse` -/
def parse (dateFormat : Str) : Except Error (List Atom) := parseFrom false false 0 dateFormat

/-! ### Compiling a format -/

/-- The chunks of a format: each separator run is folded onto the token that follows it.  What becomes of the fragment of
a token is given by `field`, and `pending` is the separator run so far. -/
def chunksFrom (field : Role → Regex → Regex) : List Regex → List Atom → List Regex
  | pending, [] => if pending.isEmpty then [] else [cat pending]
  | pending, atom :: atoms =>
    match atom.role with
    | none => chunksFrom field (pending ++ [atom.regex]) atoms
    | some role => cat (pending ++ [field role atom.regex]) :: chunksFrom field [] atoms

/-- `_coalesce` -/
def coalesce (atoms : List Atom) : List Regex := chunksFrom (fun _ regex => regex) [] atoms

/-- `_nested_optional` -/
def nestedOptional : List Regex → Regex
  | [] => empty
  | chunk :: chunks => opt (seq chunk (nestedOptional chunks))

/-- `cycle_regex` -/
def cycleRegex (dateFormat : Str) : Except Error (Option Regex) := do
  let atoms ← parse dateFormat
  let cycleIndices := atoms.findIdxs (·.inCycle)
  match cycleIndices.head?, cycleIndices.getLast? with
  | some first, some last =>
    let before := cat ((atoms.take first).map (·.regex))
    let span := cat (((atoms.take (last + 1)).drop first).map (·.regex))
    let tail := nestedOptional (coalesce (atoms.drop (last + 1)))
    return some (cat [start, before, group "1".toList span, tail, stop])
  | _, _ => return none

/-- `_order_regex` -/
def orderRegex (dateFormat : Str) : Except Error Regex := do
  let atoms ← parse dateFormat
  match chunksFrom (fun role regex => group role.name regex) [] atoms with
  | [] => .error .noFields
  | chunk :: chunks => return cat [start, chunk, nestedOptional chunks, stop]

/-- `validate`.  Compiling the two expressions raises nothing. -/
def validate (dateFormat : Str) : Except Error Unit := do
  raiseIf (strip dateFormat = []) .emptyFormat
  let atoms ← parse dateFormat
  let roles := atoms.filterMap (·.role)
  raiseIf (¬ ∃ role ∈ roles, role ∈ CALENDAR_ROLES) .noCalendarField
  raiseIf (roles.length ≠ roles.dedup.length) .repeatedField
  let _ ← orderRegex dateFormat
  let _ ← cycleRegex dateFormat
  return ()

/-! ### Ordering versions -/

/-- `int`, of a string of digits. -/
def int (s : Str) : Except Error Nat := do
  raiseIf (MAX_STR_DIGITS < s.length) .tooManyDigits
  return decimalNumeral s

/-- The tuple by which versions are ordered. -/
abbrev Key := Nat ×ₗ Nat ×ₗ Nat ×ₗ Nat

/-- A field of the tuple, which is 0 where nothing is captured. -/
def fieldOf (m : Match) (role : Role) : Except Error Nat :=
  match m.stop.groups role.name with
  | some captured => if captured = [] then .ok 0 else int captured
  | none => .ok 0

/-- `order_key` -/
def orderKey (dateFormat version : Str) : Except Error (Option Key) := do
  let pattern ← orderRegex dateFormat
  match fullMatch pattern version with
  | none => return none
  | some m => do
    let year ← fieldOf m .year
    let month ← fieldOf m .month
    let day ← fieldOf m .day
    let serial ← fieldOf m .serial
    return some (toLex (year, toLex (month, toLex (day, serial))))

example : orderKey "(YY.MM).N".toList "09.04.01".toList = .ok (some (toLex (9, toLex (4, toLex (0, 1))))) := by
  decide +kernel

end Calver

end TrustedReleases
