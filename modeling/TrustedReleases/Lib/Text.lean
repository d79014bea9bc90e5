import TrustedReleases.Lib.Str

/-!
# Searching in strings

The methods of strings that look for a part: whether it occurs, where it does first, and the parts between its
occurrences.
-/

namespace Lib

/-- Does the part occur in the string? -/
def contains (part s : Str) : Bool := decide (part <:+: s)

/-- `str.removeprefix` -/
def removePrefix (part s : Str) : Str := if part <+: s then s.drop part.length else s

/-- `str.removesuffix` -/
def removeSuffix (part s : Str) : Str := if part <:+ s then s.take (s.length - part.length) else s

/-- The parts between the occurrences of a separator.  The first argument counts the characters of an occurrence that
are still to be passed over, the second one is the part so far. -/
def splitFrom (sep : Str) : Nat → Str → Str → List Str
  | _, part, [] => [part]
  | 0, part, c :: s =>
    if sep <+: c :: s then part :: splitFrom sep (sep.length - 1) [] s else splitFrom sep 0 (part ++ [c]) s
  | skip + 1, part, _ :: s => splitFrom sep skip part s

/-- `str.split` with a separator that is not empty -/
def splitStr (sep s : Str) : List Str := splitFrom sep 0 [] s

/-- The parts before and after the first occurrence of a separator, if there is one. -/
def cut (sep : Str) : Str → Option (Str × Str)
  | [] => if sep = [] then some ([], []) else none
  | c :: s =>
    if sep <+: c :: s then some ([], (c :: s).drop sep.length)
    else (cut sep s).map fun parts => (c :: parts.1, parts.2)

/-- The string without the characters at its ends that meet a condition. -/
def stripBy (p : Char → Bool) (s : Str) : Str := ((s.dropWhile p).reverse.dropWhile p).reverse

end Lib
