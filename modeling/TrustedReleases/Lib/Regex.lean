import TrustedReleases.Lib.Unicode

/-!
# Regular expressions

Regular expressions as a backtracking engine reads them: a match goes through the alternatives in their order and takes
the first way that leads to the end.  `run` lists the ways in that order, so the first one of the list is the match.
Words and cases are those of Unicode.
-/

namespace Lib

/-- A place in a text: what is before it, the last character first, what is after it, and the groups so far. -/
structure Cursor where
  before : Str
  rest : Str
  groups : Str → Option Str

inductive Regex where
  | empty
  | one (p : Char → Bool)
  | seq (a b : Regex)
  | alt (a b : Regex)
  | star (greedy : Bool) (a : Regex)
  | group (name : Str) (a : Regex)
  | lookahead (positive : Bool) (a : Regex)
  | lookbehind (positive : Bool) (p : Char → Bool)
  | start
  | stop
  | wordBoundary

namespace Regex

/-- `[0-9]` -/
def isDigit (c : Char) : Bool := '0' ≤ c && c ≤ '9'

/-- `[A-Za-z]` -/
def isLetter (c : Char) : Bool := ('a' ≤ c && c ≤ 'z') || ('A' ≤ c && c ≤ 'Z')

/-- `[0-9A-Za-z]` -/
def isAlnum (c : Char) : Bool := isDigit c || isLetter c

/-- A character that `\b` counts to a word. -/
def isWordChar (c : Char) : Bool := Unicode.isAlnum c || c == '_'

def isOneOf (s : String) (c : Char) : Bool := s.toList.contains c

/-- The ways to repeat a step, each time over at least one character, with the longest one first if greedy. -/
def iterate (step : Cursor → List Cursor) (greedy : Bool) : Nat → Cursor → List Cursor
  | 0, c => [c]
  | n + 1, c =>
    let more := ((step c).filter fun c' => c'.rest.length < c.rest.length).flatMap (iterate step greedy n)
    if greedy then more ++ [c] else c :: more

/-- The ways to match from a place on, in the order in which they are tried. -/
def run : Regex → Cursor → List Cursor
  | empty, c => [c]
  | one p, c =>
    match c.rest with
    | [] => []
    | x :: rest => if p x then [{ c with before := x :: c.before, rest := rest }] else []
  | seq a b, c => (run a c).flatMap (run b)
  | alt a b, c => run a c ++ run b c
  | star greedy a, c => iterate (run a) greedy c.rest.length c
  | group name a, c => (run a c).map fun c' =>
    let matched := c.rest.take (c.rest.length - c'.rest.length)
    { c' with groups := fun n => if n = name then some matched else c'.groups n }
  | lookahead positive a, c => if (run a c).isEmpty = !positive then [c] else []
  | lookbehind positive p, c => if c.before.head?.any p = positive then [c] else []
  | start, c => if c.before = [] then [c] else []
  | stop, c => if c.rest = [] ∨ c.rest = ['\n'] then [c] else []
  | wordBoundary, c => if c.before.head?.any isWordChar ≠ c.rest.head?.any isWordChar then [c] else []

/-- A match: where it starts, and the place where it ends. -/
structure Match where
  start : Nat
  stop : Cursor

/-- `match.group` -/
def Match.group (m : Match) (name : String) : Option Str := m.stop.groups name.toList

/-- `re.match`: a match from the beginning of the text. -/
def matchStart (r : Regex) (text : Str) : Option Match := (run r ⟨[], text, fun _ => none⟩).head?.map (⟨0, ·⟩)

/-- The first match from a place on. -/
def searchFrom (r : Regex) : Str → Str → Option Match
  | before, [] => (run r ⟨before, [], fun _ => none⟩).head?.map (⟨before.length, ·⟩)
  | before, c :: rest =>
    match (run r ⟨before, c :: rest, fun _ => none⟩).head? with
    | some place => some ⟨before.length, place⟩
    | none => searchFrom r (c :: before) rest

/-- `re.search` -/
def search (r : Regex) (text : Str) : Option Match := searchFrom r [] text

/-! ### Shorthands -/

def lit (s : String) : Regex := s.toList.foldr (fun c r => seq (one (· == c)) r) empty

/-- The letter of ASCII, in lower case, for which a character stands if the case does not count. -/
def ignoreCase (c : Char) : Char :=
  if c = 'İ' ∨ c = 'ı' then 'i'
  else if c = 'ſ' then 's'
  else if c = '\u212A' then 'k'
  else c.toLower

/-- The text, which has no letters but the small ones of ASCII, in any case. -/
def litAnyCase (s : String) : Regex := s.toList.foldr (fun c r => seq (one fun x => ignoreCase x == c) r) empty

/-- `[A-Za-z]` in any case -/
def letterAnyCase : Regex := one fun c => isLetter (ignoreCase c)

def cat (rs : List Regex) : Regex := rs.foldr seq empty

/-- One of the alternatives, there being at least one. -/
def alts : List Regex → Regex
  | [] => empty
  | [r] => r
  | r :: rs => alt r (alts rs)

def many (a : Regex) : Regex := star true a

def many1 (a : Regex) : Regex := seq a (star true a)

def many1Lazy (a : Regex) : Regex := seq a (star false a)

def opt (a : Regex) : Regex := alt a empty

/-- The expression `n` times. -/
def times (n : Nat) (a : Regex) : Regex := cat (List.replicate n a)

/-- `[0-9]` -/
def digit : Regex := one isDigit

/-! ### Matches that take something -/

/-- Expressions that match at least one character, as far as their form shows it. -/
def consuming : Regex → Bool
  | one _ => true
  | seq a b => consuming a || consuming b
  | alt a b => consuming a && consuming b
  | group _ a => consuming a
  | _ => false

private theorem mem_iterate_length {step : Cursor → List Cursor} {greedy : Bool} {n : Nat} {c c' : Cursor}
    (h : c' ∈ iterate step greedy n c) : c'.rest.length ≤ c.rest.length := by
  induction n generalizing c with
  | zero =>
    rw [iterate, List.mem_singleton] at h
    rw [h]
  | succ n ih =>
    have hmem : c' = c ∨ c' ∈ ((step c).filter fun c' => c'.rest.length < c.rest.length).flatMap
        (iterate step greedy n) := by
      unfold iterate at h
      split at h
      · exact (List.mem_append.1 h).symm.imp List.mem_singleton.1 id
      · exact List.mem_cons.1 h
    cases hmem with
    | inl h => rw [h]
    | inr h =>
      obtain ⟨c₁, hc₁, h⟩ := List.mem_flatMap.1 h
      have hlt := of_decide_eq_true (List.mem_filter.1 hc₁).2
      have hle := ih h
      omega

/-- A match leaves no more of the text than there was, and less if the expression is a consuming one. -/
theorem mem_run_length {r : Regex} {c c' : Cursor} (h : c' ∈ run r c) :
    c'.rest.length ≤ c.rest.length ∧ (consuming r = true → c'.rest.length < c.rest.length) := by
  induction r generalizing c c' with
  | one p =>
    unfold run at h
    split at h
    · cases h
    · rename_i x rest hrest
      split at h
      · rw [List.mem_singleton.1 h, hrest]
        simp
      · cases h
  | seq a b iha ihb =>
    obtain ⟨c₁, h₁, h⟩ := List.mem_flatMap.1 h
    have hfirst := iha h₁
    have hsecond := ihb h
    refine ⟨hsecond.1.trans hfirst.1, fun hc => ?_⟩
    cases Bool.or_eq_true_iff.1 hc with
    | inl ha => exact hsecond.1.trans_lt (hfirst.2 ha)
    | inr hb => exact (hsecond.2 hb).trans_le hfirst.1
  | alt a b iha ihb =>
    cases List.mem_append.1 h with
    | inl h => exact ⟨(iha h).1, fun hc => (iha h).2 (Bool.and_eq_true_iff.1 hc).1⟩
    | inr h => exact ⟨(ihb h).1, fun hc => (ihb h).2 (Bool.and_eq_true_iff.1 hc).2⟩
  | star greedy a iha => exact ⟨mem_iterate_length h, fun hc => by cases hc⟩
  | group name a iha =>
    obtain ⟨c₁, h₁, rfl⟩ := List.mem_map.1 h
    have hinner := iha h₁
    exact hinner
  | empty =>
    rw [run, List.mem_singleton] at h
    exact ⟨by rw [h], fun hc => by cases hc⟩
  | lookahead _ _ _ | lookbehind _ _ | start | stop | wordBoundary =>
    unfold run at h
    split at h
    · rw [List.mem_singleton.1 h]
      exact ⟨le_rfl, fun hc => by cases hc⟩
    · cases h

end Regex

end Lib
