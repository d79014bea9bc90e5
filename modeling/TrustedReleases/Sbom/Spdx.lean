import TrustedReleases.Lib.Except
import TrustedReleases.Lib.Regex

/-!
# Licence expressions

The tokens of an SPDX licence expression and the parser that descends through them.  The parser keeps its place in the
tokens and the number of parentheses that are open, and notes whether an `OR` was read and whether all that was read
besides is plain: no `AND`, and no parentheses but those that enclose the whole expression.  Its calls are as deep as the
parentheses, and the interpreter ends them with a `RecursionError` where the limit leaves no room for another call.
-/

namespace TrustedReleases

open Lib

namespace Spdx

/-- The groups of `TOKEN`. -/
inductive Kind where
  | ws
  | lparen
  | rparen
  | and
  | or
  | with_
  | plus
  | docref
  | licref
  | addref
  | id
  deriving DecidableEq, Repr

structure Token where
  kind : Kind
  value : Str
  deriving DecidableEq

inductive Failure where
  | valueError (text : Str)
  | recursionError
  | outOfFuel
  deriving DecidableEq

/-! ### Tokens -/

open Regex in
def identifierChars : Regex := many1 (one fun c => isAlnum c || c == '.' || c == '-')

open Regex in
/-- `TOKEN`, a group at a time. -/
def pattern : Kind → Regex
  | .ws => many1 (one (isOneOf " \t\n\r\x0b\x0c"))
  | .lparen => lit "("
  | .rparen => lit ")"
  | .and => alt (lit "AND") (lit "and")
  | .or => alt (lit "OR") (lit "or")
  | .with_ => alt (lit "WITH") (lit "with")
  | .plus => lit "+"
  | .docref => cat [lit "DocumentRef-", identifierChars, lit ":LicenseRef-", identifierChars]
  | .licref => cat [lit "LicenseRef-", identifierChars]
  | .addref => cat [lit "AdditionRef-", identifierChars]
  | .id => identifierChars

/-- The groups in the order in which `TOKEN` tries them. -/
def kinds : List Kind := [.ws, .lparen, .rparen, .and, .or, .with_, .plus, .docref, .licref, .addref, .id]

/-- The match of `TOKEN` at the beginning of a text: the token, and what is left. -/
def matchToken (text : Str) : Option (Token × Str) :=
  kinds.findSome? fun kind => (Regex.matchStart (pattern kind) text).map fun m =>
    (⟨kind, text.take (text.length - m.stop.rest.length)⟩, m.stop.rest)

/-- The loop over `TOKEN.finditer`.  A match that starts later than the last one ended, or that is missing where some
text is left, is an error. -/
def tokensFrom (expr : Str) : Nat → Str → Except Failure (List Token)
  | _, [] => .ok []
  | 0, _ => .error .outOfFuel
  | fuel + 1, c :: text => do
    let (token, rest) ← demand (matchToken (c :: text)) (.valueError expr)
    let tokens ← tokensFrom expr fuel rest
    .ok (if token.kind = .ws then tokens else token :: tokens)

/-- A token takes something of the text. -/
private theorem matchToken_length {text rest : Str} {token : Token} (h : matchToken text = some (token, rest)) :
    rest.length < text.length := by
  obtain ⟨kind, -, h⟩ := List.exists_of_findSome?_eq_some h
  obtain ⟨m, hm, heq⟩ := Option.map_eq_some_iff.1 h
  obtain rfl := (Prod.mk.inj heq).2
  obtain ⟨place, hplace, rfl⟩ := Option.map_eq_some_iff.1 hm
  have hconsuming : Regex.consuming (pattern kind) = true := by cases kind <;> decide
  exact (Regex.mem_run_length (List.mem_of_mem_head? hplace)).2 hconsuming

/-- As much fuel as there is text suffices. -/
theorem tokensFrom_ne_outOfFuel (expr : Str) {fuel : Nat} {text : Str} (hfuel : text.length ≤ fuel) :
    tokensFrom expr fuel text ≠ .error .outOfFuel := by
  induction fuel generalizing text with
  | zero =>
    rw [List.eq_nil_of_length_eq_zero (Nat.le_zero.1 hfuel)]
    simp [tokensFrom]
  | succ fuel ih =>
    cases text with
    | nil => simp [tokensFrom]
    | cons c text =>
      rw [tokensFrom]
      cases hmatch : matchToken (c :: text) with
      | none =>
        intro h
        cases h
      | some found =>
        obtain ⟨token, rest⟩ := found
        have hlt := matchToken_length hmatch
        have hrest := ih (show rest.length ≤ fuel by omega)
        intro h
        cases htokens : tokensFrom expr fuel rest with
        | ok tokens =>
          rw [demand, ok_bind] at h
          dsimp only at h
          rw [htokens] at h
          cases h
        | error failure =>
          rw [demand, ok_bind] at h
          dsimp only at h
          rw [htokens, error_bind] at h
          rw [htokens] at hrest
          exact hrest h

/-! ### The parser -/

@[ext]
structure LicenseExpressionParser where
  items : List Token
  text : Str
  position : Nat
  depth : Nat
  disjunctive : Bool
  plain : Bool
  deriving DecidableEq

namespace LicenseExpressionParser

def init (items : List Token) (text : Str) : LicenseExpressionParser := ⟨items, text, 0, 0, false, true⟩

def enclosing (self : LicenseExpressionParser) (start : Nat) : Bool :=
  start == self.depth && (self.position : Int) == self.items.length - self.depth

def peek (self : LicenseExpressionParser) (kind : Kind) : Bool :=
  (self.items[self.position]?).any (·.kind = kind)

def advance (self : LicenseExpressionParser) : LicenseExpressionParser := { self with position := self.position + 1 }

end LicenseExpressionParser

/-- The atoms that were read, whether they are one licence, and where the parser is then. -/
abbrev Outcome := Except Failure ((Finset Str × Bool) × LicenseExpressionParser)

def Kind.isIdentifier (kind : Kind) : Bool := kind = .id || kind = .licref || kind = .docref

def Kind.isAddition (kind : Kind) : Bool := kind.isIdentifier || kind = .addref

/-! Each call has the number of calls that there is room for, itself included, before the fuel of the recursion is used
up. -/

mutual

def parseExpression : Nat → Nat → LicenseExpressionParser → Outcome
  | 0, _, _ => .error .outOfFuel
  | _ + 1, 0, _ => .error .recursionError
  | fuel + 1, room + 1, self => do
    let ((atoms, simple), self) ← parseConjunction fuel room self
    whileOr fuel room atoms simple self

/-- The loop of `parse_expression`.  After an operand there is room for `peek`. -/
def whileOr : Nat → Nat → Finset Str → Bool → LicenseExpressionParser → Outcome
  | 0, _, _, _, _ => .error .outOfFuel
  | fuel + 1, room, atoms, simple, self =>
    if self.peek .or then do
      let ((more, _), self) ← parseConjunction fuel room self.advance
      whileOr fuel room (atoms ∪ more) false { self with disjunctive := true }
    else .ok ((atoms, simple), self)

def parseConjunction : Nat → Nat → LicenseExpressionParser → Outcome
  | 0, _, _ => .error .outOfFuel
  | _ + 1, 0, _ => .error .recursionError
  | fuel + 1, room + 1, self => do
    let ((atoms, simple), self) ← parseWith fuel room self
    whileAnd fuel room atoms simple self

/-- The loop of `parse_conjunction`. -/
def whileAnd : Nat → Nat → Finset Str → Bool → LicenseExpressionParser → Outcome
  | 0, _, _, _, _ => .error .outOfFuel
  | fuel + 1, room, atoms, simple, self =>
    if self.peek .and then do
      let ((more, _), self) ← parseWith fuel room self.advance
      whileAnd fuel room (atoms ∪ more) false { self with plain := false }
    else .ok ((atoms, simple), self)

def parseWith : Nat → Nat → LicenseExpressionParser → Outcome
  | 0, _, _ => .error .outOfFuel
  | _ + 1, 0, _ => .error .recursionError
  | fuel + 1, room + 1, self => do
    let ((atoms, simple), self) ← parsePrimary fuel room false self
    whileWith fuel room atoms simple self

/-- The loop of `parse_with`. -/
def whileWith : Nat → Nat → Finset Str → Bool → LicenseExpressionParser → Outcome
  | 0, _, _, _, _ => .error .outOfFuel
  | fuel + 1, room, atoms, simple, self =>
    if self.peek .with_ then
      if simple then do
        let ((_, rightSimple), self) ← parsePrimary fuel room true self.advance
        if rightSimple then whileWith fuel room atoms false self else .error (.valueError self.text)
      else .error (.valueError self.text)
    else .ok ((atoms, simple), self)

def parsePrimary : Nat → Nat → Bool → LicenseExpressionParser → Outcome
  | 0, _, _, _ => .error .outOfFuel
  | _ + 1, 0, _, _ => .error .recursionError
  | fuel + 1, room + 1, forAddition, self =>
    match self.items[self.position]? with
    | none => .error (.valueError self.text)
    | some ⟨kind, value⟩ =>
      if kind = .lparen then do
        let start := self.position
        let ((atoms, _), self) ← parseExpression fuel room { self.advance with depth := self.depth + 1 }
        if self.peek .rparen then
          let self := { self.advance with depth := self.depth - 1 }
          .ok ((atoms, false), if self.enclosing start then self else { self with plain := false })
        else .error (.valueError self.text)
      else if !forAddition && kind.isIdentifier then do
        -- here the call of `peek` is the deepest
        raiseIf (room = 0) .recursionError
        let self := self.advance
        .ok (({value}, true), if self.peek .plus then self.advance else self)
      else if forAddition && kind.isAddition then .ok ((∅, true), self.advance)
      else .error (.valueError self.text)

end

/-- As many calls and turns as reading the tokens can take. -/
def enough (items : List Token) : Nat := 4 * items.length + 4

/-- `parse`, where there is room for so many calls. -/
def LicenseExpressionParser.parse (room : Nat) (self : LicenseExpressionParser) : Except Failure (Finset Str × Bool) := do
  let ((atoms, _), self) ← parseExpression (enough self.items) room self
  if self.position ≠ self.items.length then .error (.valueError self.text)
  else .ok (atoms, self.disjunctive && self.plain)

def licenseExpressionAtoms (room : Nat) (expr : Str) : Except Failure (Finset Str × Bool) := do
  let tokens ← tokensFrom expr expr.length expr
  (LicenseExpressionParser.init tokens expr).parse room

example : (licenseExpressionAtoms 1000 "((MIT OR GPL-2.0+ WITH x))".toList).toOption =
    some ({"MIT".toList, "GPL-2.0".toList}, true) := by
  decide +kernel

end Spdx

end TrustedReleases
