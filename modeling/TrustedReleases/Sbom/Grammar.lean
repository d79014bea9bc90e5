import TrustedReleases.Sbom.Spdx

/-!
# The grammar of licence expressions

What a list of tokens says as a licence expression is a derivation (`Derives`).  The parser always ends and what it
accepts has a derivation (`parse_sound`); what has a derivation it accepts, with the names and the flags that the
expression gives, if there is room for the depth of its parentheses, and otherwise not (`parse_complete`).
-/

namespace TrustedReleases

open Lib

namespace Spdx

inductive Expr where
  | licence (name : Str) (addition : Option Str)
  | parens (e : Expr)
  | and (l r : Expr)
  | or (l r : Expr)
  deriving DecidableEq

/-- The symbols of the grammar.  Behind an operand more operands can follow, and the symbol then holds what was read. -/
inductive Symbol where
  | expression
  | moreOr (e : Expr)
  | conjunction
  | moreAnd (e : Expr)
  | withPart
  | primary

/-- From the first list on the symbol stands for the expression, up to where the second list begins. -/
inductive Derives : Symbol → List Token → Expr → List Token → Prop
  | expression {ts us vs : List Token} {e e' : Expr} :
    Derives .conjunction ts e us → Derives (.moreOr e) us e' vs → Derives .expression ts e' vs
  | orEnd {ts : List Token} {e : Expr} : Derives (.moreOr e) ts e ts
  | orMore {t : Token} {ts us vs : List Token} {e e' e'' : Expr} : t.kind = .or → Derives .conjunction ts e' us →
    Derives (.moreOr (.or e e')) us e'' vs → Derives (.moreOr e) (t :: ts) e'' vs
  | conjunction {ts us vs : List Token} {e e' : Expr} :
    Derives .withPart ts e us → Derives (.moreAnd e) us e' vs → Derives .conjunction ts e' vs
  | andEnd {ts : List Token} {e : Expr} : Derives (.moreAnd e) ts e ts
  | andMore {t : Token} {ts us vs : List Token} {e e' e'' : Expr} : t.kind = .and → Derives .withPart ts e' us →
    Derives (.moreAnd (.and e e')) us e'' vs → Derives (.moreAnd e) (t :: ts) e'' vs
  | withNone {ts us : List Token} {e : Expr} : Derives .primary ts e us → Derives .withPart ts e us
  | withAddition {ts us : List Token} {t a : Token} {name : Str} : Derives .primary ts (.licence name none) (t :: a :: us) →
    t.kind = .with_ → a.kind.isAddition → Derives .withPart ts (.licence name (some a.value)) us
  | identifier {t : Token} {ts : List Token} : t.kind.isIdentifier → Derives .primary (t :: ts) (.licence t.value none) ts
  | orLater {t p : Token} {ts : List Token} : t.kind.isIdentifier → p.kind = .plus →
    Derives .primary (t :: p :: ts) (.licence t.value none) ts
  | parens {l r : Token} {ts us : List Token} {e : Expr} : l.kind = .lparen → Derives .expression ts e (r :: us) →
    r.kind = .rparen → Derives .primary (l :: ts) (.parens e) us

/-- A symbol that stands for no tokens at all where nothing more follows. -/
def Symbol.isTail : Symbol → Bool
  | .moreOr _ | .moreAnd _ => true
  | _ => false

/-- What a derivation leaves is an end of what there was, and a proper one but where nothing more follows. -/
theorem Derives.suffix {s : Symbol} {ts us : List Token} {e : Expr} (h : Derives s ts e us) :
    us <:+ ts ∧ (s.isTail = false → us.length < ts.length) := by
  induction h with
  | expression _ _ ih₁ ih₂ | conjunction _ _ ih₁ ih₂ =>
    exact ⟨ih₂.1.trans ih₁.1, fun _ => ih₂.1.length_le.trans_lt (ih₁.2 rfl)⟩
  | orEnd | andEnd => exact ⟨List.suffix_rfl, fun hs => by cases hs⟩
  | orMore _ _ _ ih₁ ih₂ | andMore _ _ _ ih₁ ih₂ =>
    exact ⟨(ih₂.1.trans ih₁.1).trans (List.suffix_cons _ _), fun hs => by cases hs⟩
  | withNone _ ih => exact ⟨ih.1, fun _ => ih.2 rfl⟩
  | withAddition _ _ _ ih =>
    have hlt := ih.2 rfl
    refine ⟨((List.suffix_cons _ _).trans (List.suffix_cons _ _)).trans ih.1, fun _ => ?_⟩
    simp only [List.length_cons] at hlt
    omega
  | identifier _ => exact ⟨List.suffix_cons _ _, fun _ => by simp⟩
  | orLater _ _ => exact ⟨(List.suffix_cons _ _).trans (List.suffix_cons _ _), fun _ => by simp⟩
  | parens _ _ _ ih =>
    have hlt := ih.2 rfl
    refine ⟨((List.suffix_cons _ _).trans ih.1).trans (List.suffix_cons _ _), fun _ => ?_⟩
    simp only [List.length_cons] at hlt ⊢
    omega

/-! ### The tokens that are left -/

namespace LicenseExpressionParser

variable {self : LicenseExpressionParser}

def rest (self : LicenseExpressionParser) : List Token := self.items.drop self.position

private theorem rest_advance : self.advance.rest = self.rest.tail := List.tail_drop.symm

private theorem rest_eq_cons {t : Token} :
    self.items[self.position]? = some t ↔ self.rest = t :: self.advance.rest := by
  have hhead : self.rest.head? = self.items[self.position]? := List.head?_drop
  rw [← hhead, rest_advance]
  cases self.rest <;> simp

private theorem peek_eq_true {kind : Kind} :
    self.peek kind = true ↔ ∃ t, t.kind = kind ∧ self.rest = t :: self.advance.rest := by
  simp only [peek, Option.any_eq_true, rest_eq_cons, decide_eq_true_eq]
  exact exists_congr fun t => and_comm

end LicenseExpressionParser

/-! ### What is accepted has a derivation -/

/-- The outcome is a `ValueError` or a `RecursionError` or meets the condition. -/
def Ends (o : Outcome) (P : Bool → LicenseExpressionParser → Prop) : Prop :=
  match o with
  | .ok ((_, simple), self) => P simple self
  | .error (.valueError _) | .error .recursionError => True
  | .error .outOfFuel => False

theorem Ends.bind {o : Outcome} {f : (Finset Str × Bool) × LicenseExpressionParser → Outcome}
    {P Q : Bool → LicenseExpressionParser → Prop} (h : Ends o P)
    (hf : ∀ atoms simple self, P simple self → Ends (f ((atoms, simple), self)) Q) : Ends (o >>= f) Q := by
  match o, h with
  | .ok ((atoms, simple), self), h => exact hf atoms simple self h
  | .error (.valueError _), _ | .error .recursionError, _ => trivial

theorem Ends.imp {o : Outcome} {P Q : Bool → LicenseExpressionParser → Prop} (h : Ends o P)
    (himp : ∀ simple self, P simple self → Q simple self) : Ends o Q := by
  match o, h with
  | .ok ((_, simple), self), h => exact himp simple self h
  | .error (.valueError _), _ | .error .recursionError, _ => trivial

/-- What the calls of the parser come to if they have the fuel for the tokens that are left. -/
structure Sound (fuel : Nat) : Prop where
  expression : ∀ (room : Nat) (self : LicenseExpressionParser), 4 * self.rest.length + 4 ≤ fuel →
    Ends (parseExpression fuel room self) fun _ self' => ∃ e, Derives .expression self.rest e self'.rest
  moreOr : ∀ (room : Nat) (self : LicenseExpressionParser) (atoms : Finset Str) (simple : Bool) (e : Expr),
    4 * self.rest.length + 1 ≤ fuel →
    Ends (whileOr fuel room atoms simple self) fun _ self' => ∃ e', Derives (.moreOr e) self.rest e' self'.rest
  conjunction : ∀ (room : Nat) (self : LicenseExpressionParser), 4 * self.rest.length + 3 ≤ fuel →
    Ends (parseConjunction fuel room self) fun _ self' => ∃ e, Derives .conjunction self.rest e self'.rest
  moreAnd : ∀ (room : Nat) (self : LicenseExpressionParser) (atoms : Finset Str) (simple : Bool) (e : Expr),
    4 * self.rest.length + 1 ≤ fuel →
    Ends (whileAnd fuel room atoms simple self) fun _ self' => ∃ e', Derives (.moreAnd e) self.rest e' self'.rest
  withPart : ∀ (room : Nat) (self : LicenseExpressionParser), 4 * self.rest.length + 2 ≤ fuel →
    Ends (parseWith fuel room self) fun _ self' => ∃ e, Derives .withPart self.rest e self'.rest
  moreWith : ∀ (room : Nat) (self : LicenseExpressionParser) (atoms : Finset Str) (simple : Bool) (ts : List Token) (e : Expr),
    4 * self.rest.length + 1 ≤ fuel → Derives .primary ts e self.rest →
    (simple = true → ∃ name, e = .licence name none) →
    Ends (whileWith fuel room atoms simple self) fun _ self' => ∃ e', Derives .withPart ts e' self'.rest
  primary : ∀ (room : Nat) (self : LicenseExpressionParser), 4 * self.rest.length + 1 ≤ fuel →
    Ends (parsePrimary fuel room false self) fun simple self' =>
      ∃ e, Derives .primary self.rest e self'.rest ∧ (simple = true → ∃ name, e = .licence name none)
  addition : ∀ (room : Nat) (self : LicenseExpressionParser), 4 * self.rest.length + 1 ≤ fuel →
    Ends (parsePrimary fuel room true self) fun simple self' =>
      simple = true → ∃ a : Token, a.kind.isAddition = true ∧ self.rest = a :: self'.rest

section

variable {fuel room : Nat} {self : LicenseExpressionParser}

private theorem parseExpression_step (h : Sound fuel) (hfuel : 4 * self.rest.length + 4 ≤ fuel + 1) :
    Ends (parseExpression (fuel + 1) room self) fun _ self' => ∃ e, Derives .expression self.rest e self'.rest := by
  cases room with
  | zero => simp [parseExpression, Ends]
  | succ room =>
    unfold parseExpression
    apply (h.conjunction _ self (by omega)).bind
    intro atoms simple self₁ hfirst
    obtain ⟨e, he⟩ := hfirst
    have hlt := he.suffix.2 rfl
    apply (h.moreOr _ self₁ atoms simple e (by omega)).imp
    intro _ self' hmore
    obtain ⟨e', he'⟩ := hmore
    exact ⟨e', .expression he he'⟩

private theorem whileOr_step (h : Sound fuel) (atoms : Finset Str) (simple : Bool) (e : Expr)
    (hfuel : 4 * self.rest.length + 1 ≤ fuel + 1) :
    Ends (whileOr (fuel + 1) room atoms simple self) fun _ self' => ∃ e', Derives (.moreOr e) self.rest e' self'.rest := by
  unfold whileOr
  split
  · rename_i hpeek
    obtain ⟨t, ht, hrest⟩ := LicenseExpressionParser.peek_eq_true.1 hpeek
    have hlen := congrArg List.length hrest
    rw [List.length_cons] at hlen
    apply (h.conjunction _ self.advance (by omega)).bind
    intro more _ self₁ hnext
    obtain ⟨e₁, he₁⟩ := hnext
    have hlt := he₁.suffix.2 rfl
    have hmore := h.moreOr room { self₁ with disjunctive := true } (atoms ∪ more) false (.or e e₁)
    apply (hmore (by change 4 * self₁.rest.length + 1 ≤ fuel; omega)).imp
    intro _ self' hend
    obtain ⟨e', he'⟩ := hend
    exact ⟨e', hrest ▸ .orMore ht he₁ he'⟩
  · exact ⟨e, .orEnd⟩

private theorem parseConjunction_step (h : Sound fuel) (hfuel : 4 * self.rest.length + 3 ≤ fuel + 1) :
    Ends (parseConjunction (fuel + 1) room self) fun _ self' => ∃ e, Derives .conjunction self.rest e self'.rest := by
  cases room with
  | zero => simp [parseConjunction, Ends]
  | succ room =>
    unfold parseConjunction
    apply (h.withPart _ self (by omega)).bind
    intro atoms simple self₁ hfirst
    obtain ⟨e, he⟩ := hfirst
    have hlt := he.suffix.2 rfl
    apply (h.moreAnd _ self₁ atoms simple e (by omega)).imp
    intro _ self' hmore
    obtain ⟨e', he'⟩ := hmore
    exact ⟨e', .conjunction he he'⟩

private theorem whileAnd_step (h : Sound fuel) (atoms : Finset Str) (simple : Bool) (e : Expr)
    (hfuel : 4 * self.rest.length + 1 ≤ fuel + 1) :
    Ends (whileAnd (fuel + 1) room atoms simple self) fun _ self' => ∃ e', Derives (.moreAnd e) self.rest e' self'.rest := by
  unfold whileAnd
  split
  · rename_i hpeek
    obtain ⟨t, ht, hrest⟩ := LicenseExpressionParser.peek_eq_true.1 hpeek
    have hlen := congrArg List.length hrest
    rw [List.length_cons] at hlen
    apply (h.withPart _ self.advance (by omega)).bind
    intro more _ self₁ hnext
    obtain ⟨e₁, he₁⟩ := hnext
    have hlt := he₁.suffix.2 rfl
    have hmore := h.moreAnd room { self₁ with plain := false } (atoms ∪ more) false (.and e e₁)
    apply (hmore (by change 4 * self₁.rest.length + 1 ≤ fuel; omega)).imp
    intro _ self' hend
    obtain ⟨e', he'⟩ := hend
    exact ⟨e', hrest ▸ .andMore ht he₁ he'⟩
  · exact ⟨e, .andEnd⟩

private theorem parseWith_step (h : Sound fuel) (hfuel : 4 * self.rest.length + 2 ≤ fuel + 1) :
    Ends (parseWith (fuel + 1) room self) fun _ self' => ∃ e, Derives .withPart self.rest e self'.rest := by
  cases room with
  | zero => simp [parseWith, Ends]
  | succ room =>
    unfold parseWith
    apply (h.primary _ self (by omega)).bind
    intro atoms simple self₁ hfirst
    obtain ⟨e, he, hsimple⟩ := hfirst
    have hlt := he.suffix.2 rfl
    exact h.moreWith _ self₁ atoms simple self.rest e (by omega) he hsimple

/-- Behind an addition no second one is read. -/
private theorem whileWith_not_simple (atoms : Finset Str) (hfuel : 1 ≤ fuel) :
    Ends (whileWith fuel room atoms false self) fun _ self' => self' = self := by
  obtain ⟨fuel, rfl⟩ := Nat.exists_eq_add_of_le' hfuel
  unfold whileWith
  split
  · trivial
  · exact rfl

private theorem whileWith_step (h : Sound fuel) (atoms : Finset Str) (simple : Bool) (ts : List Token) (e : Expr)
    (hfuel : 4 * self.rest.length + 1 ≤ fuel + 1) (he : Derives .primary ts e self.rest)
    (hsimple : simple = true → ∃ name, e = .licence name none) :
    Ends (whileWith (fuel + 1) room atoms simple self) fun _ self' => ∃ e', Derives .withPart ts e' self'.rest := by
  unfold whileWith
  split
  · rename_i hpeek
    obtain ⟨t, ht, hrest⟩ := LicenseExpressionParser.peek_eq_true.1 hpeek
    have hlen := congrArg List.length hrest
    rw [List.length_cons] at hlen
    split
    · rename_i hleft
      obtain ⟨name, rfl⟩ := hsimple hleft
      apply (h.addition _ self.advance (by omega)).bind
      intro _ rightSimple self₁ hright
      dsimp only
      split
      · rename_i hplain
        obtain ⟨a, ha, hadd⟩ := hright hplain
        rw [hrest, hadd] at he
        apply (whileWith_not_simple atoms (by omega)).imp
        intro _ self' hself
        rw [hself]
        exact ⟨_, .withAddition he ht ha⟩
      · trivial
    · trivial
  · exact ⟨e, .withNone he⟩

private theorem parsePrimary_step (h : Sound fuel) (hfuel : 4 * self.rest.length + 1 ≤ fuel + 1) :
    Ends (parsePrimary (fuel + 1) room false self) fun simple self' =>
      ∃ e, Derives .primary self.rest e self'.rest ∧ (simple = true → ∃ name, e = .licence name none) := by
  cases room with
  | zero => simp [parsePrimary, Ends]
  | succ room =>
    unfold parsePrimary
    split
    · trivial
    · rename_i kind value hitem
      have hrest := LicenseExpressionParser.rest_eq_cons.1 hitem
      have hlen := congrArg List.length hrest
      rw [List.length_cons] at hlen
      split
      · rename_i hparen
        have hinner := h.expression room { self.advance with depth := self.depth + 1 }
        apply (hinner (by change 4 * self.advance.rest.length + 4 ≤ fuel; omega)).bind
        intro atoms _ self₁ hexpr
        obtain ⟨e, he⟩ := hexpr
        change Derives .expression self.advance.rest e self₁.rest at he
        dsimp only
        split
        · rename_i hpeek
          obtain ⟨r, hr, hrest₁⟩ := LicenseExpressionParser.peek_eq_true.1 hpeek
          rw [hrest₁] at he
          have hprimary : Derives .primary self.rest (.parens e) self₁.advance.rest := hrest ▸ .parens hparen he hr
          refine ⟨.parens e, ?_, fun hs => by cases hs⟩
          split <;> exact hprimary
        · trivial
      · split
        · rename_i hid
          have hkind : kind.isIdentifier = true := by simpa using hid
          cases room with
          | zero => exact trivial
          | succ room =>
            refine ⟨.licence value none, ?_, fun _ => ⟨value, rfl⟩⟩
            split
            · rename_i hpeek
              obtain ⟨p, hp, hrest₁⟩ := LicenseExpressionParser.peek_eq_true.1 hpeek
              rw [hrest, hrest₁]
              exact .orLater (t := ⟨kind, value⟩) hkind hp
            · rw [hrest]
              exact .identifier (t := ⟨kind, value⟩) hkind
        · trivial

private theorem parseAddition_step (h : Sound fuel) (hfuel : 4 * self.rest.length + 1 ≤ fuel + 1) :
    Ends (parsePrimary (fuel + 1) room true self) fun simple self' =>
      simple = true → ∃ a : Token, a.kind.isAddition = true ∧ self.rest = a :: self'.rest := by
  cases room with
  | zero => simp [parsePrimary, Ends]
  | succ room =>
    unfold parsePrimary
    split
    · trivial
    · rename_i kind value hitem
      have hrest := LicenseExpressionParser.rest_eq_cons.1 hitem
      have hlen := congrArg List.length hrest
      rw [List.length_cons] at hlen
      split
      · have hinner := h.expression room { self.advance with depth := self.depth + 1 }
        apply (hinner (by change 4 * self.advance.rest.length + 4 ≤ fuel; omega)).bind
        intro atoms _ self₁ _
        dsimp only
        split
        · intro hs
          cases hs
        · trivial
      · split
        · rename_i hid
          simp at hid
        · split
          · rename_i hadd
            intro _
            exact ⟨⟨kind, value⟩, by simpa using hadd, hrest⟩
          · trivial

end

theorem sound (fuel : Nat) : Sound fuel := by
  induction fuel with
  | zero => constructor <;> (intros; omega)
  | succ fuel ih =>
    exact ⟨fun _ _ => parseExpression_step ih, fun _ _ atoms simple e => whileOr_step ih atoms simple e,
      fun _ _ => parseConjunction_step ih, fun _ _ atoms simple e => whileAnd_step ih atoms simple e,
      fun _ _ => parseWith_step ih, fun _ _ atoms simple ts e => whileWith_step ih atoms simple ts e,
      fun _ _ => parsePrimary_step ih, fun _ _ => parseAddition_step ih⟩

/-! ### What has a derivation is accepted -/

namespace Expr

/-- The licences outside the additions. -/
def names : Expr → Finset Str
  | licence name _ => {name}
  | parens e => e.names
  | and l r | or l r => l.names ∪ r.names

/-- How deep the parentheses are. -/
def nesting : Expr → Nat
  | licence _ _ => 0
  | parens e => e.nesting + 1
  | and l r | or l r => max l.nesting r.nesting

def hasOr : Expr → Bool
  | licence _ _ => false
  | parens e => e.hasOr
  | and l r => l.hasOr || r.hasOr
  | or _ _ => true

/-- No `AND`, and parentheses only around everything, for an expression of which it is known whether nothing but open
parentheses comes before it and nothing but the ends of these after it. -/
def plainAt : Expr → Bool → Bool → Bool
  | licence _ _, _, _ => true
  | parens e, first, last => (first && last) && e.plainAt first last
  | and _ _, _, _ => false
  | or l r, first, last => l.plainAt first false && r.plainAt false last

end Expr

/-- The kinds of token by which a symbol would be read on. -/
def Symbol.goesOn : Symbol → List Kind
  | .expression | .moreOr _ => [.plus, .with_, .and, .or]
  | .conjunction | .moreAnd _ => [.plus, .with_, .and]
  | .withPart => [.plus, .with_]
  | .primary => [.plus]

def Follows (s : Symbol) (ts : List Token) : Prop := ∀ kind ∈ s.goesOn, ts.head?.any (·.kind = kind) = false

private theorem Derives.follows_moreOr {ts us : List Token} {e e' : Expr} (h : Derives (.moreOr e) ts e' us)
    (hfollows : Follows .expression us) : Follows .conjunction ts := by
  intro kind hkind
  cases h with
  | orEnd => exact hfollows kind (by simp [Symbol.goesOn] at hkind ⊢; tauto)
  | orMore ht _ _ =>
    have hne : kind ≠ .or := by rintro rfl; simp [Symbol.goesOn] at hkind
    simpa [ht] using hne.symm

private theorem Derives.follows_moreAnd {ts us : List Token} {e e' : Expr} (h : Derives (.moreAnd e) ts e' us)
    (hfollows : Follows .conjunction us) : Follows .withPart ts := by
  intro kind hkind
  cases h with
  | andEnd => exact hfollows kind (by simp [Symbol.goesOn] at hkind ⊢; tauto)
  | andMore ht _ _ =>
    have hne : kind ≠ .and := by rintro rfl; simp [Symbol.goesOn] at hkind
    simpa [ht] using hne.symm

namespace LicenseExpressionParser

variable {self : LicenseExpressionParser}

private theorem peek_eq (kind : Kind) : self.peek kind = self.rest.head?.any (·.kind = kind) := by
  rw [rest, List.head?_drop, peek]

/-- The parser once it has read an expression up to where the list begins. -/
def after (self : LicenseExpressionParser) (e : Expr) (ts : List Token) : LicenseExpressionParser :=
  { self with
    position := self.items.length - ts.length
    disjunctive := self.disjunctive || e.hasOr
    plain := self.plain && e.plainAt (self.position == self.depth) (ts.length == self.depth) }

private theorem rest_after {e : Expr} {ts : List Token} (h : ts <:+ self.items) : (self.after e ts).rest = ts :=
  (List.suffix_iff_eq_drop.1 h).symm

/-- The first list is an end of the tokens, and the parentheses that are open can be closed after the second one. -/
structure Spans (parser : LicenseExpressionParser) (ts us : List Token) : Prop where
  suffix : ts <:+ parser.items
  depth_le_position : parser.depth ≤ parser.position
  depth_le_length : parser.depth ≤ us.length

/-- The parser stands before the first list. -/
structure Before (parser : LicenseExpressionParser) (ts us : List Token) : Prop extends parser.Spans ts us where
  position_eq : parser.position + ts.length = parser.items.length

/-- The parser has read something before the first list. -/
structure Within (parser : LicenseExpressionParser) (ts us : List Token) : Prop extends parser.Spans ts us where
  position_lt : parser.position + ts.length < parser.items.length

private theorem Before.rest_eq {ts us : List Token} (h : self.Before ts us) : self.rest = ts := by
  have hpos : self.position = self.items.length - ts.length := by
    have := h.position_eq
    omega
  rw [rest, hpos]
  exact (List.suffix_iff_eq_drop.1 h.suffix).symm

theorem Before.item {t : Token} {ts us : List Token} (h : self.Before (t :: ts) us) :
    self.items[self.position]? = some t ∧ self.advance.rest = ts := by
  have htail : self.advance.rest = ts := by rw [rest_advance, h.rest_eq, List.tail_cons]
  exact ⟨rest_eq_cons.2 (by rw [h.rest_eq, htail]), htail⟩

/-- To read a licence is to go on over its tokens. -/
private theorem Before.after_licence {ts us vs : List Token} (h : self.Before ts us) (hsuffix : vs <:+ ts) (name : Str)
    (addition : Option Str) : self.after (.licence name addition) vs =
      { self with position := self.position + (ts.length - vs.length) } := by
  have hpos := h.position_eq
  have hle := hsuffix.length_le
  refine LicenseExpressionParser.ext rfl rfl ?_ rfl (Bool.or_false _) (Bool.and_true _)
  change self.items.length - vs.length = self.position + (ts.length - vs.length)
  omega

private theorem Before.mono {ts us vs : List Token} (h : self.Before ts vs) (hsuffix : vs <:+ us) : self.Before ts us :=
  ⟨⟨h.suffix, h.depth_le_position, h.depth_le_length.trans hsuffix.length_le⟩, h.position_eq⟩

/-- Behind the first operand the parser is within. -/
theorem Before.within {ts us vs : List Token} (h : self.Before ts vs) (hsuffix : us <:+ ts)
    (hlt : us.length < ts.length) : self.Within us vs := by
  have hpos := h.position_eq
  exact ⟨⟨hsuffix.trans h.suffix, h.depth_le_position, h.depth_le_length⟩, by omega⟩

/-- Behind the sign the parser stands before the next operand. -/
private theorem Within.before_next {t : Token} {ts us vs : List Token} {e : Expr} (h : self.Within (t :: ts) vs)
    (hsuffix : vs <:+ us) : (self.after e (t :: ts)).advance.Before ts us := by
  have hpos := h.position_lt
  have hle := h.suffix.length_le
  have hdepth := h.depth_le_position
  have hlength := h.depth_le_length
  have hvs := hsuffix.length_le
  rw [List.length_cons] at hpos hle
  refine ⟨⟨(List.suffix_cons t ts).trans h.suffix, ?_, ?_⟩, ?_⟩
  · change self.depth ≤ self.items.length - (t :: ts).length + 1
    rw [List.length_cons]
    omega
  · exact hlength.trans hvs
  · change self.items.length - (t :: ts).length + 1 + ts.length = self.items.length
    rw [List.length_cons]
    omega

theorem Within.next {t : Token} {ts us vs : List Token} (h : self.Within (t :: ts) vs) (hsuffix : us <:+ ts) :
    self.Within us vs := by
  have hpos := h.position_lt
  have hle := hsuffix.length_le
  rw [List.length_cons] at hpos
  exact ⟨⟨(hsuffix.trans (List.suffix_cons t ts)).trans h.suffix, h.depth_le_position, h.depth_le_length⟩, by omega⟩

/-- Between two operands the parser is plain as an expression between other tokens. -/
private theorem Within.plain_next {t : Token} {ts us vs : List Token} {e e' : Expr} (h : self.Within (t :: ts) vs)
    (hts : vs <:+ ts) : ((self.after e (t :: ts)).advance.after e' us).plain =
      (self.plain && (e.plainAt (self.position == self.depth) false &&
        e'.plainAt false (us.length == self.depth))) := by
  have hpos := h.position_lt
  have hdepth := h.depth_le_position
  have hlength := h.depth_le_length
  have hvs := hts.length_le
  have hlast : ((t :: ts).length == self.depth) = false := by
    rw [List.length_cons] at hpos ⊢
    rw [beq_eq_false_iff_ne]
    omega
  have hfirst : (self.items.length - (t :: ts).length + 1 == self.depth) = false := by
    rw [List.length_cons] at hpos ⊢
    rw [beq_eq_false_iff_ne]
    omega
  simp only [after, advance, hlast, hfirst, Bool.and_assoc]

end LicenseExpressionParser

open LicenseExpressionParser

/-- What comes of a call that takes so much room: what is read, or a `RecursionError`. -/
structure Reads (need room : Nat) (o : Outcome) (e : Expr) (parser : LicenseExpressionParser) (P : Bool → Prop) : Prop where
  ok : need ≤ room → ∃ simple, o = .ok ((e.names, simple), parser) ∧ P simple
  overflow : room < need → o = .error .recursionError

/-- A call that there is no room for. -/
private theorem Reads.noRoom {need : Nat} {o : Outcome} {e : Expr} {parser : LicenseExpressionParser} {P : Bool → Prop}
    (ho : o = .error .recursionError) (hneed : 0 < need) : Reads need 0 o e parser P where
  ok := fun h => absurd h (Nat.not_le.2 hneed)
  overflow := fun _ => ho

private theorem Reads.noError {need room : Nat} {o : Outcome} {e : Expr} {parser : LicenseExpressionParser}
    {P : Bool → Prop}
    {simple : Bool} (ho : o = .ok ((e.names, simple), parser)) (hP : P simple) (hle : need ≤ room) :
    Reads need room o e parser P where
  ok := fun _ => ⟨simple, ho, hP⟩
  overflow := fun h => absurd hle (Nat.not_le.2 h)

/-- What the calls of the parser come to on tokens with a derivation.  Besides the four calls for each pair of parentheses
there is one for each part of an operand, and one to look for what follows a licence. -/
def Accepts : Symbol → List Token → Expr → List Token → Prop
  | .expression, ts, e, us => ∀ (fuel room : Nat) (self : LicenseExpressionParser), self.Before ts us →
    4 * ts.length + 4 ≤ fuel → Reads (4 * e.nesting + 5) room (parseExpression fuel room self) e (self.after e us)
      fun _ => True
  | .moreOr e₀, ts, e, us => ∀ (fuel room : Nat) (self : LicenseExpressionParser) (simple : Bool), self.Within ts us →
    4 * ts.length + 1 ≤ fuel → 4 * e₀.nesting + 4 ≤ room →
      Reads (4 * e.nesting + 4) room (whileOr fuel room e₀.names simple (self.after e₀ ts)) e (self.after e us)
        fun _ => True
  | .conjunction, ts, e, us => ∀ (fuel room : Nat) (self : LicenseExpressionParser), self.Before ts us →
    4 * ts.length + 3 ≤ fuel → Reads (4 * e.nesting + 4) room (parseConjunction fuel room self) e (self.after e us)
      fun _ => True
  | .moreAnd e₀, ts, e, us => ∀ (fuel room : Nat) (self : LicenseExpressionParser) (simple : Bool), self.Within ts us →
    4 * ts.length + 1 ≤ fuel → 4 * e₀.nesting + 3 ≤ room →
      Reads (4 * e.nesting + 3) room (whileAnd fuel room e₀.names simple (self.after e₀ ts)) e (self.after e us)
        fun _ => True
  | .withPart, ts, e, us => ∀ (fuel room : Nat) (self : LicenseExpressionParser), self.Before ts us →
    4 * ts.length + 2 ≤ fuel → Reads (4 * e.nesting + 3) room (parseWith fuel room self) e (self.after e us) fun _ => True
  | .primary, ts, e, us => ∀ (fuel room : Nat) (self : LicenseExpressionParser), self.Before ts us →
    4 * ts.length + 1 ≤ fuel →
      Reads (4 * e.nesting + 2) room (parsePrimary fuel room false self) e (self.after e us)
        fun simple => ∀ name, e = .licence name none → simple = true

/-- How deep the parentheses are that were read. -/
def Symbol.nesting : Symbol → Nat
  | .moreOr e | .moreAnd e => e.nesting
  | _ => 0

/-- What follows makes the parentheses no less deep. -/
private theorem Derives.nesting_le {s : Symbol} {ts us : List Token} {e : Expr} (h : Derives s ts e us) :
    s.nesting ≤ e.nesting := by
  induction h with
  | orEnd | andEnd => exact le_rfl
  | orMore _ _ _ _ ih | andMore _ _ _ _ ih => exact (le_max_left _ _).trans ih
  | expression | conjunction | withNone | withAddition | identifier | orLater | parens => exact Nat.zero_le _

section

variable {t : Token} {ts us vs : List Token} {e e' e'' : Expr}

private theorem exists_fuel {n fuel : Nat} (h : n + 1 ≤ fuel) : ∃ fuel', fuel = fuel' + 1 ∧ n ≤ fuel' :=
  ⟨fuel - 1, by omega, by omega⟩

private theorem accepts_expression (hfirst : Derives .conjunction ts e us) (ih₁ : Accepts .conjunction ts e us)
    (hmore : Derives (.moreOr e) us e' vs) (ih₂ : Accepts (.moreOr e) us e' vs) : Accepts .expression ts e' vs := by
  intro fuel room self hself hfuel
  obtain ⟨fuel, rfl, hle⟩ := exists_fuel hfuel
  have hlt := hfirst.suffix.2 rfl
  have hnesting : e.nesting ≤ e'.nesting := hmore.nesting_le
  cases room with
  | zero => exact .noRoom (by rw [parseExpression]) (Nat.succ_pos _)
  | succ room =>
    have hread := ih₁ fuel room self (hself.mono hmore.suffix.1) (by omega)
    by_cases hroom : 4 * e.nesting + 4 ≤ room
    · obtain ⟨simple, hok, -⟩ := hread.ok hroom
      have hend := ih₂ fuel room self simple (hself.within hfirst.suffix.1 hlt) (by omega) hroom
      rw [parseExpression, hok, ok_bind]
      exact ⟨fun h => hend.ok (by omega), fun h => hend.overflow (by omega)⟩
    · rw [parseExpression, hread.overflow (by omega), error_bind]
      exact ⟨fun h => by omega, fun _ => rfl⟩

private theorem accepts_conjunction (hfirst : Derives .withPart ts e us) (ih₁ : Accepts .withPart ts e us)
    (hmore : Derives (.moreAnd e) us e' vs) (ih₂ : Accepts (.moreAnd e) us e' vs) : Accepts .conjunction ts e' vs := by
  intro fuel room self hself hfuel
  obtain ⟨fuel, rfl, hle⟩ := exists_fuel hfuel
  have hlt := hfirst.suffix.2 rfl
  have hnesting : e.nesting ≤ e'.nesting := hmore.nesting_le
  cases room with
  | zero => exact .noRoom (by rw [parseConjunction]) (Nat.succ_pos _)
  | succ room =>
    have hread := ih₁ fuel room self (hself.mono hmore.suffix.1) (by omega)
    by_cases hroom : 4 * e.nesting + 3 ≤ room
    · obtain ⟨simple, hok, -⟩ := hread.ok hroom
      have hend := ih₂ fuel room self simple (hself.within hfirst.suffix.1 hlt) (by omega) hroom
      rw [parseConjunction, hok, ok_bind]
      exact ⟨fun h => hend.ok (by omega), fun h => hend.overflow (by omega)⟩
    · rw [parseConjunction, hread.overflow (by omega), error_bind]
      exact ⟨fun h => by omega, fun _ => rfl⟩

private theorem accepts_orEnd (hfollows : Follows (.moreOr e) ts) : Accepts (.moreOr e) ts e ts := by
  intro fuel room self simple hself hfuel hroom
  obtain ⟨fuel, rfl, -⟩ := exists_fuel hfuel
  have hpeek : (self.after e ts).peek .or = false := by
    rw [peek_eq, rest_after hself.suffix]
    exact hfollows .or (by simp [Symbol.goesOn])
  exact .noError (by rw [whileOr, hpeek, if_neg Bool.false_ne_true]) trivial hroom

private theorem accepts_andEnd (hfollows : Follows (.moreAnd e) ts) : Accepts (.moreAnd e) ts e ts := by
  intro fuel room self simple hself hfuel hroom
  obtain ⟨fuel, rfl, -⟩ := exists_fuel hfuel
  have hpeek : (self.after e ts).peek .and = false := by
    rw [peek_eq, rest_after hself.suffix]
    exact hfollows .and (by simp [Symbol.goesOn])
  exact .noError (by rw [whileAnd, hpeek, if_neg Bool.false_ne_true]) trivial hroom

private theorem accepts_orMore (ht : t.kind = .or) (hnext : Derives .conjunction ts e' us)
    (ih₁ : Accepts .conjunction ts e' us)
    (hmore : Derives (.moreOr (.or e e')) us e'' vs) (ih₂ : Accepts (.moreOr (.or e e')) us e'' vs) :
    Accepts (.moreOr e) (t :: ts) e'' vs := by
  intro fuel room self simple hself hfuel hroom
  rw [List.length_cons] at hfuel
  obtain ⟨fuel, rfl, hle⟩ := exists_fuel hfuel
  have hlt := hnext.suffix.2 rfl
  have hnesting : max e.nesting e'.nesting ≤ e''.nesting := hmore.nesting_le
  have hpeek : (self.after e (t :: ts)).peek .or = true := by
    rw [peek_eq, rest_after hself.suffix]
    simp [ht]
  have hread := ih₁ fuel room _ (hself.before_next (e := e) hmore.suffix.1) (by omega)
  by_cases hroom' : 4 * e'.nesting + 4 ≤ room
  · obtain ⟨simple₁, hok, -⟩ := hread.ok hroom'
    have hend := ih₂ fuel room self false (hself.next hnext.suffix.1) (by omega)
      (by change 4 * max e.nesting e'.nesting + 4 ≤ room; omega)
    have hsuffix : vs <:+ ts := hmore.suffix.1.trans hnext.suffix.1
    have hstate : { (self.after e (t :: ts)).advance.after e' us with disjunctive := true } =
        self.after (.or e e') us :=
      LicenseExpressionParser.ext rfl rfl rfl rfl (Bool.or_true _).symm (hself.plain_next hsuffix)
    rw [whileOr, hpeek, if_pos rfl, hok, ok_bind]
    dsimp only
    rw [hstate]
    exact hend
  · rw [whileOr, hpeek, if_pos rfl, hread.overflow (by omega), error_bind]
    exact ⟨fun h => by omega, fun _ => rfl⟩

private theorem accepts_andMore (ht : t.kind = .and) (hnext : Derives .withPart ts e' us)
    (ih₁ : Accepts .withPart ts e' us)
    (hmore : Derives (.moreAnd (.and e e')) us e'' vs) (ih₂ : Accepts (.moreAnd (.and e e')) us e'' vs) :
    Accepts (.moreAnd e) (t :: ts) e'' vs := by
  intro fuel room self simple hself hfuel hroom
  rw [List.length_cons] at hfuel
  obtain ⟨fuel, rfl, hle⟩ := exists_fuel hfuel
  have hlt := hnext.suffix.2 rfl
  have hnesting : max e.nesting e'.nesting ≤ e''.nesting := hmore.nesting_le
  have hpeek : (self.after e (t :: ts)).peek .and = true := by
    rw [peek_eq, rest_after hself.suffix]
    simp [ht]
  have hread := ih₁ fuel room _ (hself.before_next (e := e) hmore.suffix.1) (by omega)
  by_cases hroom' : 4 * e'.nesting + 3 ≤ room
  · obtain ⟨simple₁, hok, -⟩ := hread.ok hroom'
    have hend := ih₂ fuel room self false (hself.next hnext.suffix.1) (by omega)
      (by change 4 * max e.nesting e'.nesting + 3 ≤ room; omega)
    have hstate : { (self.after e (t :: ts)).advance.after e' us with plain := false } =
        self.after (.and e e') us :=
      LicenseExpressionParser.ext rfl rfl rfl rfl (Bool.or_assoc _ _ _) (Bool.and_false _).symm
    rw [whileAnd, hpeek, if_pos rfl, hok, ok_bind]
    dsimp only
    rw [hstate]
    exact hend
  · rw [whileAnd, hpeek, if_pos rfl, hread.overflow (by omega), error_bind]
    exact ⟨fun h => by omega, fun _ => rfl⟩

private theorem accepts_withNone (hprimary : Derives .primary ts e us) (ih : Accepts .primary ts e us)
    (hfollows : Follows .withPart us) : Accepts .withPart ts e us := by
  intro fuel room self hself hfuel
  obtain ⟨fuel, rfl, hle⟩ := exists_fuel hfuel
  cases room with
  | zero => exact .noRoom (by rw [parseWith]) (Nat.succ_pos _)
  | succ room =>
    have hread := ih fuel room self hself hle
    by_cases hroom : 4 * e.nesting + 2 ≤ room
    · obtain ⟨simple, hok, -⟩ := hread.ok hroom
      obtain ⟨fuel, rfl, -⟩ := exists_fuel hle
      have hpeek : (self.after e us).peek .with_ = false := by
        rw [peek_eq, rest_after (hprimary.suffix.1.trans hself.suffix)]
        exact hfollows .with_ (by simp [Symbol.goesOn])
      refine @Reads.noError _ _ _ _ _ _ simple ?_ trivial (by omega)
      rw [parseWith, hok, ok_bind]
      dsimp only
      rw [whileWith, hpeek, if_neg Bool.false_ne_true]
    · rw [parseWith, hread.overflow (by omega), error_bind]
      exact ⟨fun h => by omega, fun _ => rfl⟩

/-- A licence takes a call, and another one to look for what follows it. -/
private theorem reads_identifier {self self' : LicenseExpressionParser} (hid : t.kind.isIdentifier)
    (hitem : self.items[self.position]? = some t)
    (hself : (if self.advance.peek .plus then self.advance.advance else self.advance) = self') (fuel room : Nat) :
    Reads 2 room (parsePrimary (fuel + 1) room false self) (.licence t.value none) self'
      fun simple => ∀ name, Expr.licence t.value none = .licence name none → simple = true := by
  have hparen : t.kind ≠ .lparen := by
    intro hkind
    rw [hkind] at hid
    cases hid
  cases room with
  | zero => exact .noRoom (by rw [parsePrimary]) (Nat.succ_pos _)
  | succ room =>
    rw [parsePrimary, hitem]
    cases room with
    | zero => exact ⟨fun h => by omega, fun _ => by simp [hparen, hid, raiseIf]⟩
    | succ room =>
      refine @Reads.noError _ _ _ _ _ _ true ?_ (fun _ _ => rfl) (by omega)
      rw [← hself]
      simp [hparen, hid, raiseIf, Expr.names]

private theorem accepts_identifier (hid : t.kind.isIdentifier) (hfollows : Follows .primary ts) :
    Accepts .primary (t :: ts) (.licence t.value none) ts := by
  intro fuel room self hself hfuel
  obtain ⟨fuel, rfl, -⟩ := exists_fuel hfuel
  obtain ⟨hitem, hrest⟩ := hself.item
  have hpeek : self.advance.peek .plus = false := by
    rw [peek_eq, hrest]
    exact hfollows .plus (by simp [Symbol.goesOn])
  have hstate : self.after (.licence t.value none) ts = self.advance := by
    rw [hself.after_licence (List.suffix_cons t ts), List.length_cons, Nat.add_sub_cancel_left]
    rfl
  exact reads_identifier hid hitem (by rw [hpeek, hstate]; rfl) fuel room

private theorem accepts_orLater {p : Token} (hid : t.kind.isIdentifier) (hp : p.kind = .plus) :
    Accepts .primary (t :: p :: ts) (.licence t.value none) ts := by
  intro fuel room self hself hfuel
  obtain ⟨fuel, rfl, -⟩ := exists_fuel hfuel
  obtain ⟨hitem, hrest⟩ := hself.item
  have hpeek : self.advance.peek .plus = true := by
    rw [peek_eq, hrest]
    simp [hp]
  have hstate : self.after (.licence t.value none) ts = self.advance.advance := by
    have hsuffix : ts <:+ t :: p :: ts := (List.suffix_cons p ts).trans (List.suffix_cons t _)
    have hlen : (t :: p :: ts).length - ts.length = 2 := by
      simp only [List.length_cons]
      omega
    rw [hself.after_licence hsuffix, hlen]
    rfl
  exact reads_identifier hid hitem (by rw [hpeek, hstate]; rfl) fuel room

private theorem accepts_withAddition {a : Token} {name : Str}
    (hprimary : Derives .primary ts (.licence name none) (t :: a :: us))
    (ih : Accepts .primary ts (.licence name none) (t :: a :: us)) (ht : t.kind = .with_) (ha : a.kind.isAddition)
    (hfollows : Follows .withPart us) : Accepts .withPart ts (.licence name (some a.value)) us := by
  intro fuel room self hself hfuel
  have hsuffix : us <:+ t :: a :: us := (List.suffix_cons a us).trans (List.suffix_cons t _)
  have hlen := hprimary.suffix.1.length_le
  simp only [List.length_cons] at hlen
  obtain ⟨fuel, rfl⟩ : ∃ n, fuel = n + 3 := ⟨fuel - 3, by omega⟩
  cases room with
  | zero => exact .noRoom (by rw [parseWith]) (Nat.succ_pos _)
  | succ room =>
    have hread := ih (fuel + 2) room self (hself.mono hsuffix) (by omega)
    by_cases hroom : 2 ≤ room
    · obtain ⟨simple, hok, hsimple⟩ := hread.ok hroom
      obtain rfl := hsimple name rfl
      obtain ⟨room, rfl, -⟩ := exists_fuel (Nat.le_of_succ_le hroom)
      have hrest := rest_after (e := .licence name none) (hprimary.suffix.1.trans hself.suffix)
      have hstate : (self.after (.licence name none) (t :: a :: us)).advance.advance =
          self.after (.licence name (some a.value)) us := by
        have hpos := hself.position_eq
        refine LicenseExpressionParser.ext rfl rfl ?_ rfl rfl rfl
        change self.items.length - (t :: a :: us).length + 1 + 1 = self.items.length - us.length
        simp only [List.length_cons]
        omega
      generalize self.after (.licence name none) (t :: a :: us) = read at hok hrest hstate
      have hwith : read.peek .with_ = true := by
        rw [peek_eq, hrest]
        simp [ht]
      have hrest₁ : read.advance.rest = a :: us := by rw [rest_advance, hrest, List.tail_cons]
      have hrest₂ : read.advance.advance.rest = us := by rw [rest_advance, hrest₁, List.tail_cons]
      have hitem : read.advance.items[read.advance.position]? = some a := rest_eq_cons.2 (by rw [hrest₁, hrest₂])
      have hparen : a.kind ≠ .lparen := by
        intro hkind
        rw [hkind] at ha
        cases ha
      have hadd : parsePrimary (fuel + 1) (room + 1) true read.advance = .ok ((∅, true), read.advance.advance) := by
        rw [parsePrimary, hitem]
        simp [hparen, ha]
      have hend : read.advance.advance.peek .with_ = false := by
        rw [peek_eq, hrest₂]
        exact hfollows .with_ (by simp [Symbol.goesOn])
      refine @Reads.noError _ _ _ _ _ _ false ?_ trivial (by change 3 ≤ room + 1 + 1; omega)
      rw [parseWith, hok, ok_bind]
      dsimp only
      rw [whileWith, hwith, if_pos rfl, if_pos rfl, hadd, ok_bind]
      dsimp only
      rw [if_pos rfl, whileWith, hend, if_neg Bool.false_ne_true, hstate]
      rfl
    · rw [parseWith, hread.overflow (by change room < 2; omega), error_bind]
      exact ⟨fun h => by change 3 ≤ room + 1 at h; omega, fun _ => rfl⟩

/-- Behind the closing parenthesis the parser is as after the whole. -/
private theorem after_parens {l r : Token} {ts us : List Token} {e : Expr} {self : LicenseExpressionParser}
    (hself : self.Before (l :: ts) us) (hsuffix : (r :: us) <:+ ts) :
    let closed : LicenseExpressionParser :=
      { ({ self.advance with depth := self.depth + 1 }.after e (r :: us)).advance with depth := self.depth }
    (if closed.enclosing self.position then closed else { closed with plain := false }) = self.after (.parens e) us := by
  intro closed
  have hpos := hself.position_eq
  have hlen := hsuffix.length_le
  rw [List.length_cons] at hpos hlen
  let first := self.position == self.depth
  let last := us.length == self.depth
  have hposition : closed.position = self.items.length - us.length := by
    change self.items.length - (r :: us).length + 1 = self.items.length - us.length
    rw [List.length_cons]
    omega
  have henclosing : closed.enclosing self.position = (first && last) := by
    have hlast : ((closed.position : Int) == self.items.length - self.depth) = last := by
      rw [hposition, Bool.eq_iff_iff, beq_iff_eq, beq_iff_eq]
      omega
    change (first && (closed.position : Int) == self.items.length - self.depth) = (first && last)
    rw [hlast]
  have hplain : closed.plain = (self.plain && e.plainAt first last) := by
    have hfirst : (self.position + 1 == self.depth + 1) = first := by
      rw [Bool.eq_iff_iff, beq_iff_eq, beq_iff_eq]
      omega
    have hlast : ((r :: us).length == self.depth + 1) = last := by
      rw [List.length_cons, Bool.eq_iff_iff, beq_iff_eq, beq_iff_eq]
      omega
    change (self.plain && e.plainAt (self.position + 1 == self.depth + 1) ((r :: us).length == self.depth + 1)) = _
    rw [hfirst, hlast]
  have hafter : (self.after (.parens e) us).plain = (self.plain && (first && last && e.plainAt first last)) := rfl
  rw [henclosing]
  by_cases h : (first && last) = true
  · rw [if_pos h]
    refine LicenseExpressionParser.ext rfl rfl hposition rfl rfl ?_
    rw [hplain, hafter, h, Bool.true_and]
  · rw [if_neg h]
    refine LicenseExpressionParser.ext rfl rfl hposition rfl rfl ?_
    rw [hafter, Bool.eq_false_of_not_eq_true h, Bool.false_and, Bool.and_false]

private theorem accepts_parens {l r : Token} (hl : l.kind = .lparen) (hinner : Derives .expression ts e (r :: us))
    (ih : Accepts .expression ts e (r :: us)) (hr : r.kind = .rparen) : Accepts .primary (l :: ts) (.parens e) us := by
  intro fuel room self hself hfuel
  rw [List.length_cons] at hfuel
  obtain ⟨fuel, rfl, hle⟩ := exists_fuel hfuel
  cases room with
  | zero => exact .noRoom (by rw [parsePrimary]) (Nat.succ_pos _)
  | succ room =>
    obtain ⟨hitem, hrest⟩ := hself.item
    have hpos := hself.position_eq
    have hdepth := hself.depth_le_position
    have hlength := hself.depth_le_length
    have hlen := hinner.suffix.1.length_le
    rw [List.length_cons] at hpos hlen
    let inner : LicenseExpressionParser := { self.advance with depth := self.depth + 1 }
    have hbefore : inner.Before ts (r :: us) := by
      refine ⟨⟨(List.suffix_cons l ts).trans hself.suffix, Nat.succ_le_succ hdepth, Nat.succ_le_succ hlength⟩, ?_⟩
      change self.position + 1 + ts.length = self.items.length
      omega
    have hread := ih fuel room inner hbefore (by omega)
    have hneed : 4 * (Expr.parens e).nesting + 2 = 4 * e.nesting + 5 + 1 := by
      change 4 * (e.nesting + 1) + 2 = _
      omega
    rw [parsePrimary, hitem]
    dsimp only
    rw [if_pos hl, hneed]
    by_cases hroom : 4 * e.nesting + 5 ≤ room
    · obtain ⟨simple, hok, -⟩ := hread.ok hroom
      refine @Reads.noError _ _ _ _ _ _ false ?_ (fun _ h => by cases h) (Nat.succ_le_succ hroom)
      have hrest₁ := rest_after (e := e) (hinner.suffix.1.trans hbefore.suffix)
      have hpeek : (inner.after e (r :: us)).peek .rparen = true := by
        rw [peek_eq, hrest₁]
        simp [hr]
      rw [hok, ok_bind]
      dsimp only
      rw [if_pos hpeek, ← after_parens hself hinner.suffix.1]
      rfl
    · rw [hread.overflow (by omega), error_bind]
      exact ⟨fun h => by omega, fun _ => rfl⟩

end

/-- The parser reads a derivation to its end and comes to the names and the flags of its expression, as far as there is
room. -/
theorem Derives.accepts {s : Symbol} {ts us : List Token} {e : Expr} (h : Derives s ts e us) (hfollows : Follows s us) :
    Accepts s ts e us := by
  induction h with
  | expression hfirst hmore ih₁ ih₂ =>
    exact accepts_expression hfirst (ih₁ (hmore.follows_moreOr hfollows)) hmore (ih₂ hfollows)
  | orEnd => exact accepts_orEnd hfollows
  | orMore ht hnext hmore ih₁ ih₂ =>
    exact accepts_orMore ht hnext (ih₁ (hmore.follows_moreOr hfollows)) hmore (ih₂ hfollows)
  | conjunction hfirst hmore ih₁ ih₂ =>
    exact accepts_conjunction hfirst (ih₁ (hmore.follows_moreAnd hfollows)) hmore (ih₂ hfollows)
  | andEnd => exact accepts_andEnd hfollows
  | andMore ht hnext hmore ih₁ ih₂ =>
    exact accepts_andMore ht hnext (ih₁ (hmore.follows_moreAnd hfollows)) hmore (ih₂ hfollows)
  | withNone hprimary ih =>
    have hplus : Follows .primary _ := fun kind hkind => hfollows kind (by simp [Symbol.goesOn] at hkind ⊢; tauto)
    exact accepts_withNone hprimary (ih hplus) hfollows
  | withAddition hprimary ht ha ih =>
    refine accepts_withAddition hprimary (ih fun kind hkind => ?_) ht ha hfollows
    simp only [Symbol.goesOn, List.mem_singleton] at hkind
    simp [hkind, ht]
  | identifier hid => exact accepts_identifier hid hfollows
  | orLater hid hp => exact accepts_orLater hid hp
  | parens hl hinner hr ih =>
    refine accepts_parens hl hinner (ih fun kind hkind => ?_) hr
    have hne : kind ≠ .rparen := by rintro rfl; simp [Symbol.goesOn] at hkind
    simpa [hr] using hne.symm

/-! ### Reading all tokens -/

variable {items : List Token} {room : Nat} (text : Str)

/-- An expression of the grammar is accepted if there is room for the depth of its parentheses, and ends in a
`RecursionError` otherwise. -/
theorem parse_complete {e : Expr} (h : Derives .expression items e []) :
    (init items text).parse room =
      if 4 * e.nesting + 5 ≤ room then .ok (e.names, e.hasOr && e.plainAt true true) else .error .recursionError := by
  have hbefore : (init items text).Before items [] :=
    ⟨⟨List.suffix_rfl, Nat.le_refl 0, Nat.zero_le _⟩, Nat.zero_add _⟩
  have hread := h.accepts (fun _ _ => rfl) (enough items) room (init items text) hbefore le_rfl
  rw [parse]
  change (parseExpression (enough items) room (init items text) >>= _) = _
  split_ifs with hroom
  · obtain ⟨simple, hok, -⟩ := hread.ok hroom
    have hend : ((init items text).after e []).position = ((init items text).after e []).items.length := Nat.sub_zero _
    rw [hok, ok_bind]
    dsimp only
    rw [if_neg (not_not.2 hend)]
    simp [after, init]
  · rw [hread.overflow (Nat.not_le.1 hroom), error_bind]

/-- What is accepted is an expression of the grammar, and there is always an answer. -/
private theorem parse_sound (room : Nat) :
    match (init items text).parse room with
    | .ok _ => ∃ e, Derives .expression items e []
    | .error (.valueError _) | .error .recursionError => True
    | .error .outOfFuel => False := by
  have hends := (sound (enough items)).expression room (init items text) le_rfl
  have hparse : (init items text).parse room = parseExpression (enough items) room (init items text) >>= fun o =>
      if o.2.position ≠ o.2.items.length then .error (.valueError o.2.text)
      else .ok (o.1.1, o.2.disjunctive && o.2.plain) := rfl
  rw [hparse]
  match parseExpression (enough items) room (init items text), hends with
  | .error (.valueError _), _ | .error .recursionError, _ => trivial
  | .ok ((atoms, simple), self), hends =>
    rw [ok_bind]
    dsimp only
    split_ifs with hpos
    · trivial
    · obtain ⟨e, he⟩ := hends
      have hrest : self.rest = [] := List.drop_eq_nil_of_le (not_not.1 hpos).ge
      rw [hrest] at he
      exact ⟨e, he⟩

/-- The parser ends on every list of tokens, and accepts nothing but expressions of the grammar. -/
theorem parse_ends (room : Nat) : (init items text).parse room ≠ .error .outOfFuel ∧
    ∀ result, (init items text).parse room = .ok result → ∃ e, Derives .expression items e [] := by
  have hsound := @parse_sound items text room
  exact ⟨fun h => by rwa [h] at hsound, fun result h => by rwa [h] at hsound⟩

end Spdx

end TrustedReleases
