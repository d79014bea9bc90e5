import TrustedReleases.Sbom.Grammar

/-!
# Reading a declared licence

The category of a declared licence (`assess`) against what the expression says: of the two sides of an `OR` the
friendlier one, of the two sides of an `AND` the sterner one (`exactReading`).  What is assessed is never friendlier
than that, and the same for a choice of licences inside parentheses, as long as there is room for the depth of the
parentheses; a `RecursionError` of the parser ends `assess`, too.
-/

namespace TrustedReleases

open Lib

namespace Spdx

inductive Category where
  | a
  | b
  | x
  deriving DecidableEq, Repr

/-- `_category_severity` -/
def categorySeverity : Option Category → Nat
  | none => 3
  | some .a => 0
  | some .b => 1
  | some .x => 2

/-- `_resolved_category` -/
def resolvedCategory (category : Option Category) : Category := category.getD .x

structure Choice where
  expression : Str
  category : Category
  anyUnknown : Bool
  chosen : Option Str
  alternatives : List (Str × Category)

/-- The licences of a declaration, and whether there is a choice between them. -/
def declaredAtoms (room : Nat) (licenseExpr : Str) (isExpression : Bool) : Except Failure (Finset Str × Bool) :=
  if isExpression then
    match licenseExpressionAtoms room licenseExpr with
    | .error (.valueError _) => .ok ({licenseExpr}, false)
    | outcome => outcome
  else .ok ({licenseExpr}, false)

/-- The reading where one licence was chosen. -/
def chosenReading (atomCategory : Str → Option Category) (licenseExpr : Str) (ordered : List Str) (chosen : Str) :
    Choice where
  expression := licenseExpr
  category := resolvedCategory (atomCategory chosen)
  anyUnknown := (atomCategory chosen).isNone
  chosen := some chosen
  alternatives := (ordered.filter (· ≠ chosen)).map fun atom => (atom, resolvedCategory (atomCategory atom))

/-- The reading where all licences apply at once. -/
def wholeReading (licenseExpr : Str) (worst : Option Category) : Choice where
  expression := licenseExpr
  category := resolvedCategory worst
  anyUnknown := worst.isNone
  chosen := none
  alternatives := []

/-- `assess`, for any categories of the licences (`_atom_category`), where there is room for so many calls of the
parser. -/
def assess (atomCategory : Str → Option Category) (room : Nat) (licenseExpr : Str) (isExpression : Bool) :
    Except Failure Choice := do
  let (atoms, disjunction) ← declaredAtoms room licenseExpr isExpression
  let ordered := atoms.sort
  if disjunction then
    let chosen ← demand (ordered.argmin (categorySeverity ∘ atomCategory)) (.valueError [])
    .ok (chosenReading atomCategory licenseExpr ordered chosen)
  else
    let worst ← demand ((ordered.map atomCategory).argmax categorySeverity) (.valueError [])
    .ok (wholeReading licenseExpr worst)

/-! ### What an expression says -/

def friendlier (c d : Option Category) : Option Category := if categorySeverity d < categorySeverity c then d else c

def sterner (c d : Option Category) : Option Category := if categorySeverity c < categorySeverity d then d else c

/-- The category of an expression. -/
def exactReading (category : Str → Option Category) : Expr → Option Category
  | .licence name _ => category name
  | .parens e => exactReading category e
  | .and l r => sterner (exactReading category l) (exactReading category r)
  | .or l r => friendlier (exactReading category l) (exactReading category r)

namespace Expr

/-- Licences with `OR` between them, or one licence. -/
def isDisjunction : Expr → Bool
  | licence _ _ => true
  | or l r => l.isDisjunction && r.isDisjunction
  | parens _ | and _ _ => false

/-- A disjunction of licences inside any number of parentheses. -/
def isEnclosedDisjunction : Expr → Bool
  | parens e => e.isEnclosedDisjunction
  | e => e.isDisjunction

/-- Where not everything is enclosed, what is plain has no parentheses at all. -/
private theorem plainAt_of_not_both {e : Expr} {first last : Bool} (h : (first && last) = false) :
    e.plainAt first last = e.isDisjunction := by
  induction e generalizing first last with
  | licence _ _ => rfl
  | parens e _ => rw [plainAt, h, Bool.false_and, isDisjunction]
  | and _ _ _ _ => rfl
  | or l r ihl ihr => rw [plainAt, isDisjunction, ihl (Bool.and_false first), ihr (Bool.false_and last)]

private theorem plainAt_all (e : Expr) : e.plainAt true true = e.isEnclosedDisjunction := by
  induction e with
  | licence _ _ => rfl
  | parens e ih => rw [plainAt, ih, Bool.true_and, Bool.true_and, isEnclosedDisjunction]
  | and _ _ _ _ => rfl
  | or l r _ _ =>
    rw [plainAt, plainAt_of_not_both rfl, plainAt_of_not_both rfl]
    rfl

/-- A disjunction without an `OR` is one licence. -/
private theorem names_of_not_hasOr {e : Expr} (h : e.isEnclosedDisjunction = true) (hor : e.hasOr = false) :
    ∃ name, e.names = {name} := by
  induction e with
  | licence name _ => exact ⟨name, rfl⟩
  | parens e ih => exact ih h hor
  | and _ _ _ _ => cases h
  | or _ _ _ _ => cases hor

end Expr

section

variable {category : Str → Option Category} {e : Expr}

private theorem categorySeverity_injective : Function.Injective categorySeverity := by
  intro c d h
  rcases c with _ | _ | _ | _ <;> rcases d with _ | _ | _ | _ <;> simp_all [categorySeverity]

/-- What an expression says is the category of one of its licences. -/
private theorem exactReading_mem (category : Str → Option Category) (e : Expr) :
    ∃ name ∈ e.names, exactReading category e = category name := by
  induction e with
  | licence name _ => exact ⟨name, Finset.mem_singleton_self name, rfl⟩
  | parens e ih => exact ih
  | and l r ihl ihr =>
    obtain ⟨nl, hnl, hl⟩ := ihl
    obtain ⟨nr, hnr, hr⟩ := ihr
    rw [exactReading, sterner]
    split
    · exact ⟨nr, Finset.mem_union_right _ hnr, hr⟩
    · exact ⟨nl, Finset.mem_union_left _ hnl, hl⟩
  | or l r ihl ihr =>
    obtain ⟨nl, hnl, hl⟩ := ihl
    obtain ⟨nr, hnr, hr⟩ := ihr
    rw [exactReading, friendlier]
    split
    · exact ⟨nr, Finset.mem_union_right _ hnr, hr⟩
    · exact ⟨nl, Finset.mem_union_left _ hnl, hl⟩

/-- A disjunction is as friendly as the friendliest of its licences. -/
private theorem exactReading_le (category : Str → Option Category) (h : e.isEnclosedDisjunction = true) {name : Str}
    (hname : name ∈ e.names) :
    categorySeverity (exactReading category e) ≤ categorySeverity (category name) := by
  have key : ∀ e : Expr, e.isDisjunction = true → ∀ name ∈ e.names,
      categorySeverity (exactReading category e) ≤ categorySeverity (category name) := by
    intro e h name hname
    induction e with
    | licence n _ => rw [Finset.mem_singleton.1 hname, exactReading]
    | parens _ _ | and _ _ _ _ => cases h
    | or l r ihl ihr =>
      have hboth := Bool.and_eq_true_iff.1 h
      have hmin : categorySeverity (exactReading category (.or l r)) ≤ categorySeverity (exactReading category l) ∧
          categorySeverity (exactReading category (.or l r)) ≤ categorySeverity (exactReading category r) := by
        rw [exactReading, friendlier]
        split <;> constructor <;> omega
      cases Finset.mem_union.1 hname with
      | inl hl => exact hmin.1.trans (ihl hboth.1 hl)
      | inr hr => exact hmin.2.trans (ihr hboth.2 hr)
  induction e with
  | parens e ih => exact ih h hname
  | licence _ _ | and _ _ _ _ | or _ _ _ _ => exact key _ h name hname

private theorem resolvedCategory_mono {c d : Option Category} (h : categorySeverity c ≤ categorySeverity d) :
    categorySeverity (some (resolvedCategory c)) ≤ categorySeverity (some (resolvedCategory d)) := by
  rcases c with _ | _ | _ | _ <;> rcases d with _ | _ | _ | _ <;> simp_all [categorySeverity, resolvedCategory]

/-! ### What is assessed -/

variable {room : Nat} {expr : Str} {isExpression : Bool} {atoms : Finset Str}

/-- Where there is a choice the friendliest of the licences decides. -/
private theorem assess_disjunction (category : Str → Option Category)
    (h : declaredAtoms room expr isExpression = .ok (atoms, true)) (hatoms : atoms.Nonempty) :
    ∃ reading, assess category room expr isExpression = .ok reading ∧ ∃ chosen ∈ atoms,
      reading.category = resolvedCategory (category chosen) ∧
      ∀ name ∈ atoms, categorySeverity (category chosen) ≤ categorySeverity (category name) := by
  have hsome : (atoms.sort.argmin (categorySeverity ∘ category)).isSome := by
    rw [← Option.ne_none_iff_isSome, Ne, List.argmin_eq_none, ← List.length_eq_zero_iff, Finset.length_sort]
    exact hatoms.card_pos.ne'
  obtain ⟨chosen, hchosen⟩ := Option.isSome_iff_exists.1 hsome
  have hmem := List.argmin_mem hchosen
  rw [Finset.mem_sort] at hmem
  refine ⟨chosenReading category expr atoms.sort chosen, ?_, chosen, hmem, rfl, ?_⟩
  · rw [assess, h, ok_bind]
    dsimp only
    rw [if_pos rfl, hchosen]
    rfl
  · intro name hname
    exact List.le_of_mem_argmin (f := categorySeverity ∘ category) ((Finset.mem_sort _).2 hname) hchosen

/-- Otherwise the sternest of the licences decides. -/
private theorem assess_all (category : Str → Option Category)
    (h : declaredAtoms room expr isExpression = .ok (atoms, false)) (hatoms : atoms.Nonempty) :
    ∃ reading, assess category room expr isExpression = .ok reading ∧ ∃ worst ∈ atoms,
      reading.category = resolvedCategory (category worst) ∧
      ∀ name ∈ atoms, categorySeverity (category name) ≤ categorySeverity (category worst) := by
  have hsome : ((atoms.sort.map category).argmax categorySeverity).isSome := by
    rw [← Option.ne_none_iff_isSome, Ne, List.argmax_eq_none, List.map_eq_nil_iff, ← List.length_eq_zero_iff,
      Finset.length_sort]
    exact hatoms.card_pos.ne'
  obtain ⟨worst, hworst⟩ := Option.isSome_iff_exists.1 hsome
  obtain ⟨name, hname, rfl⟩ := List.mem_map.1 (List.argmax_mem hworst)
  rw [Finset.mem_sort] at hname
  refine ⟨wholeReading expr (category name), ?_, name, hname, rfl, ?_⟩
  · rw [assess, h, ok_bind]
    dsimp only
    rw [if_neg Bool.false_ne_true, hworst]
    rfl
  · intro other hother
    exact List.le_of_mem_argmax (List.mem_map_of_mem ((Finset.mem_sort _).2 hother)) hworst

private theorem declaredAtoms_expression {items : List Token} {e : Expr}
    (htokens : tokensFrom expr expr.length expr = .ok items) (he : Derives .expression items e []) :
    declaredAtoms room expr true =
      if 4 * e.nesting + 5 ≤ room then .ok (e.names, e.hasOr && e.isEnclosedDisjunction) else .error .recursionError := by
  rw [declaredAtoms, if_pos rfl, licenseExpressionAtoms, htokens, ok_bind, parse_complete expr he, e.plainAt_all]
  by_cases hroom : 4 * e.nesting + 5 ≤ room
  · rw [if_pos hroom]
  · rw [if_neg hroom]

/-- An accepted expression is never assessed as friendlier than it is, and a choice of licences as it is. -/
private theorem assess_expression {items : List Token} (htokens : tokensFrom expr expr.length expr = .ok items)
    (he : Derives .expression items e []) (hroom : 4 * e.nesting + 5 ≤ room) (category : Str → Option Category) :
    ∃ reading, assess category room expr true = .ok reading ∧
      categorySeverity (some (resolvedCategory (exactReading category e))) ≤ categorySeverity (some reading.category) ∧
      (e.isEnclosedDisjunction = true → reading.category = resolvedCategory (exactReading category e)) := by
  have hatoms := @declaredAtoms_expression room expr _ e htokens he
  rw [if_pos hroom] at hatoms
  obtain ⟨exact, hexact, hcategory⟩ := exactReading_mem category e
  rw [hcategory]
  by_cases hplain : (e.hasOr && e.isEnclosedDisjunction) = true
  · rw [hplain] at hatoms
    have henclosed := (Bool.and_eq_true_iff.1 hplain).2
    obtain ⟨reading, hok, chosen, hchosen, hreading, hle⟩ := assess_disjunction category hatoms ⟨exact, hexact⟩
    have hge := exactReading_le category henclosed hchosen
    rw [hcategory] at hge
    have heq := categorySeverity_injective (hge.antisymm (hle exact hexact))
    rw [← heq] at hreading
    exact ⟨reading, hok, by rw [hreading], fun _ => hreading⟩
  · rw [Bool.eq_false_of_not_eq_true hplain] at hatoms
    obtain ⟨reading, hok, worst, hworst, hreading, hge⟩ := assess_all category hatoms ⟨exact, hexact⟩
    refine ⟨reading, hok, ?_, ?_⟩
    · rw [hreading]
      exact resolvedCategory_mono (hge exact hexact)
    · intro henclosed
      have hor : e.hasOr = false := by
        rw [henclosed, Bool.and_true] at hplain
        exact Bool.eq_false_of_not_eq_true hplain
      obtain ⟨name, hname⟩ := Expr.names_of_not_hasOr henclosed hor
      rw [hname, Finset.mem_singleton] at hexact hworst
      rw [hreading, hworst, hexact]

/-- `license_expression_atoms` always ends. -/
private theorem licenseExpressionAtoms_ends (room : Nat) (expr : Str) :
    licenseExpressionAtoms room expr ≠ .error .outOfFuel := by
  have htokens := tokensFrom_ne_outOfFuel expr (le_refl expr.length)
  rw [licenseExpressionAtoms]
  cases h : tokensFrom expr expr.length expr with
  | error failure =>
    rw [h] at htokens
    rw [error_bind]
    exact fun heq => htokens (congrArg Except.error (Except.error.inj heq))
  | ok items => exact (parse_ends expr room).1

/-- The tokens are accepted exactly if they have a derivation, the atoms are the licences outside the additions, and what
`assess` makes of them is never friendlier than what the expression says, and the same for a choice of licences inside
parentheses. -/
def ReadSoundly (room : Nat) (items : List Token) (text : Str) : Prop :=
  ((∃ result, (LicenseExpressionParser.init items text).parse room = .ok result) ↔
    ∃ e, Derives .expression items e []) ∧
  ∀ e, Derives .expression items e [] →
    (∃ disjunction, (LicenseExpressionParser.init items text).parse room = .ok (e.names, disjunction)) ∧
    ∀ (category : Str → Option Category) (expr : Str), tokensFrom expr expr.length expr = .ok items →
      ∃ reading, assess category room expr true = .ok reading ∧
        categorySeverity (some (resolvedCategory (exactReading category e))) ≤ categorySeverity (some reading.category) ∧
        (e.isEnclosedDisjunction = true → reading.category = resolvedCategory (exactReading category e))

/-- The parser ends on every list of tokens and on every text, and reads soundly exactly where there is room for the depth
of the parentheses. -/
theorem license_reading_sound_iff (room : Nat) (items : List Token) (text : Str) :
    ((LicenseExpressionParser.init items text).parse room ≠ .error .outOfFuel ∧
      licenseExpressionAtoms room text ≠ .error .outOfFuel) ∧
    (ReadSoundly room items text ↔ ∀ e, Derives .expression items e [] → 4 * e.nesting + 5 ≤ room) := by
  obtain ⟨hends, haccepted⟩ := @parse_ends items text room
  refine ⟨⟨hends, licenseExpressionAtoms_ends room text⟩, fun hsound e he => ?_, fun hroom => ⟨⟨?_, ?_⟩, fun e he => ?_⟩⟩
  · by_contra hroom
    obtain ⟨⟨disjunction, hok⟩, -⟩ := hsound.2 e he
    rw [parse_complete text he, if_neg hroom] at hok
    cases hok
  · rintro ⟨result, hok⟩
    exact haccepted result hok
  · rintro ⟨e, he⟩
    exact ⟨_, (parse_complete text he).trans (if_pos (hroom e he))⟩
  · refine ⟨⟨_, (parse_complete text he).trans (if_pos (hroom e he))⟩, fun category expr htokens => ?_⟩
    exact assess_expression htokens he (hroom e he) category

end

/-! ### Deep parentheses -/

/-- A licence inside so many parentheses. -/
def enclosedExpr : Nat → Expr
  | 0 => .licence "MIT".toList none
  | n + 1 => .parens (enclosedExpr n)

def enclosedTokens (n : Nat) : List Token :=
  List.replicate n ⟨.lparen, "(".toList⟩ ++ ⟨.id, "MIT".toList⟩ :: List.replicate n ⟨.rparen, ")".toList⟩

def enclosedText (n : Nat) : Str := List.replicate n '(' ++ "MIT".toList ++ List.replicate n ')'

private theorem nesting_enclosedExpr (n : Nat) : (enclosedExpr n).nesting = n := by
  induction n with
  | zero => rfl
  | succ n ih => rw [enclosedExpr, Expr.nesting, ih]

private theorem derives_enclosed (n : Nat) (ts : List Token) :
    Derives .expression (enclosedTokens n ++ ts) (enclosedExpr n) ts := by
  induction n generalizing ts with
  | zero => exact .expression (.conjunction (.withNone (.identifier rfl)) .andEnd) .orEnd
  | succ n ih =>
    have htokens : enclosedTokens (n + 1) ++ ts =
        ⟨.lparen, "(".toList⟩ :: (enclosedTokens n ++ ⟨.rparen, ")".toList⟩ :: ts) := by
      unfold enclosedTokens
      rw [List.replicate_succ, List.replicate_succ' (a := Token.mk .rparen _)]
      simp
    rw [htokens]
    exact .expression (.conjunction (.withNone (.parens rfl (ih _) rfl)) .andEnd) .orEnd

/-- The default limit of the interpreter leaves no room for a licence inside 250 parentheses, and `assess` ends with it. -/
theorem not_readSoundly_enclosed :
    ¬ ReadSoundly 1000 (enclosedTokens 250) (enclosedText 250) ∧ (enclosedText 250).length = 503 ∧
      ∀ category, assess category 1000 (enclosedText 250) true = .error .recursionError := by
  have hderives : Derives .expression (enclosedTokens 250) (enclosedExpr 250) [] := by
    have h := derives_enclosed 250 []
    rwa [List.append_nil] at h
  have hroom : ¬ 4 * (enclosedExpr 250).nesting + 5 ≤ 1000 := by
    rw [nesting_enclosedExpr]
    decide
  have htokens : tokensFrom (enclosedText 250) (enclosedText 250).length (enclosedText 250) = .ok (enclosedTokens 250) := by
    decide +kernel
  refine ⟨fun hsound => ?_, by decide +kernel, fun category => ?_⟩
  · obtain ⟨⟨disjunction, hok⟩, -⟩ := hsound.2 _ hderives
    rw [parse_complete _ hderives, if_neg hroom] at hok
    cases hok
  · rw [assess, declaredAtoms_expression htokens hderives, if_neg hroom, error_bind]

end Spdx

end TrustedReleases
