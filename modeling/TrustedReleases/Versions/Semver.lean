import Mathlib.Data.Prod.Lex
import Mathlib.Data.Sum.Order
import Mathlib.Order.WithBot
import Mathlib.Data.List.Lex
import TrustedReleases.Lib.Except
import TrustedReleases.Lib.Numeral

/-!
# Cycles and their ranges

The cycle that a release belongs to is what the pattern of its project captures from the version (`atr/cycles.py`).  The
range of a cycle goes from the first version of its numbers to the one of the numbers after them (`atr/cle.py`).  The
package semver is a parameter, and the order of its versions is the precedence of semantic versions.
-/

namespace TrustedReleases

open Lib

namespace Versions

/-! ### Semantic versions -/

structure VersionInfo where
  major : Nat
  minor : Nat
  patch : Nat
  prerelease : Option (List Str)
  build : Option Str
  deriving DecidableEq, Repr

/-- The package semver: `VersionInfo.parse` with optional minor and patch numbers, and `str`. -/
structure Package where
  parse : Str → Option VersionInfo
  str : VersionInfo → Str

/-- An identifier of a pre-release: a number is before all others. -/
def identifier (s : Str) : Nat ⊕ₗ Str :=
  if s ≠ [] ∧ IsDigits s then toLex (.inl (numeral s)) else toLex (.inr s)

/-- A version without a pre-release is after all its pre-releases. -/
def precedenceOfPrerelease (prerelease : Option (List Str)) : WithTop (List (Nat ⊕ₗ Str)) :=
  match prerelease with
  | none => ⊤
  | some identifiers => WithTop.some (identifiers.map identifier)

/-- The precedence of semantic versions. -/
def VersionInfo.precedence (v : VersionInfo) : Nat ×ₗ Nat ×ₗ Nat ×ₗ WithTop (List (Nat ⊕ₗ Str)) :=
  toLex (v.major, toLex (v.minor, toLex (v.patch, precedenceOfPrerelease v.prerelease)))

/-- `semver_parse` -/
def semverParse (pkg : Package) (version : Str) : Option VersionInfo := pkg.parse (version.dropWhile (· == 'v'))

/-! ### Cycles -/

def DEFAULT_CYCLE : Str := "default".toList

inductive VersionMethod where
  | simple
  | semver
  | calver
  deriving DecidableEq, Repr

/-- A project with its pattern for cycles, as what a full match captures: the groups of the match. -/
structure Project where
  versionMethod : VersionMethod
  cycleMatch : Option (Str → Option (List (Option Str)))

inductive CycleError where
  | noMatch
  | noGroups
  | emptyCapture
  deriving DecidableEq, Repr

/-- `cycle_name_for_version` -/
def cycleNameForVersion (project : Project) (version : Str) : Except CycleError Str :=
  match project.cycleMatch with
  | none => .ok DEFAULT_CYCLE
  | some fullmatch =>
    match fullmatch version with
    | none => .error .noMatch
    | some [] => .error .noGroups
    | some (none :: _) | some (some [] :: _) => .error .emptyCapture
    | some (some cycle :: _) => .ok cycle

/-- The cycle that `reassign_release_cycles` puts a release into. -/
def releaseCycle (project : Project) (version : Str) : Str :=
  match cycleNameForVersion project version with
  | .ok cycle => cycle
  | .error _ => DEFAULT_CYCLE

/-! ### Ranges -/

/-- The numbers of a cycle name, without wildcards at its end. -/
def cycleNumbers (name : Str) : Option (List Nat) :=
  let parts := ((name.splitOn '.').reverse.dropWhile fun part => decide (part.map Char.toLower = ['x'])).reverse
  if parts = [] ∨ 3 ≤ parts.length then none
  else if ∀ part ∈ parts, part ≠ [] ∧ IsDigits part then some (parts.map numeral)
  else none

/-- The numbers with zeros for those that are missing. -/
def padded (nums : List Nat) : List Nat := nums ++ List.replicate (3 - nums.length) 0

/-- The numbers with the last one increased. -/
def bumped : List Nat → List Nat
  | [] => []
  | [n] => [n + 1]
  | n :: m :: nums => n :: bumped (m :: nums)

/-- `_semver_bounds_for_cycle_name`, before the numbers are written out. -/
def semverBoundsForCycleName (name : Str) : Option (List Nat × List Nat) :=
  (cycleNumbers name).map fun nums => (padded nums, padded (bumped nums))

/-- A range of versions: between two versions, the versions of a list, or all of them. -/
inductive VersRange where
  | between (floor ceiling : List Nat)
  | listed (versions : List Str)
  | any
  deriving DecidableEq, Repr

/-- `_vers_version` -/
def versVersion (pkg : Package) (project : Project) (version : Str) : Str :=
  if project.versionMethod ≠ .semver then version
  else
    match semverParse pkg version with
    | some parsed => pkg.str parsed
    | none => version

/-- The range that `_vers_for_cycle` renders. -/
def rangeForCycle (pkg : Package) (project : Project) (cycleName : Str) (cycleReleases : List Str) : VersRange :=
  match (if project.versionMethod = .semver then semverBoundsForCycleName cycleName else none) with
  | some (floor, ceiling) => .between floor ceiling
  | none => if cycleReleases = [] then .any else .listed (cycleReleases.map (versVersion pkg project))

def numbersText (nums : List Nat) : Str := ['.'].intercalate (nums.map fun n => (toString n).toList)

/-- `_vers_scheme` -/
def versScheme (project : Project) : Str :=
  if project.versionMethod = .semver then "semver".toList else "generic".toList

def VersRange.constraints : VersRange → Str
  | .between floor ceiling => ">=".toList ++ numbersText floor ++ "|<".toList ++ numbersText ceiling
  | .listed versions => ['|'].intercalate versions
  | .any => ['*']

/-- `_vers_for_cycle` -/
def versForCycle (pkg : Package) (project : Project) (cycleName : Str) (cycleReleases : List Str) : Str :=
  "vers:".toList ++ versScheme project ++ '/' :: (rangeForCycle pkg project cycleName cycleReleases).constraints

/-- The version with these numbers. -/
def ofNumbers (nums : List Nat) : VersionInfo := ⟨nums.getD 0 0, nums.getD 1 0, nums.getD 2 0, none, none⟩

/-- A version lies in a range, under the precedence of semantic versions. -/
def VersRange.Covers (pkg : Package) (range : VersRange) (v : VersionInfo) : Prop :=
  match range with
  | .between floor ceiling =>
    (ofNumbers floor).precedence ≤ v.precedence ∧ v.precedence < (ofNumbers ceiling).precedence
  | .listed versions => ∃ version ∈ versions, ∃ w ∈ semverParse pkg version, w.precedence = v.precedence
  | .any => True

/-! ### Precedence and numbers -/

variable {v : VersionInfo} {nums : List Nat}

/-- The version is a pre-release of the version with these numbers. -/
def PrereleaseOf (v : VersionInfo) (nums : List Nat) : Prop :=
  v.prerelease.isSome ∧ [v.major, v.minor, v.patch] = nums

private theorem precedenceOfPrerelease_lt_top {prerelease : Option (List Str)} :
    precedenceOfPrerelease prerelease < ⊤ ↔ prerelease.isSome := by
  cases prerelease with
  | none => simp [precedenceOfPrerelease]
  | some identifiers => simp [precedenceOfPrerelease]

private theorem lt_ofNumbers_iff {a b c : Nat} : v.precedence < (ofNumbers [a, b, c]).precedence ↔
    v.major < a ∨ v.major = a ∧ (v.minor < b ∨ v.minor = b ∧ (v.patch < c ∨ v.patch = c ∧ v.prerelease.isSome)) := by
  show toLex (v.major, toLex (v.minor, toLex (v.patch, precedenceOfPrerelease v.prerelease))) <
    toLex (a, toLex (b, toLex (c, ⊤))) ↔ _
  rw [Prod.Lex.toLex_lt_toLex, Prod.Lex.toLex_lt_toLex, Prod.Lex.toLex_lt_toLex, precedenceOfPrerelease_lt_top]

/-- The range of one or two numbers has the versions that begin with them, less the pre-releases of the first version and
with those of the first version after them. -/
theorem covers_between_iff (pkg : Package) (hlength : nums.length = 1 ∨ nums.length = 2) :
    (VersRange.between (padded nums) (padded (bumped nums))).Covers pkg v ↔
      (nums <+: [v.major, v.minor, v.patch] ∧ ¬ PrereleaseOf v (padded nums)) ∨
        PrereleaseOf v (padded (bumped nums)) := by
  unfold VersRange.Covers PrereleaseOf
  dsimp only
  rw [← not_lt]
  match nums, hlength with
  | [a], _ =>
    show ¬ v.precedence < (ofNumbers [a, 0, 0]).precedence ∧ v.precedence < (ofNumbers [a + 1, 0, 0]).precedence ↔
      ([a] <+: _ ∧ ¬ (_ ∧ _ = [a, 0, 0])) ∨ _ ∧ _ = [a + 1, 0, 0]
    rw [lt_ofNumbers_iff, lt_ofNumbers_iff, List.cons_prefix_cons]
    cases v.prerelease.isSome <;> simp <;> omega
  | [a, b], _ =>
    show ¬ v.precedence < (ofNumbers [a, b, 0]).precedence ∧ v.precedence < (ofNumbers [a, b + 1, 0]).precedence ↔
      ([a, b] <+: _ ∧ ¬ (_ ∧ _ = [a, b, 0])) ∨ _ ∧ _ = [a, b + 1, 0]
    rw [lt_ofNumbers_iff, lt_ofNumbers_iff, List.cons_prefix_cons, List.cons_prefix_cons]
    cases v.prerelease.isSome <;> simp <;> omega

end Versions

end TrustedReleases
