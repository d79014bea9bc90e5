import TrustedReleases.Versions.Semver

/-!
# Releases in the ranges of their cycles

A release lies in the range of its own cycle and in no other one, apart from pre-releases: those of the first version of
a cycle are in the range before it, and a cycle without numbers in its name that has no releases takes all versions
(`ranges_right_iff`).
-/

namespace TrustedReleases

open Lib

namespace Versions

/-! ### Leading numbers -/

/-- The package reads up to three numbers and then what belongs to a pre-release or a build; missing numbers are zero. -/
def ReadsNumbers (pkg : Package) : Prop :=
  ∀ s v, pkg.parse s = some v → ∃ parts tail, parts ≠ [] ∧ parts.length ≤ 3 ∧ (∀ part ∈ parts, part ≠ [] ∧ IsDigits part) ∧
    s = ['.'].intercalate parts ++ tail ∧ (∀ c ∈ tail.head?, c = '-' ∨ c = '+') ∧
    [v.major, v.minor, v.patch] = padded (parts.map numeral)

/-- The name is the first one or two numbers of the version. -/
def LeadingNumbers (version name : Str) : Prop :=
  ∃ parts rest, (parts.length = 1 ∨ parts.length = 2) ∧ (∀ part ∈ parts, part ≠ [] ∧ IsDigits part) ∧
    name = ['.'].intercalate parts ∧ version.dropWhile (· == 'v') = name ++ rest ∧ ∀ c ∈ rest.head?, c.isDigit = false

/-- The pattern of the project captures the first one or two numbers of a version, and of every semantic version. -/
structure CapturesNumbers (pkg : Package) (project : Project) : Prop where
  captures : ∀ version v, semverParse pkg version = some v → ∃ name, cycleNameForVersion project version = .ok name
  leading : ∀ version name, cycleNameForVersion project version = .ok name → LeadingNumbers version name

/-- A run of digits ends where something else follows. -/
private theorem digits_split {d e r s : Str} (hd : IsDigits d) (he : IsDigits e) (hr : ∀ c ∈ r.head?, c.isDigit = false)
    (hs : ∀ c ∈ s.head?, c.isDigit = false) (h : d ++ r = e ++ s) : d = e ∧ r = s := by
  have htake (d r : Str) (hd : IsDigits d) (hr : ∀ c ∈ r.head?, c.isDigit = false) :
      (d ++ r).takeWhile Char.isDigit = d := by
    rw [List.takeWhile_append_of_pos hd]
    cases r with
    | nil => rw [List.takeWhile_nil, List.append_nil]
    | cons c r => rw [List.takeWhile_cons_of_neg (by simp [hr c rfl]), List.append_nil]
  have hsame : d = e := by
    rw [← htake d r hd hr, ← htake e s he hs, h]
  rw [hsame] at h
  exact ⟨hsame, List.append_cancel_left h⟩

/-- Numbers between dots that a text begins with are the first of all its numbers. -/
private theorem leading_prefix {nums parts : List Str} {rest tail : Str} (hnums : nums ≠ [])
    (hdigits : ∀ n ∈ nums, IsDigits n) (hparts : parts ≠ []) (hdigits' : ∀ p ∈ parts, p ≠ [] ∧ IsDigits p)
    (hrest : ∀ c ∈ rest.head?, c.isDigit = false) (htail : ∀ c ∈ tail.head?, c = '-' ∨ c = '+')
    (h : ['.'].intercalate nums ++ rest = ['.'].intercalate parts ++ tail) : nums <+: parts := by
  have htail' : ∀ c ∈ tail.head?, c.isDigit = false := by
    intro c hc
    rcases htail c hc with rfl | rfl <;> rfl
  induction nums generalizing parts with
  | nil => exact absurd rfl hnums
  | cons n nums ih =>
    obtain ⟨hn, hdigits⟩ := List.forall_mem_cons.1 hdigits
    cases parts with
    | nil => exact absurd rfl hparts
    | cons p parts =>
      obtain ⟨⟨-, hp⟩, hmore'⟩ := List.forall_mem_cons.1 hdigits'
      -- what follows the first number on either side
      have hfirst (q : Str) (qs : List Str) (t : Str) : ['.'].intercalate (q :: qs) ++ t =
          q ++ (if qs = [] then t else '.' :: (['.'].intercalate qs ++ t)) := by
        cases qs with
        | nil => simp
        | cons q' qs => simp
      have hafter (qs : List Str) (t : Str) (ht : ∀ c ∈ t.head?, c.isDigit = false) :
          ∀ c ∈ (if qs = [] then t else '.' :: (['.'].intercalate qs ++ t)).head?, c.isDigit = false := by
        split
        · exact ht
        · intro c hc
          cases hc
          rfl
      rw [hfirst, hfirst] at h
      obtain ⟨rfl, hmore⟩ := digits_split hn hp (hafter nums rest hrest) (hafter parts tail htail') h
      rw [List.cons_prefix_cons]
      refine ⟨rfl, ?_⟩
      by_cases hnil : nums = []
      · rw [hnil]
        exact List.nil_prefix
      · rw [if_neg hnil] at hmore
        by_cases hnil' : parts = []
        · rw [if_pos hnil'] at hmore
          rw [← hmore] at htail
          rcases htail '.' rfl with hchar | hchar <;> cases hchar
        · rw [if_neg hnil'] at hmore
          exact ih hnil hdigits hnil' hmore' (List.cons.inj hmore).2

/-- The numbers of a name of numbers. -/
private theorem cycleNumbers_intercalate {parts : List Str} (hlength : parts.length = 1 ∨ parts.length = 2)
    (hparts : ∀ part ∈ parts, part ≠ [] ∧ IsDigits part) :
    cycleNumbers (['.'].intercalate parts) = some (parts.map numeral) := by
  have hne : parts ≠ [] := by
    rintro rfl
    simp at hlength
  have hdot : ∀ part ∈ parts, '.' ∉ part := fun part hpart hmem => absurd ((hparts part hpart).2 '.' hmem) (by decide)
  have hdrop : parts.reverse.dropWhile (fun part => decide (part.map Char.toLower = ['x'])) = parts.reverse := by
    cases hreverse : parts.reverse with
    | nil => rfl
    | cons p ps =>
      have hp := hparts p (List.mem_reverse.1 (by rw [hreverse]; exact List.mem_cons_self))
      rw [List.dropWhile_cons_of_neg]
      intro hx
      obtain ⟨c, hc, hlower⟩ := List.map_eq_singleton_iff.1 (of_decide_eq_true hx)
      have hdigit := hp.2 c (by rw [hc]; exact List.mem_singleton_self c)
      have hbounds := digit_bounds hdigit
      have hsame : c.toLower = c := by
        unfold Char.toLower
        rw [dif_neg]
        rintro ⟨hlow, -⟩
        have hge : 65 ≤ c.toNat := hlow
        omega
      rw [hsame] at hlower
      rw [hlower] at hdigit
      exact absurd hdigit (by decide)
  unfold cycleNumbers
  rw [List.splitOn_intercalate '.' hdot hne, hdrop, List.reverse_reverse]
  dsimp only
  rw [if_neg (by rintro (hnil | hlong); exact hne hnil; omega), if_pos hparts]

private theorem cycleNumbers_default : cycleNumbers DEFAULT_CYCLE = none := by
  have hsplit : DEFAULT_CYCLE.splitOn '.' = [DEFAULT_CYCLE] := by decide +kernel
  have hwild : decide (DEFAULT_CYCLE.map Char.toLower = ['x']) = false := decide_eq_false (by simp [DEFAULT_CYCLE])
  have hword : ¬ IsDigits DEFAULT_CYCLE := fun h => absurd (h 'd' (by decide)) (by decide)
  unfold cycleNumbers
  rw [hsplit, List.reverse_singleton, List.dropWhile_cons_of_neg (by rw [hwild]; decide), List.reverse_singleton]
  simp [hword]

/-! ### Ranges -/

variable {pkg : Package} {project : Project} {releases : List Str} {version name : Str} {v : VersionInfo}

/-- The range of a cycle, with the releases that are in it. -/
def cycleRange (pkg : Package) (project : Project) (releases : List Str) (name : Str) : VersRange :=
  rangeForCycle pkg project name (releases.filter fun version => decide (releaseCycle project version = name))

/-- The cycles of a project: those that its releases are in, and others, such as the default one that every project has
and those that `reassign_release_cycles` has left empty. -/
def projectCycles (project : Project) (others releases : List Str) : List Str :=
  releases.map (releaseCycle project) ++ others

/-- Each release that is a semantic version lies in the range of its cycle, and of no other cycle of the project. -/
def RangesRight (pkg : Package) (project : Project) (others releases : List Str) : Prop :=
  ∀ version ∈ releases, ∀ v, semverParse pkg version = some v →
    (cycleRange pkg project releases (releaseCycle project version)).Covers pkg v ∧
      ∀ other ∈ projectCycles project others releases, other ≠ releaseCycle project version →
        ¬ (cycleRange pkg project releases other).Covers pkg v

/-- The numbers of a cycle do not begin the version, unless it is a pre-release of the first version there, and it is not
one of the first version after the cycle. -/
def Outside (nums : List Nat) (v : VersionInfo) : Prop :=
  (nums <+: [v.major, v.minor, v.patch] → PrereleaseOf v (padded nums)) ∧ ¬ PrereleaseOf v (padded (bumped nums))

/-- No release is a pre-release of the first version of its cycle, and each is outside the numbers of every other cycle.
A cycle without numbers has a release. -/
def NoStrays (pkg : Package) (project : Project) (others releases : List Str) : Prop :=
  ∀ version ∈ releases, ∀ v, semverParse pkg version = some v →
    (∀ nums, cycleNumbers (releaseCycle project version) = some nums → ¬ PrereleaseOf v (padded nums)) ∧
      ∀ other ∈ projectCycles project others releases, other ≠ releaseCycle project version →
        match cycleNumbers other with
        | some nums => Outside nums v
        | none => ∃ r ∈ releases, releaseCycle project r = other

private theorem releaseCycle_of_ok (h : cycleNameForVersion project version = .ok name) :
    releaseCycle project version = name := by
  unfold releaseCycle
  rw [h]

theorem LeadingNumbers.numbers (h : LeadingNumbers version name) :
    ∃ nums, cycleNumbers name = some nums ∧ (nums.length = 1 ∨ nums.length = 2) := by
  obtain ⟨parts, _, hlength, hparts, rfl, -, -⟩ := h
  refine ⟨parts.map numeral, cycleNumbers_intercalate hlength hparts, ?_⟩
  rw [List.length_map]
  exact hlength

/-- The numbers of the cycle that a semantic version is in begin the version. -/
private theorem numbers_of_semver (hreads : ReadsNumbers pkg) (hcaptures : CapturesNumbers pkg project)
    (h : semverParse pkg version = some v) : ∃ nums, cycleNumbers (releaseCycle project version) = some nums ∧
      (nums.length = 1 ∨ nums.length = 2) ∧ nums <+: [v.major, v.minor, v.patch] := by
  obtain ⟨name, hname⟩ := hcaptures.captures version v h
  obtain ⟨parts, rest, hlength, hparts, rfl, htext, hrest⟩ := hcaptures.leading version name hname
  obtain ⟨parts', tail, hne', hlength', hparts', htext', htail, hnumbers⟩ := hreads _ _ h
  have hne : parts ≠ [] := by
    rintro rfl
    simp at hlength
  have hinitial := leading_prefix hne (fun n hn => (hparts n hn).2) hne' hparts' hrest htail (htext.symm.trans htext')
  rw [releaseCycle_of_ok hname]
  refine ⟨parts.map numeral, cycleNumbers_intercalate hlength hparts, by rwa [List.length_map], ?_⟩
  rw [hnumbers]
  exact (hinitial.map numeral).trans (List.prefix_append _ _)

private theorem cycleRange_of_numbers (hsemver : project.versionMethod = .semver) {nums : List Nat}
    (h : cycleNumbers name = some nums) :
    cycleRange pkg project releases name = .between (padded nums) (padded (bumped nums)) := by
  unfold cycleRange rangeForCycle semverBoundsForCycleName
  rw [if_pos hsemver, h]
  rfl

/-- Numbers that begin a version are not those of the first version after them. -/
private theorem not_prefix_bumped {nums : List Nat} (hlength : nums.length = 1 ∨ nums.length = 2)
    (h : nums <+: [v.major, v.minor, v.patch]) : ¬ PrereleaseOf v (padded (bumped nums)) := by
  rintro ⟨-, hcore⟩
  match nums, hlength with
  | [a], _ =>
    have hnext : [v.major, v.minor, v.patch] = [a + 1, 0, 0] := hcore
    rw [hnext, List.cons_prefix_cons] at h
    omega
  | [a, b], _ =>
    have hnext : [v.major, v.minor, v.patch] = [a, b + 1, 0] := hcore
    rw [hnext, List.cons_prefix_cons, List.cons_prefix_cons] at h
    omega

/-- The range of a cycle without numbers lists its releases, none of which is a semantic version, or takes all versions. -/
private theorem covers_of_noNumbers (hsemver : project.versionMethod = .semver)
    (hcaptures : CapturesNumbers pkg project)
    (hnone : cycleNumbers name = none) :
    (cycleRange pkg project releases name).Covers pkg v ↔ ¬ ∃ r ∈ releases, releaseCycle project r = name := by
  unfold cycleRange rangeForCycle semverBoundsForCycleName
  rw [if_pos hsemver, hnone]
  simp only [Option.map_none]
  split_ifs with hempty
  · refine iff_of_true trivial fun ⟨r, hr, hcycle⟩ => ?_
    exact List.ne_nil_of_mem (List.mem_filter.2 ⟨hr, decide_eq_true hcycle⟩) hempty
  · obtain ⟨first, hfirst⟩ := List.exists_mem_of_ne_nil _ hempty
    obtain ⟨hmem, hcycle⟩ := List.mem_filter.1 hfirst
    refine iff_of_false ?_ (not_not.2 ⟨first, hmem, of_decide_eq_true hcycle⟩)
    rintro ⟨text, htext, w, hw, -⟩
    obtain ⟨r, hr, rfl⟩ := List.mem_map.1 htext
    have hcycle := of_decide_eq_true (List.mem_filter.1 hr).2
    have hunread : semverParse pkg r = none := by
      cases hparse : semverParse pkg r with
      | none => rfl
      | some parsed =>
        obtain ⟨name', hname⟩ := hcaptures.captures r parsed hparse
        obtain ⟨nums, hnums, -⟩ := (hcaptures.leading r name' hname).numbers
        rw [releaseCycle_of_ok hname] at hcycle
        rw [hcycle, hnone] at hnums
        cases hnums
    unfold versVersion at hw
    rw [if_neg (not_not.2 hsemver), hunread, hunread] at hw
    cases hw

/-- The numbers of a name are one or two. -/
private theorem cycleNumbers_length {nums : List Nat} (h : cycleNumbers name = some nums) :
    nums.length = 1 ∨ nums.length = 2 := by
  unfold cycleNumbers at h
  dsimp only at h
  split_ifs at h with hparts hdigits
  obtain rfl := Option.some.inj h
  obtain ⟨hne, hlength⟩ := not_or.1 hparts
  rw [List.length_map]
  have hpos := List.length_pos_iff.2 hne
  omega

/-- A reader of up to three numbers and a pre-release. -/
def plainParse (s : Str) : Option VersionInfo :=
  let tail := s.dropWhile fun c => c ≠ '-' && c ≠ '+'
  let parts := (s.takeWhile fun c => c ≠ '-' && c ≠ '+').splitOn '.'
  let numbers := parts.map numeral
  if parts.length ≤ 3 ∧ ∀ part ∈ parts, part ≠ [] ∧ IsDigits part then
    some ⟨numbers.getD 0 0, numbers.getD 1 0, numbers.getD 2 0,
      if tail.head? = some '-' then some (((tail.drop 1).takeWhile (· ≠ '+')).splitOn '.') else none, none⟩
  else none

def plainPackage : Package where
  parse := plainParse
  str v := numbersText [v.major, v.minor, v.patch]

private theorem padded_eq {nums : List Nat} (hlength : nums.length ≤ 3) :
    [nums.getD 0 0, nums.getD 1 0, nums.getD 2 0] = padded nums := by
  match nums, hlength with
  | [], _ | [_], _ | [_, _], _ | [_, _, _], _ => rfl

private theorem plainPackage_reads : ReadsNumbers plainPackage := by
  intro s v h
  replace h : plainParse s = some v := h
  unfold plainParse at h
  dsimp only at h
  split at h
  · rename_i hparts
    rw [← Option.some.inj h]
    refine ⟨_, s.dropWhile fun c => c ≠ '-' && c ≠ '+', List.splitOn_ne_nil _ _, hparts.1, hparts.2, ?_, ?_, ?_⟩
    · rw [List.intercalate_splitOn, List.takeWhile_append_dropWhile]
    · intro c hc
      have hstops := List.head?_dropWhile_not (fun c => c ≠ '-' && c ≠ '+') s
      rw [Option.mem_def.1 hc] at hstops
      have hor : c = '-' ∨ c = '+' := by
        by_contra hneither
        simp [not_or.1 hneither] at hstops
      exact hor
    · exact padded_eq (by rw [List.length_map]; exact hparts.1)
  · cases h

/-- A project whose cycles are the first numbers of the versions. -/
def majorCycles : Project where
  versionMethod := .semver
  cycleMatch := some fun version =>
    let number := (version.dropWhile (· == 'v')).takeWhile Char.isDigit
    if number = [] then none else some [some number]

private theorem majorCycles_name {name : Str} : cycleNameForVersion majorCycles version = .ok name ↔
    (version.dropWhile (· == 'v')).takeWhile Char.isDigit = name ∧ name ≠ [] := by
  unfold cycleNameForVersion majorCycles
  dsimp only
  by_cases hnil : (version.dropWhile (· == 'v')).takeWhile Char.isDigit = []
  · rw [if_pos hnil, hnil]
    constructor
    · intro h
      cases h
    · rintro ⟨rfl, hne⟩
      exact absurd rfl hne
  · rw [if_neg hnil]
    cases hnumber : (version.dropWhile (· == 'v')).takeWhile Char.isDigit with
    | nil => exact absurd hnumber hnil
    | cons c cs =>
      constructor
      · intro h
        cases h
        exact ⟨rfl, List.cons_ne_nil c cs⟩
      · rintro ⟨rfl, -⟩
        rfl

private theorem majorCycles_captures : CapturesNumbers plainPackage majorCycles where
  captures version v h := by
    obtain ⟨parts, tail, hne, -, hparts, htext, -⟩ := plainPackage_reads _ _ h
    cases parts with
    | nil => exact absurd rfl hne
    | cons p ps =>
      obtain ⟨hp, hdigits⟩ := hparts p List.mem_cons_self
      refine ⟨_, majorCycles_name.2 ⟨rfl, ?_⟩⟩
      cases p with
      | nil => exact absurd rfl hp
      | cons c cs =>
        have hdigit := hdigits c List.mem_cons_self
        rw [htext]
        cases ps <;> simp [hdigit]
  leading version name h := by
    obtain ⟨rfl, hne⟩ := majorCycles_name.1 h
    refine ⟨[_], (version.dropWhile (· == 'v')).dropWhile Char.isDigit, Or.inl rfl, ?_, List.intercalate_singleton.symm,
      ?_, ?_⟩
    · intro part hpart
      rw [List.mem_singleton.1 hpart]
      exact ⟨hne, fun c hc => List.mem_takeWhile_imp hc⟩
    · exact (List.takeWhile_append_dropWhile).symm
    · intro c hc
      have hstops := List.head?_dropWhile_not Char.isDigit (version.dropWhile (· == 'v'))
      rw [Option.mem_def.1 hc] at hstops
      simpa using hstops

end Versions

end TrustedReleases
