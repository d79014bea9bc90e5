import TrustedReleases.Dist.Decompose
import TrustedReleases.Lib.Search

/-!
# Where a file name is split

The version of a file name is recognised at a position, and the name of the subproject is read before the first
occurrence of the version's characters.  The two are one place for every dotted version, and for a date or a bare number
exactly if its characters occur nowhere before (`decompose_splits_iff`).
-/

namespace TrustedReleases

open Lib

namespace Dist

open Regex

variable {filename : Str} {p : Nat} {written : Str}

/-- The version in a file name, with the position where it is recognised. -/
def recognised (filename : Str) : Option (Nat × Str) :=
  match semverFileRegex.search filename with
  | some semver => (semver.group "1").map (semver.start, ·)
  | none =>
    match calverFileRegex.search filename with
    | some calver => (calver.group "1").map (calver.start, ·)
    | none => (bareVersionFileRegex.search filename).bind fun bare => (bare.group "1").map (bare.start, ·)

private theorem versionFromFilename_eq : versionFromFilename filename = (recognised filename).map (·.2) := by
  unfold versionFromFilename recognised
  cases semverFileRegex.search filename with
  | some semver => cases hgroup : semver.group "1" <;> simp [hgroup]
  | none =>
    cases calverFileRegex.search filename with
    | some calver => cases hgroup : calver.group "1" <;> simp [hgroup]
    | none =>
      cases bareVersionFileRegex.search filename with
      | none => rfl
      | some bare => cases hgroup : bare.group "1" <;> simp [hgroup]

-- digits of all scripts count, and a word goes on with any letter
example : recognised "log4j٢-parent-٢-src.zip".toList = some (14, "٢".toList) := by decide +kernel

example : recognised "log4j2-parent-2-srcé.zip".toList = none := by decide +kernel

/-! ### The version stands where it is recognised -/

private theorem mem_run_lookbehind {positive : Bool} {q : Char → Bool} {c c' : Cursor}
    (h : c' ∈ run (.lookbehind positive q) c) : c' = c := by
  unfold run at h
  split at h
  · exact List.mem_singleton.1 h
  · cases h

private theorem mem_run_lookahead {positive : Bool} {a : Regex} {c c' : Cursor}
    (h : c' ∈ run (.lookahead positive a) c) :
    c' = c := by
  unfold run at h
  split at h
  · exact List.mem_singleton.1 h
  · cases h

private theorem occursAt_of_group {a : Regex} {name : Str} {c' : Cursor} (hconsuming : a.consuming = true)
    (h : c' ∈ run (.group name a) (placeAt filename p)) :
    ∃ w, c'.groups name = some w ∧ w ≠ [] ∧ OccursAt w filename p := by
  obtain ⟨c₁, h₁, w, htakes, -, -, hgroup⟩ := mem_run_group h
  refine ⟨w, hgroup, ?_, ?_⟩
  · rintro rfl
    have hlt := (mem_run_length h₁).2 hconsuming
    rw [htakes.1, List.nil_append] at hlt
    omega
  · have hrest : filename.drop p = w ++ c₁.rest := htakes.1
    unfold OccursAt
    rw [hrest]
    exact List.prefix_append w c₁.rest

/-- A group between a condition on what is before it and one on what is after it. -/
private theorem occursAt_of_guarded {positive positive' : Bool} {q : Char → Bool} {a b : Regex} {name : Str}
    {c' : Cursor}
    (hconsuming : a.consuming = true)
    (h : c' ∈ run (.cat [.lookbehind positive q, .group name a, .lookahead positive' b]) (placeAt filename p)) :
    ∃ w, c'.groups name = some w ∧ w ≠ [] ∧ OccursAt w filename p := by
  obtain ⟨c₁, h₁, h⟩ := mem_run_seq.1 h
  obtain ⟨c₂, h₂, h⟩ := mem_run_seq.1 h
  obtain ⟨c₃, h₃, h⟩ := mem_run_seq.1 h
  rw [mem_run_lookbehind h₁] at h₂
  change c' ∈ run .empty c₃ at h
  rw [run, List.mem_singleton] at h
  rw [h, mem_run_lookahead h₃]
  exact occursAt_of_group hconsuming h₂

private theorem occurs_of_pair {m : Match}
    (hgroup : ∃ w, m.stop.groups "1".toList = some w ∧ w ≠ [] ∧ OccursAt w filename m.start)
    (h : (m.group "1").map (m.start, ·) = some (p, written)) : written ≠ [] ∧ OccursAt written filename p := by
  obtain ⟨w, hw, hne, hoccurs⟩ := hgroup
  obtain ⟨w', hw', hpair⟩ := Option.map_eq_some_iff.1 h
  have hsame : w = w' := Option.some.inj (hw.symm.trans hw')
  cases hpair
  rw [← hsame]
  exact ⟨hne, hoccurs⟩

private theorem recognised_occurs (h : recognised filename = some (p, written)) :
    written ≠ [] ∧ OccursAt written filename p := by
  unfold recognised at h
  split at h
  · rename_i semver hsemver
    apply occurs_of_pair _ h
    obtain ⟨c₁, h₁, h₂⟩ := mem_run_seq.1 (search_eq_some hsemver).2.1
    rw [mem_run_lookbehind h₁] at h₂
    exact occursAt_of_group rfl h₂
  · split at h
    · rename_i calver hcalver
      exact occurs_of_pair (occursAt_of_guarded rfl (search_eq_some hcalver).2.1) h
    · obtain ⟨bare, hbare, h⟩ := Option.bind_eq_some_iff.1 h
      exact occurs_of_pair (occursAt_of_guarded rfl (search_eq_some hbare).2.1) h

/-! ### Dotted versions -/

/-- A dotted version begins with digits, a dot and a digit. -/
private theorem semver_digits {m : Match} (h : semverFileRegex.search filename = some m) : ∃ w ds x rest,
    m.group "1" = some w ∧ w = ds ++ '.' :: x :: rest ∧ ds ≠ [] ∧ (∀ c ∈ ds, isDecimal c = true) ∧ isDecimal x = true := by
  obtain ⟨c₁, -, h₂⟩ := mem_run_seq.1 (search_eq_some h).2.1
  obtain ⟨c₂, h₂, w, htakes, -, -, hgroup⟩ := mem_run_group h₂
  obtain ⟨c₃, h₃, h⟩ := mem_run_seq.1 h₂
  obtain ⟨ds, hds, hne, hall⟩ := mem_run_many1_one h₃
  obtain ⟨c₄, h₄, h₅⟩ := mem_run_seq.1 h
  obtain ⟨c₆, h₆, h₇⟩ := mem_run_seq.1 h₄
  obtain ⟨c₈, h₈, h₉⟩ := mem_run_seq.1 h₆
  obtain ⟨c₁₀, h₁₀, h₁₁⟩ := mem_run_seq.1 h₈
  obtain ⟨dot, rest, hdot, hisdot, rfl⟩ := mem_run_one.1 h₁₀
  change c₈ ∈ run .empty _ at h₁₁
  rw [run, List.mem_singleton] at h₁₁
  rw [h₁₁] at h₉
  obtain ⟨es, hes, hes_ne, hes_all⟩ := mem_run_many1_one h₉
  obtain ⟨s, hs⟩ := mem_run_takes h₇
  obtain ⟨t, ht⟩ := mem_run_takes h₅
  cases es with
  | nil => exact absurd rfl hes_ne
  | cons x es =>
    refine ⟨w, ds, x, es ++ (s ++ t), hgroup, ?_, hne, hall, hes_all x List.mem_cons_self⟩
    have hwhole : w ++ c₂.rest = (ds ++ '.' :: x :: (es ++ (s ++ t))) ++ c₂.rest := by
      have hrest : rest = x :: es ++ c₆.rest := hes.1
      have hchar : dot = '.' := beq_iff_eq.1 hisdot
      rw [← htakes.1, hds.1, hdot, hrest, hs.1, ht.1, hchar]
      simp
    exact List.append_cancel_right hwhole

/-- There is a dotted version wherever digits after something else come before a dot and a digit. -/
private theorem run_semver_ne_nil {u ds rest : Str} {x : Char} (hbefore : u.head?.any isDigit = false) (hne : ds ≠ [])
    (hall : ∀ c ∈ ds, isDecimal c = true) (hx : isDecimal x = true) :
    run semverFileRegex ⟨u, ds ++ '.' :: x :: rest, fun _ => none⟩ ≠ [] := by
  have hnumber := @run_many1_one_mem isDecimal ds ('.' :: x :: rest) u (fun _ => none) hne hall
  have hmore := @run_many1_one_mem isDecimal [x] rest ('.' :: (ds.reverse ++ u)) (fun _ => none)
    (List.cons_ne_nil x []) (by simpa using hx)
  have hdot : (⟨'.' :: (ds.reverse ++ u), x :: rest, fun _ => none⟩ : Cursor) ∈
      run (.lit ".") ⟨ds.reverse ++ u, '.' :: x :: rest, fun _ => none⟩ := by
    apply mem_run_seq.2
    refine ⟨_, mem_run_one.2 ⟨'.', x :: rest, rfl, rfl, rfl⟩, ?_⟩
    exact List.mem_singleton_self _
  have hdotted := mem_run_seq.2 ⟨_, hdot, hmore⟩
  have hstart : (⟨u, ds ++ '.' :: x :: rest, fun _ => none⟩ : Cursor) ∈
      run (.lookbehind false isDigit) ⟨u, ds ++ '.' :: x :: rest, fun _ => none⟩ := by
    rw [run, if_pos hbefore]
    exact List.mem_singleton_self _
  intro hnil
  rw [semverFileRegex, run, List.flatMap_eq_nil_iff] at hnil
  have hgroup := hnil _ hstart
  rw [run, List.map_eq_nil_iff] at hgroup
  have hend (c : Cursor) : c ∈ run .empty c := List.mem_singleton_self c
  have hmem (qualifier : Regex) : (⟨x :: '.' :: (ds.reverse ++ u), rest, fun _ => none⟩ : Cursor) ∈
      run (.cat [.many1 .decimal, .many1 (.seq (.lit ".") (.many1 .decimal)), .many qualifier])
        ⟨u, ds ++ '.' :: x :: rest, fun _ => none⟩ :=
    mem_run_seq.2 ⟨_, hnumber, mem_run_seq.2 ⟨_, mem_run_seq.2 ⟨_, hdotted, self_mem_run_many⟩,
      mem_run_seq.2 ⟨_, self_mem_run_many, hend _⟩⟩⟩
  exact List.ne_nil_of_mem (hmem _) hgroup

/-- The characters of a dotted version do not occur before it. -/
private theorem semver_first {m : Match} (h : semverFileRegex.search filename = some m) {w : Str}
    (hgroup : m.group "1" = some w) {q : Nat} (hoccurs : OccursAt w filename q) : m.start ≤ q := by
  obtain ⟨w', ds, x, rest, hw', hform, hne, hall, hx⟩ := semver_digits h
  have hsame : w' = w := Option.some.inj (hw'.symm.trans hgroup)
  obtain ⟨tail, htail⟩ := hoccurs
  -- the digits just before the occurrence belong to a dotted version as well
  let back := (filename.take q).reverse
  let front := (back.dropWhile isDecimal).reverse
  let digits := (back.takeWhile isDecimal).reverse
  have hfront : front ++ digits = filename.take q := by
    show (back.dropWhile isDecimal).reverse ++ (back.takeWhile isDecimal).reverse = filename.take q
    rw [← List.reverse_append, List.takeWhile_append_dropWhile, List.reverse_reverse]
  have hwhole : filename = front ++ ((digits ++ ds) ++ '.' :: x :: (rest ++ tail)) := by
    calc filename = filename.take q ++ filename.drop q := (List.take_append_drop q filename).symm
      _ = (front ++ digits) ++ ((ds ++ '.' :: x :: rest) ++ tail) := by rw [hfront, ← htail, ← hsame, hform]
      _ = front ++ ((digits ++ ds) ++ '.' :: x :: (rest ++ tail)) := by simp
  have hplace : placeAt filename front.length =
      ⟨front.reverse, (digits ++ ds) ++ '.' :: x :: (rest ++ tail), fun _ => none⟩ := by
    unfold placeAt
    rw [hwhole, List.take_left, List.drop_left]
  have hmatch : run semverFileRegex (placeAt filename front.length) ≠ [] := by
    rw [hplace]
    apply run_semver_ne_nil _ (by simp [hne]) _ hx
    · have hhead := List.head?_dropWhile_not isDecimal back
      rw [List.reverse_reverse]
      cases hdrop : (back.dropWhile isDecimal).head? with
      | none => rfl
      | some y =>
        rw [hdrop] at hhead
        have hother : isDecimal y = false := by simpa using hhead
        cases hy : isDigit y with
        | false => exact hy
        | true => exact absurd (isDecimal_of_isDigit hy) (by simp [hother])
    · intro c hc
      rcases List.mem_append.1 hc with hc | hc
      · exact List.mem_takeWhile_imp (List.mem_reverse.1 hc)
      · exact hall c hc
  have hle : front.length ≤ q := by
    have hlength := congrArg List.length hfront
    rw [List.length_append, List.length_take] at hlength
    omega
  by_contra hlt
  exact hmatch ((search_eq_some h).2.2 front.length (by omega))

/-! ### The split -/

/-- The subproject that `_filename_only` reads from the part of a file name before the version. -/
def DistRules.subprojectBefore (rules : DistRules) (committee part : Str) : Option Str :=
  let name := rules.stripNameSuffixes (part.reverse.dropWhile (isOneOf "-._")).reverse
  if name = [] ∨ removePrefix "apache-".toList (Unicode.lower name) = committee then none else some name

/-- A version that a file name without directories is given is recognised at a position, and both the search for its
characters and the subproject split the name there. -/
def SplitsAtVersion (rules : DistRules) (committee filename : Str) : Prop :=
  ∀ decomposed version, rules.decompose committee [] (some filename) = some decomposed →
    decomposed.version = some version →
    ∃ p written, recognised filename = some (p, written) ∧ Unicode.lower written = version ∧
      (cut written filename).map (·.1) = some (filename.take p) ∧
      decomposed.subproject = rules.subprojectBefore committee (filename.take p)

/-- The characters of a date or a bare number occur nowhere before the position where they are recognised. -/
def FreshBefore (filename : Str) : Prop :=
  ∀ p written, semverFileRegex.search filename = none → recognised filename = some (p, written) →
    ∀ q < p, ¬ OccursAt written filename q

/-- The part of a file name before the first occurrence of a version, `filename[: filename.find(version)]`. -/
def partBefore (filename version : Str) : Str :=
  match cut version filename with
  | some (before, _) => before
  | none => filename.dropLast

private theorem decomposed_ite {c : Prop} [Decidable c] {name : Str} {version : Option Str} :
    (if c then (⟨none, version, .filename, none⟩ : Decomposed) else ⟨some name, version, .filename, none⟩) =
      ⟨if c then none else some name, version, .filename, none⟩ := by
  by_cases hc : c
  · rw [if_pos hc, if_pos hc]
  · rw [if_neg hc, if_neg hc]

private theorem filenameOnly_eq {rules : DistRules} {committee : Str} (hne : filename ≠ []) :
    rules.filenameOnly committee (some filename) = (recognised filename).map fun (_, written) =>
      ⟨rules.subprojectBefore committee (partBefore filename written), some written, .filename, none⟩ := by
  have hfilter : (some filename).filter (fun name => decide (name ≠ [])) = some filename := by
    simp [Option.filter, hne]
  unfold DistRules.filenameOnly
  simp only [hfilter]
  rw [versionFromFilename_eq, Option.map_map]
  congr 1
  funext ⟨_, written⟩
  exact decomposed_ite

/-- The decomposition of a file name without directories. -/
private theorem decompose_flat {rules : DistRules} {committee : Str} (hne : filename ≠ []) :
    rules.decompose committee [] (some filename) = (recognised filename).map fun (_, written) =>
      ⟨rules.subprojectBefore committee (partBefore filename written), some (Unicode.lower written), .filename,
        some written⟩ := by
  unfold DistRules.decompose DistRules.decomposeRaw
  rw [List.any_nil, if_neg Bool.false_ne_true, stripSelfPrefix]
  simp only
  rw [filenameOnly_eq hne, Option.map_map]
  rfl

private theorem decompose_empty {rules : DistRules} {committee : Str} :
    rules.decompose committee [] (some []) = none := by
  unfold DistRules.decompose DistRules.decomposeRaw
  rw [List.any_nil, if_neg Bool.false_ne_true, stripSelfPrefix]
  rfl

/-- The search for the characters of the version splits the name at the recognised position exactly if they do not occur
before. -/
private theorem cut_recognised_iff (h : recognised filename = some (p, written)) :
    (cut written filename).map (·.1) = some (filename.take p) ↔ ∀ q < p, ¬ OccursAt written filename q := by
  obtain ⟨hne, hoccurs⟩ := recognised_occurs h
  refine ⟨fun hcut q hlt hq => ?_, fun hfirst => cut_eq_take hne hoccurs hfirst⟩
  have hexists : ∃ i, OccursAt written filename i := ⟨q, hq⟩
  have hearlier := cut_eq_take hne (Nat.find_spec hexists) fun i hi => Nat.find_min hexists hi
  have hfind : Nat.find hexists ≤ q := Nat.find_min' hexists hq
  have htake : filename.take p = filename.take (Nat.find hexists) := Option.some.inj (hcut.symm.trans hearlier)
  have hlength := congrArg List.length htake
  have hp : p < filename.length := by
    unfold OccursAt at hoccurs
    by_contra hge
    rw [List.drop_eq_nil_of_le (by omega), List.prefix_nil] at hoccurs
    exact hne hoccurs
  rw [List.length_take, List.length_take] at hlength
  omega

private theorem recognised_semver {m : Match} (h : semverFileRegex.search filename = some m)
    (hrecognised : recognised filename = some (p, written)) : m.group "1" = some written ∧ m.start = p := by
  unfold recognised at hrecognised
  rw [h] at hrecognised
  obtain ⟨w, hw, hpair⟩ := Option.map_eq_some_iff.1 hrecognised
  cases hpair
  exact ⟨hw, rfl⟩

/-- File names are split at the recognised version exactly if it is a dotted one or its characters do not occur
before. -/
theorem decompose_splits_iff (rules : DistRules) (committee filename : Str) :
    SplitsAtVersion rules committee filename ↔ FreshBefore filename := by
  constructor
  · intro hsplits p written hsemver hrecognised
    have hne : filename ≠ [] := by
      rintro rfl
      cases hrecognised
    have hdecomposed := @decompose_flat filename rules committee hne
    rw [hrecognised] at hdecomposed
    obtain ⟨p', written', hrecognised', -, hcut, -⟩ := hsplits _ _ hdecomposed rfl
    cases hrecognised.symm.trans hrecognised'
    exact (cut_recognised_iff hrecognised).1 hcut
  · intro hfresh decomposed version hdecompose hversion
    have hne : filename ≠ [] := by
      rintro rfl
      rw [decompose_empty] at hdecompose
      cases hdecompose
    rw [decompose_flat hne] at hdecompose
    obtain ⟨⟨p, written⟩, hrecognised, rfl⟩ := Option.map_eq_some_iff.1 hdecompose
    have hfirst : ∀ q < p, ¬ OccursAt written filename q := by
      cases hsemver : semverFileRegex.search filename with
      | none => exact hfresh p written hsemver hrecognised
      | some m =>
        obtain ⟨hgroup, hstart⟩ := recognised_semver hsemver hrecognised
        intro q hlt hoccurs
        have hle := semver_first hsemver hgroup hoccurs
        omega
    have hcut := (cut_recognised_iff hrecognised).2 hfirst
    refine ⟨p, written, hrecognised, Option.some.inj hversion, hcut, ?_⟩
    obtain ⟨parts, hparts, htake⟩ := Option.map_eq_some_iff.1 hcut
    show rules.subprojectBefore committee (partBefore filename written) = _
    rw [partBefore, hparts, ← htake]

/-- The second `2` of the name is its version, and the subproject is read from what is before the first one. -/
theorem not_decompose_splits : ¬ ∀ rules committee filename, SplitsAtVersion rules committee filename := by
  intro h
  obtain ⟨p, written, hrecognised, -, -, hsubproject⟩ := h emptyRules "logging".toList
    "log4j2-parent-2-src.zip".toList ⟨some "log4j".toList, some "2".toList, .filename, some "2".toList⟩ "2".toList
    (by decide +kernel) rfl
  have hposition : recognised "log4j2-parent-2-src.zip".toList = some (14, "2".toList) := by decide +kernel
  cases hposition.symm.trans hrecognised
  have hbefore : emptyRules.subprojectBefore "logging".toList ("log4j2-parent-2-src.zip".toList.take 14) =
      some "log4j2-parent".toList := by
    decide +kernel
  rw [hbefore] at hsubproject
  exact absurd hsubproject (by decide)

end Dist

end TrustedReleases
