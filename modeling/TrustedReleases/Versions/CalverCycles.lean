import TrustedReleases.Versions.Calver

/-!
# Cycles and ranks of calendar versions

The two patterns of a date format treat its separators differently: one that ends the cycle span is part of the cycle,
while for the order it belongs to the token after the span.  So a version that ends with the span has a cycle and may
have no rank; the formats for which every version with a cycle has a rank are told apart exactly (`cycles_rank_iff`).
-/

namespace TrustedReleases

open Lib Regex

namespace Calver

/-! ### The texts of atoms -/

/-- The texts that atoms match one after the other. -/
def textsOf (atoms : List Atom) : Language Char := (atoms.map (·.regex.language)).prod

private theorem textsOf_nil : textsOf [] = 1 := rfl

private theorem textsOf_cons (a : Atom) (atoms : List Atom) :
    textsOf (a :: atoms) = a.regex.language * textsOf atoms := by
  simp [textsOf]

private theorem textsOf_append (s t : List Atom) : textsOf (s ++ t) = textsOf s * textsOf t := by
  simp [textsOf]

private theorem language_cat (rs : List Regex) : (cat rs).language = (rs.map language).prod := by
  induction rs with
  | nil => rfl
  | cons r rs ih => rw [language_cat_cons, ih, List.map_cons, List.prod_cons]

private theorem language_cat_map (atoms : List Atom) : (cat (atoms.map (·.regex))).language = textsOf atoms := by
  rw [language_cat, List.map_map]
  rfl

/-- What a literal, a field and a serial match. -/
structure Spread (regex : Regex) (slack : Nat) (widest : Nat) : Prop where
  digits : ∀ w ∈ regex.language, IsDecimals w
  widest_ge : 2 ≤ widest
  length_le : ∀ w ∈ regex.language, w.length ≤ widest
  le_length : ∀ w ∈ regex.language, widest ≤ w.length + slack
  replicate_mem : ∀ e, isDecimal e = true → List.replicate widest e ∈ regex.language

private theorem mem_decimal {w : Str} : w ∈ decimal.language ↔ ∃ c, isDecimal c = true ∧ w = [c] := Iff.rfl

private theorem mem_times_decimal {n : Nat} {w : Str} :
    w ∈ (times n decimal).language ↔ IsDecimals w ∧ w.length = n := by
  induction n generalizing w with
  | zero =>
    constructor
    · intro h
      obtain rfl : w = [] := h
      exact ⟨by simp [IsDecimals], rfl⟩
    · rintro ⟨-, hlength⟩
      exact List.length_eq_zero_iff.1 hlength
  | succ n ih =>
    have hcons : (times (n + 1) decimal).language = decimal.language * (times n decimal).language := rfl
    rw [hcons, Language.mem_mul]
    constructor
    · rintro ⟨a, ha, b, hb, rfl⟩
      obtain ⟨c, hc, rfl⟩ := mem_decimal.1 ha
      obtain ⟨hdigits, hlength⟩ := ih.1 hb
      exact ⟨isDecimals_cons.2 ⟨hc, hdigits⟩, by simp [hlength]⟩
    · rintro ⟨hdigits, hlength⟩
      cases w with
      | nil => cases hlength
      | cons c w =>
        obtain ⟨hc, hw⟩ := isDecimals_cons.1 hdigits
        refine ⟨[c], mem_decimal.2 ⟨c, hc, rfl⟩, w, ih.2 ⟨hw, ?_⟩, rfl⟩
        simpa using hlength

private theorem mem_oneOrTwoDigits {w : Str} :
    w ∈ oneOrTwoDigits.language ↔ IsDecimals w ∧ (w.length = 1 ∨ w.length = 2) := by
  have hone : w ∈ oneOrTwoDigits.language ↔
      w ∈ (times 1 decimal).language ∨ w ∈ (times 2 decimal).language := by
    have hsum : oneOrTwoDigits.language = decimal.language * (decimal.language + 1) := rfl
    have hfirst : (times 1 decimal).language = decimal.language * 1 := rfl
    have hsecond : (times 2 decimal).language = decimal.language * (decimal.language * 1) := rfl
    rw [hsum, hfirst, hsecond, mul_add, mul_one, Language.mem_add]
    exact or_comm
  rw [hone, mem_times_decimal, mem_times_decimal, and_or_left]

private theorem mem_many1_decimal {w : Str} : w ∈ (many1 decimal).language ↔ IsDecimals w ∧ w ≠ [] := by
  have hmul : (many1 decimal).language = decimal.language * KStar.kstar decimal.language := rfl
  rw [hmul, Language.mem_mul]
  constructor
  · rintro ⟨a, ha, b, hb, rfl⟩
    obtain ⟨c, hc, rfl⟩ := mem_decimal.1 ha
    obtain ⟨parts, rfl, hparts⟩ := Language.mem_kstar.1 hb
    refine ⟨isDecimals_cons.2 ⟨hc, fun x hx => ?_⟩, by simp⟩
    obtain ⟨part, hpart, hx⟩ := List.mem_flatten.1 hx
    obtain ⟨c', hc', rfl⟩ := mem_decimal.1 (hparts part hpart)
    rwa [List.mem_singleton.1 hx]
  · rintro ⟨hdigits, hne⟩
    cases w with
    | nil => exact absurd rfl hne
    | cons c w =>
      obtain ⟨hc, hw⟩ := isDecimals_cons.1 hdigits
      refine ⟨[c], mem_decimal.2 ⟨c, hc, rfl⟩, w, ?_, rfl⟩
      refine Language.mem_kstar.2 ⟨w.map fun x => [x], ?_, fun y hy => ?_⟩
      · rw [← List.flatMap_def]
        exact (List.flatMap_singleton' w).symm
      obtain ⟨x, hx, rfl⟩ := List.mem_map.1 hy
      exact mem_decimal.2 ⟨x, hw x hx, rfl⟩

/-- How much shorter than the widest text of a field another one can be. -/
def slackOf (role : Role) : Nat := if role = .month ∨ role = .day then 1 else 0

/-- The texts of a token but the serial are digits, between a widest number and little less. -/
private theorem token_spread {token : Token} (h : token ∈ TOKENS) (hserial : token.role ≠ .serial) :
    ∃ widest, Spread token.regex (slackOf token.role) widest := by
  have htimes (n slack : Nat) (hn : 2 ≤ n) : Spread (times n decimal) slack n := by
    refine ⟨fun w hw => (mem_times_decimal.1 hw).1, hn, fun w hw => (mem_times_decimal.1 hw).2.le, fun w hw => ?_,
      fun e he => mem_times_decimal.2 ⟨fun c hc => ?_, List.length_replicate⟩⟩
    · have hlength := (mem_times_decimal.1 hw).2
      omega
    · rwa [List.eq_of_mem_replicate hc]
  have hshort : Spread oneOrTwoDigits 1 2 := by
    refine ⟨fun w hw => (mem_oneOrTwoDigits.1 hw).1, Nat.le_refl 2, fun w hw => ?_, fun w hw => ?_,
      fun e he => mem_oneOrTwoDigits.2 ⟨fun c hc => ?_, .inr rfl⟩⟩
    · have hlength := (mem_oneOrTwoDigits.1 hw).2
      omega
    · have hlength := (mem_oneOrTwoDigits.1 hw).2
      omega
    · rwa [List.eq_of_mem_replicate hc]
  simp only [TOKENS, List.mem_cons, List.not_mem_nil, or_false] at h
  rcases h with rfl | rfl | rfl | rfl | rfl | rfl | rfl
  · exact ⟨4, htimes 4 _ (by omega)⟩
  · exact ⟨2, htimes 2 _ (by omega)⟩
  · exact ⟨2, htimes 2 _ (by omega)⟩
  · exact ⟨2, htimes 2 _ (by omega)⟩
  · exact ⟨2, hshort⟩
  · exact ⟨2, hshort⟩
  · exact absurd rfl hserial

private theorem token_serial {token : Token} (h : token ∈ TOKENS) (hserial : token.role = .serial) :
    token.regex = many1 decimal := by
  simp only [TOKENS, List.mem_cons, List.not_mem_nil, or_false] at h
  rcases h with rfl | rfl | rfl | rfl | rfl | rfl | rfl <;> first | rfl | cases hserial

/-- The texts of a token are digits. -/
private theorem token_digits {token : Token} (h : token ∈ TOKENS) {w : Str} (hw : w ∈ token.regex.language) :
    IsDecimals w ∧ w ≠ [] := by
  by_cases hserial : token.role = .serial
  · rw [token_serial h hserial] at hw
    exact mem_many1_decimal.1 hw
  · obtain ⟨widest, hspread⟩ := token_spread h hserial
    refine ⟨hspread.digits w hw, ?_⟩
    rintro rfl
    have hle := hspread.le_length [] hw
    have hge := hspread.widest_ge
    have hslack : slackOf token.role ≤ 1 := by
      unfold slackOf
      split <;> omega
    rw [List.length_nil] at hle
    omega

/-! ### Parsed atoms -/

/-- An atom of a format: a literal character, or a token. -/
def Parsed (a : Atom) : Prop :=
  (∃ c : Char, a.regex = one (· == c) ∧ a.role = none) ∨
    ∃ token ∈ TOKENS, a.regex = token.regex ∧ a.role = some token.role

theorem parseFrom_parsed {inCycle seenCycle : Bool} {skip : Nat} {rest : Str} {atoms : List Atom}
    (h : parseFrom inCycle seenCycle skip rest = .ok atoms) : ∀ a ∈ atoms, Parsed a := by
  induction rest generalizing inCycle seenCycle skip atoms with
  | nil =>
    rw [parseFrom] at h
    obtain ⟨-, h⟩ := raiseIf_bind_eq_ok.1 h
    obtain rfl := Except.ok.inj h
    intro a ha
    cases ha
  | cons c rest ih =>
    cases skip with
    | succ skip =>
      rw [parseFrom] at h
      exact ih h
    | zero =>
      rw [parseFrom] at h
      by_cases hopen : c = '('
      · rw [if_pos hopen] at h
        exact ih (raiseIf_bind_eq_ok.1 h).2
      · rw [if_neg hopen] at h
        by_cases hclose : c = ')'
        · rw [if_pos hclose] at h
          exact ih (raiseIf_bind_eq_ok.1 h).2
        · rw [if_neg hclose] at h
          cases htoken : matchToken (c :: rest) with
          | some token =>
            rw [htoken] at h
            obtain ⟨more, hmore, h⟩ := bind_eq_ok h
            obtain rfl := Except.ok.inj h
            intro a ha
            rcases List.mem_cons.1 ha with rfl | ha
            · exact .inr ⟨token, List.mem_of_find?_eq_some htoken, rfl, rfl⟩
            · exact ih hmore a ha
          | none =>
            rw [htoken] at h
            obtain ⟨more, hmore, h⟩ := bind_eq_ok h
            obtain rfl := Except.ok.inj h
            intro a ha
            rcases List.mem_cons.1 ha with rfl | ha
            · exact .inl ⟨c, rfl, rfl⟩
            · exact ih hmore a ha

private theorem mem_literal {c : Char} {w : Str} : w ∈ (one (· == c)).language ↔ w = [c] := by
  rw [mem_language_one]
  simp

theorem Parsed.serial {a : Atom} (h : Parsed a) (hrole : a.role = some .serial) : a.regex = many1 decimal := by
  rcases h with ⟨c, -, hnone⟩ | ⟨token, htoken, hregex, hsome⟩
  · rw [hrole] at hnone
    cases hnone
  · rw [hregex]
    exact token_serial htoken (Option.some.inj (hsome.symm.trans hrole))

private theorem Parsed.ne_nil {a : Atom} (h : Parsed a) {w : Str} (hw : w ∈ a.regex.language) : w ≠ [] := by
  rcases h with ⟨c, hregex, -⟩ | ⟨token, htoken, hregex, -⟩
  · rw [hregex, mem_literal] at hw
    rw [hw]
    exact List.cons_ne_nil c []
  · rw [hregex] at hw
    exact (token_digits htoken hw).2

theorem Parsed.plain {a : Atom} (h : Parsed a) : a.regex.plain = true := by
  rcases h with ⟨c, hregex, -⟩ | ⟨token, htoken, hregex, -⟩
  · rw [hregex]
    rfl
  · rw [hregex]
    simp only [TOKENS, List.mem_cons, List.not_mem_nil, or_false] at htoken
    rcases htoken with rfl | rfl | rfl | rfl | rfl | rfl | rfl <;> rfl

/-! ### Chunks -/

/-- The atoms end with a field. -/
def EndsWithField (atoms : List Atom) : Prop := ∃ a ∈ atoms.getLast?, a.role ≠ none

/-- The texts that the first chunks match, one of them at least. -/
def firstChunks : List Regex → Language Char
  | [] => 0
  | chunk :: chunks => chunk.language * (nestedOptional chunks).language

private theorem mem_nestedOptional {chunks : List Regex} {w : Str} :
    w ∈ (nestedOptional chunks).language ↔ w = [] ∨ w ∈ firstChunks chunks := by
  cases chunks with
  | nil =>
    have hzero : w ∉ firstChunks [] := Language.notMem_zero w
    have hone : w ∈ (nestedOptional []).language ↔ w = [] := Language.mem_one w
    rw [hone]
    simp [hzero]
  | cons chunk chunks =>
    have hsum : (nestedOptional (chunk :: chunks)).language = firstChunks (chunk :: chunks) + 1 := rfl
    rw [hsum, Language.mem_add, Language.mem_one]
    exact or_comm

private theorem endsWithField_cons {a : Atom} {atoms : List Atom} (h : atoms ≠ []) :
    EndsWithField (a :: atoms) ↔ EndsWithField atoms := by
  unfold EndsWithField
  rw [List.getLast?_cons_of_ne_nil h]

private theorem endsWithField_singleton {a : Atom} : EndsWithField [a] ↔ a.role ≠ none := by
  simp [EndsWithField]

private theorem not_endsWithField_nil : ¬ EndsWithField [] := by
  simp [EndsWithField]

/-- The first chunks of a format are its first atoms up to a field or to the end. -/
private theorem mem_firstChunks {field : Role → Regex → Regex} (hfield : ∀ role r, (field role r).language = r.language)
    (pending : List Regex) (atoms : List Atom) (w : Str) : w ∈ firstChunks (chunksFrom field pending atoms) ↔
      ∃ s t, s ++ t = atoms ∧ (EndsWithField s ∨ t = [] ∧ (pending ≠ [] ∨ s ≠ [])) ∧
        w ∈ (cat pending).language * textsOf s := by
  induction atoms generalizing pending w with
  | nil =>
    have hsplit : ∀ s t : List Atom, s ++ t = [] ↔ s = [] ∧ t = [] := fun s t => List.append_eq_nil_iff
    rw [chunksFrom]
    by_cases hpending : pending = []
    · rw [if_pos (by rw [hpending]; rfl)]
      constructor
      · intro hw
        exact absurd hw (Language.notMem_zero w)
      · rintro ⟨s, t, hnil, hcut, -⟩
        obtain ⟨rfl, rfl⟩ := (hsplit s t).1 hnil
        rcases hcut with hends | ⟨-, hne | hne⟩
        · exact absurd hends not_endsWithField_nil
        · exact absurd hpending hne
        · exact absurd rfl hne
    · have hempty : ¬ pending.isEmpty = true := by simpa using hpending
      rw [if_neg hempty]
      have hone : firstChunks [cat pending] = (cat pending).language * 1 := rfl
      rw [hone]
      constructor
      · intro hw
        exact ⟨[], [], rfl, .inr ⟨rfl, .inl hpending⟩, hw⟩
      · rintro ⟨s, t, hnil, -, hw⟩
        obtain ⟨rfl, rfl⟩ := (hsplit s t).1 hnil
        exact hw
  | cons a atoms ih =>
    rw [chunksFrom]
    cases hrole : a.role with
    | none =>
      simp only
      rw [ih]
      have hlanguage (s : List Atom) : (cat (pending ++ [a.regex])).language * textsOf s =
          (cat pending).language * textsOf (a :: s) := by
        rw [language_cat, language_cat, textsOf_cons, List.map_append, List.prod_append, List.map_singleton,
          List.prod_singleton, mul_assoc]
      constructor
      · rintro ⟨s, t, rfl, hcut, hw⟩
        rw [hlanguage] at hw
        refine ⟨a :: s, t, rfl, ?_, hw⟩
        rcases hcut with hends | ⟨hnil, -⟩
        · have hne : s ≠ [] := by
            rintro rfl
            exact not_endsWithField_nil hends
          exact .inl ((endsWithField_cons hne).2 hends)
        · exact .inr ⟨hnil, .inr (List.cons_ne_nil a s)⟩
      · rintro ⟨s, t, hst, hcut, hw⟩
        cases s with
        | nil =>
          rcases hcut with hends | ⟨rfl, -⟩
          · exact absurd hends not_endsWithField_nil
          · cases hst
        | cons b s =>
          obtain ⟨rfl, rfl⟩ := List.cons.inj hst
          refine ⟨s, t, rfl, ?_, by rwa [hlanguage]⟩
          rcases hcut with hends | ⟨hnil, -⟩
          · by_cases hne : s = []
            · rw [hne, endsWithField_singleton] at hends
              exact absurd hrole hends
            · exact .inl ((endsWithField_cons hne).1 hends)
          · exact .inr ⟨hnil, .inl (by simp)⟩
    | some role =>
      simp only
      have hchunk : (cat (pending ++ [field role a.regex])).language = (cat pending).language * a.regex.language := by
        rw [language_cat, language_cat, List.map_append, List.prod_append, List.map_singleton, List.prod_singleton,
          hfield]
      have hfirst : firstChunks (cat (pending ++ [field role a.regex]) :: chunksFrom field [] atoms) =
          (cat pending).language * a.regex.language * (nestedOptional (chunksFrom field [] atoms)).language := by
        rw [firstChunks, hchunk]
      have hsplit (s : List Atom) : (cat pending).language * textsOf (a :: s) =
          (cat pending).language * a.regex.language * textsOf s := by
        rw [textsOf_cons, mul_assoc]
      have hnil : (cat ([] : List Regex)).language = 1 := rfl
      rw [hfirst, Language.mem_mul]
      constructor
      · rintro ⟨u, hu, v, hv, rfl⟩
        rcases mem_nestedOptional.1 hv with rfl | hv
        · refine ⟨[a], atoms, rfl, .inl (endsWithField_singleton.2 (by simp [hrole])), ?_⟩
          rw [hsplit, textsOf_nil]
          exact Language.append_mem_mul hu Language.nil_mem_one
        · obtain ⟨s, t, rfl, hcut, hv⟩ := (ih [] v).1 hv
          rw [hnil, one_mul] at hv
          have hne : s ≠ [] := by
            rintro rfl
            rcases hcut with hends | ⟨-, hne | hne⟩
            · exact not_endsWithField_nil hends
            · exact hne rfl
            · exact hne rfl
          refine ⟨a :: s, t, rfl, ?_, ?_⟩
          · rcases hcut with hends | ⟨hend, -⟩
            · exact .inl ((endsWithField_cons hne).2 hends)
            · exact .inr ⟨hend, .inr (List.cons_ne_nil a s)⟩
          · rw [hsplit]
            exact Language.append_mem_mul hu hv
      · rintro ⟨s, t, hst, hcut, hw⟩
        cases s with
        | nil =>
          rcases hcut with hends | ⟨rfl, -⟩
          · exact absurd hends not_endsWithField_nil
          · cases hst
        | cons b s =>
          obtain ⟨rfl, rfl⟩ := List.cons.inj hst
          rw [hsplit, Language.mem_mul] at hw
          obtain ⟨u, hu, v, hv, rfl⟩ := hw
          refine ⟨u, hu, v, mem_nestedOptional.2 ?_, rfl⟩
          by_cases hne : s = []
          · rw [hne, textsOf_nil, Language.mem_one] at hv
            exact .inl hv
          · refine .inr ((ih [] v).2 ⟨s, t, rfl, ?_, by rwa [hnil, one_mul]⟩)
            rcases hcut with hends | ⟨hend, -⟩
            · exact .inl ((endsWithField_cons hne).1 hends)
            · exact .inr ⟨hend, .inr hne⟩

/-! ### The two patterns -/

private theorem plain_cat {rs : List Regex} (h : ∀ r ∈ rs, r.plain = true) : (cat rs).plain = true := by
  induction rs with
  | nil => rfl
  | cons r rs ih =>
    obtain ⟨hr, hrs⟩ := List.forall_mem_cons.1 h
    exact Bool.and_eq_true_iff.2 ⟨hr, ih hrs⟩

private theorem plain_nestedOptional {chunks : List Regex} (h : ∀ r ∈ chunks, r.plain = true) :
    (nestedOptional chunks).plain = true := by
  induction chunks with
  | nil => rfl
  | cons r rs ih =>
    obtain ⟨hr, hrs⟩ := List.forall_mem_cons.1 h
    simp [nestedOptional, opt, Regex.plain, hr, ih hrs]

private theorem plain_chunksFrom {field : Role → Regex → Regex}
    (hfield : ∀ role r, r.plain = true → (field role r).plain = true) {pending : List Regex} {atoms : List Atom}
    (hpending : ∀ r ∈ pending, r.plain = true) (hatoms : ∀ a ∈ atoms, a.regex.plain = true) :
    ∀ r ∈ chunksFrom field pending atoms, r.plain = true := by
  induction atoms generalizing pending with
  | nil =>
    intro r hr
    rw [chunksFrom] at hr
    split at hr
    · cases hr
    · rw [List.mem_singleton.1 hr]
      exact plain_cat hpending
  | cons a atoms ih =>
    obtain ⟨ha, hatoms⟩ := List.forall_mem_cons.1 hatoms
    have happend (r : Regex) (hr : r.plain = true) : ∀ x ∈ pending ++ [r], x.plain = true := by
      intro x hx
      rcases List.mem_append.1 hx with hx | hx
      · exact hpending x hx
      · rwa [List.mem_singleton.1 hx]
    rw [chunksFrom]
    cases hrole : a.role with
    | none => exact ih (happend _ ha) hatoms
    | some role =>
      refine List.forall_mem_cons.2 ⟨plain_cat (happend _ (hfield role _ ha)), ih (by simp) hatoms⟩

/-- What is matched ends with a field or at the end of the format. -/
def StopsAfter (s t : List Atom) : Prop := EndsWithField s ∨ t = [] ∧ s ≠ []

/-- The versions that have a rank. -/
private theorem ordered_iff {dateFormat : Str} {atoms : List Atom} {pattern : Regex}
    (hparse : parse dateFormat = .ok atoms)
    (horder : orderRegex dateFormat = .ok pattern) (version : Str) : (fullMatch pattern version).isSome ↔
      ∃ s t, s ++ t = atoms ∧ StopsAfter s t ∧ version ∈ textsOf s := by
  rw [orderRegex, hparse, ok_bind] at horder
  have hplain : ∀ r ∈ chunksFrom (fun role regex => group role.name regex) [] atoms, r.plain = true :=
    @plain_chunksFrom (fun role regex => group role.name regex) (fun _ _ hr => hr) [] atoms (by simp)
      fun a ha => (parseFrom_parsed hparse a ha).plain
  have hmem := @mem_firstChunks (fun role regex => group role.name regex) (fun _ _ => rfl) [] atoms version
  cases hchunks : chunksFrom (fun role regex => group role.name regex) [] atoms with
  | nil =>
    rw [hchunks] at horder
    cases horder
  | cons chunk chunks =>
    rw [hchunks] at horder hplain hmem
    obtain rfl := Except.ok.inj horder
    obtain ⟨hchunk, hrest⟩ := List.forall_mem_cons.1 hplain
    have hfull := @fullMatch_isSome [chunk, nestedOptional chunks]
      (List.forall_mem_cons.2 ⟨hchunk, List.forall_mem_singleton.2 (plain_nestedOptional hrest)⟩) version
    have hcat : (cat [chunk, nestedOptional chunks]).language = firstChunks (chunk :: chunks) := by
      rw [language_cat_cons, language_cat_cons]
      exact congrArg (chunk.language * ·) (mul_one _)
    rw [hcat, hmem] at hfull
    refine hfull.trans ?_
    have hnil : (cat ([] : List Regex)).language = 1 := rfl
    simp only [hnil, one_mul, ne_eq, not_true_eq_false, false_or]
    exact Iff.rfl

/-- The versions that have a cycle. -/
private theorem cycle_iff {dateFormat : Str} {atoms : List Atom} {pattern : Regex}
    (hparse : parse dateFormat = .ok atoms)
    (hcycle : cycleRegex dateFormat = .ok (some pattern)) : ∃ last,
      (atoms.findIdxs (·.inCycle)).getLast? = some last ∧ ∀ version, (fullMatch pattern version).isSome ↔
        ∃ s t, s ++ t = atoms.drop (last + 1) ∧ (s = [] ∨ StopsAfter s t) ∧
          version ∈ textsOf (atoms.take (last + 1) ++ s) := by
  rw [cycleRegex, hparse, ok_bind] at hcycle
  dsimp only at hcycle
  cases hfirst : (atoms.findIdxs (·.inCycle)).head? with
  | none =>
    rw [hfirst] at hcycle
    cases hcycle
  | some first =>
    cases hlast : (atoms.findIdxs (·.inCycle)).getLast? with
    | none =>
      rw [hfirst, hlast] at hcycle
      cases hcycle
    | some last =>
      rw [hfirst, hlast] at hcycle
      obtain rfl := Option.some.inj (Except.ok.inj hcycle)
      have hle : first ≤ last := by
        obtain ⟨more, hindices⟩ := List.head?_eq_some_iff.1 hfirst
        have hpairwise : (atoms.findIdxs (·.inCycle)).Pairwise (· < ·) := List.pairwise_findIdxs
        have hmem := List.mem_of_getLast? hlast
        rw [hindices] at hpairwise hmem
        rcases List.mem_cons.1 hmem with rfl | hmem
        · exact Nat.le_refl _
        · exact Nat.le_of_lt ((List.pairwise_cons.1 hpairwise).1 last hmem)
      refine ⟨last, rfl, fun version => ?_⟩
      have hparsed := parseFrom_parsed hparse
      have hplain (l : List Atom) (hl : ∀ a ∈ l, a ∈ atoms) : (cat (l.map (·.regex))).plain = true := by
        refine plain_cat fun r hr => ?_
        obtain ⟨a, ha, rfl⟩ := List.mem_map.1 hr
        exact (hparsed a (hl a ha)).plain
      have htail : ∀ r ∈ coalesce (atoms.drop (last + 1)), r.plain = true :=
        plain_chunksFrom (fun _ _ hr => hr) (by simp) fun a ha => (hparsed a (List.mem_of_mem_drop ha)).plain
      have hspan : ∀ a ∈ (atoms.take (last + 1)).drop first, a ∈ atoms :=
        fun a ha => List.mem_of_mem_take (List.mem_of_mem_drop ha)
      have hfull := @fullMatch_isSome [cat ((atoms.take first).map (·.regex)),
        group "1".toList (cat (((atoms.take (last + 1)).drop first).map (·.regex))),
        nestedOptional (coalesce (atoms.drop (last + 1)))]
        (List.forall_mem_cons.2 ⟨hplain _ fun a ha => List.mem_of_mem_take ha,
          List.forall_mem_cons.2 ⟨hplain _ hspan, List.forall_mem_singleton.2 (plain_nestedOptional htail)⟩⟩) version
      refine hfull.trans ?_
      have htake : atoms.take first ++ (atoms.take (last + 1)).drop first = atoms.take (last + 1) := by
        have hmin : min first (last + 1) = first := by omega
        have hsame : (atoms.take (last + 1)).take first = atoms.take first := by rw [List.take_take, hmin]
        rw [← hsame, List.take_append_drop]
      have hcat : (cat [cat ((atoms.take first).map (·.regex)),
          group "1".toList (cat (((atoms.take (last + 1)).drop first).map (·.regex))),
          nestedOptional (coalesce (atoms.drop (last + 1)))]).language =
          textsOf (atoms.take (last + 1)) * (nestedOptional (coalesce (atoms.drop (last + 1)))).language := by
        have hparts := textsOf_append (atoms.take first) ((atoms.take (last + 1)).drop first)
        rw [htake] at hparts
        rw [hparts, ← language_cat_map, ← language_cat_map, mul_assoc]
        exact congrArg (_ * ·) (congrArg (_ * ·) (mul_one _))
      rw [hcat, Language.mem_mul]
      have hmem (w : Str) := @mem_firstChunks (fun _ regex => regex) (fun _ _ => rfl) [] (atoms.drop (last + 1)) w
      have hnil : (cat ([] : List Regex)).language = 1 := rfl
      simp only [hnil, one_mul, ne_eq, not_true_eq_false, false_or] at hmem
      constructor
      · rintro ⟨u, hu, v, hv, rfl⟩
        rcases mem_nestedOptional.1 hv with rfl | hv
        · exact ⟨[], _, rfl, .inl rfl, by rwa [List.append_nil, List.append_nil]⟩
        · obtain ⟨s, t, hst, hstops, hv⟩ := (hmem v).1 hv
          refine ⟨s, t, hst, .inr hstops, ?_⟩
          rw [textsOf_append]
          exact Language.append_mem_mul hu hv
      · rintro ⟨s, t, hst, hstops, hw⟩
        rw [textsOf_append, Language.mem_mul] at hw
        obtain ⟨u, hu, v, hv, rfl⟩ := hw
        refine ⟨u, hu, v, mem_nestedOptional.2 ?_, rfl⟩
        rcases hstops with rfl | hstops
        · rw [textsOf_nil, Language.mem_one] at hv
          exact .inl hv
        · exact .inr ((hmem v).2 ⟨s, t, hst, hstops, hv⟩)

/-! ### Formats that rank their cycles -/

/-- Every character is an ASCII character. -/
def IsAscii (s : Str) : Prop := ∀ c ∈ s, c.toNat < 128

/-- The atoms up to the end of the cycle span and those after it: the span ends with a field, nothing follows it, no
ASCII version has a cycle, or the serial comes before the end of the span with digits alone after it. -/
def RanksCycles (upTo after : List Atom) : Prop :=
  EndsWithField upTo ∨ after = [] ∨ (∃ a ∈ upTo, ∀ w ∈ a.regex.language, ¬ IsAscii w) ∨
    ∃ s a t, upTo = s ++ a :: t ∧ a.role = some .serial ∧ ∀ x ∈ t, ∀ w ∈ x.regex.language, IsDecimals w

private theorem endsWithField_append {s t : List Atom} (h : t ≠ []) : EndsWithField (s ++ t) ↔ EndsWithField t := by
  unfold EndsWithField
  rw [List.getLast?_append_of_ne_nil _ h]

/-- Atoms that match digits alone. -/
private theorem textsOf_digits {atoms : List Atom} (h : ∀ a ∈ atoms, ∀ w ∈ a.regex.language, IsDecimals w) {w : Str}
    (hw : w ∈ textsOf atoms) : IsDecimals w := by
  induction atoms generalizing w with
  | nil =>
    rw [textsOf_nil, Language.mem_one] at hw
    rw [hw]
    exact isDecimals_nil
  | cons a atoms ih =>
    obtain ⟨ha, hatoms⟩ := List.forall_mem_cons.1 h
    rw [textsOf_cons, Language.mem_mul] at hw
    obtain ⟨u, hu, v, hv, rfl⟩ := hw
    exact isDecimals_append.2 ⟨ha u hu, ih hatoms hv⟩

private theorem textsOf_ascii {atoms : List Atom} {a : Atom} (ha : a ∈ atoms) (h : ∀ w ∈ a.regex.language, ¬ IsAscii w)
    {w : Str} (hw : w ∈ textsOf atoms) : ¬ IsAscii w := by
  obtain ⟨s, t, rfl⟩ := List.append_of_mem ha
  rw [textsOf_append, textsOf_cons, Language.mem_mul] at hw
  obtain ⟨u, -, v, hv, rfl⟩ := hw
  obtain ⟨x, hx, y, -, rfl⟩ := Language.mem_mul.1 hv
  intro hascii
  exact h x hx fun c hc => hascii c (List.mem_append_right _ (List.mem_append_left _ hc))

/-- A version with a cycle that such a format has. -/
private theorem RanksCycles.ranked {upTo after : List Atom} (h : RanksCycles upTo after) (hempty : upTo ≠ [])
    (hparsed : ∀ a ∈ upTo, Parsed a) {version : Str} (hascii : IsAscii version) {s t : List Atom}
    (hst : s ++ t = after) (hstops : s = [] ∨ StopsAfter s t) (hversion : version ∈ textsOf (upTo ++ s)) :
    ∃ s' t', s' ++ t' = upTo ++ after ∧ StopsAfter s' t' ∧ version ∈ textsOf s' := by
  have hnonempty {l : List Atom} (hl : EndsWithField l) : l ≠ [] := by
    rintro rfl
    exact not_endsWithField_nil hl
  by_cases hs : s = []
  · subst hs
    rw [List.append_nil] at hversion
    rcases h with hends | hafter | ⟨a, ha, hnever⟩ | ⟨l, a, r, hupTo, hserial, hdigits⟩
    · exact ⟨upTo, after, rfl, .inl hends, hversion⟩
    · exact ⟨upTo, after, rfl, .inr ⟨hafter, hempty⟩, hversion⟩
    · exact absurd hascii (textsOf_ascii ha hnever hversion)
    · refine ⟨l ++ [a], r ++ after, by rw [hupTo]; simp, .inl ?_, ?_⟩
      · rw [endsWithField_append (List.cons_ne_nil a [])]
        exact endsWithField_singleton.2 (by simp [hserial])
      · -- the serial takes the digits that follow it as well
        have hregex := (hparsed a (by rw [hupTo]; simp)).serial hserial
        rw [hupTo, textsOf_append, textsOf_cons, hregex] at hversion
        obtain ⟨u, hu, v, hv, rfl⟩ := Language.mem_mul.1 hversion
        obtain ⟨x, hx, y, hy, rfl⟩ := Language.mem_mul.1 hv
        obtain ⟨hxdigits, hxne⟩ := mem_many1_decimal.1 hx
        rw [textsOf_append, textsOf_cons, textsOf_nil, mul_one, hregex]
        refine Language.append_mem_mul hu (mem_many1_decimal.2 ⟨?_, ?_⟩)
        · exact isDecimals_append.2 ⟨hxdigits, textsOf_digits hdigits hy⟩
        · exact List.append_ne_nil_of_left_ne_nil hxne y
  · have hstops' : StopsAfter s t := by
      rcases hstops with hnil | hstops
      · exact absurd hnil hs
      · exact hstops
    refine ⟨upTo ++ s, t, by rw [List.append_assoc, hst], ?_, hversion⟩
    rcases hstops' with hends | ⟨hend, -⟩
    · exact .inl ((endsWithField_append hs).2 hends)
    · exact .inr ⟨hend, List.append_ne_nil_of_right_ne_nil upTo hs⟩

/-! ### Versions without a rank -/

/-- A list up to the last element of a kind, and the others after it. -/
private theorem exists_split_last {α : Type} (p : α → Prop) (l : List α) : ∃ s t, l = s ++ t ∧ (∀ a ∈ t, p a) ∧
    (s = [] ∨ ∃ s' a, s = s' ++ [a] ∧ ¬ p a) := by
  induction l using List.reverseRecOn with
  | nil => exact ⟨[], [], rfl, by simp, .inl rfl⟩
  | append_singleton l a ih =>
    by_cases ha : p a
    · obtain ⟨s, t, rfl, ht, hs⟩ := ih
      refine ⟨s, t ++ [a], by rw [List.append_assoc], fun b hb => ?_, hs⟩
      rcases List.mem_append.1 hb with hb | hb
      · exact ht b hb
      · rwa [List.mem_singleton.1 hb]
    · exact ⟨l ++ [a], [], by rw [List.append_nil], by simp, .inr ⟨l, a, rfl, ha⟩⟩

/-- Every text that the atom matches is of digits. -/
def Digital (a : Atom) : Prop := ∀ w ∈ a.regex.language, IsDecimals w

private theorem Parsed.of_not_digital {a : Atom} (h : Parsed a) (ha : ¬ Digital a) :
    a.role = none ∧ ∃ c : Char, isDecimal c = false ∧ a.regex = one (· == c) := by
  rcases h with ⟨c, hregex, hrole⟩ | ⟨token, htoken, hregex, -⟩
  · refine ⟨hrole, c, ?_, hregex⟩
    by_contra hdigit
    apply ha
    intro w hw
    rw [hregex, mem_literal] at hw
    rw [hw]
    intro x hx
    rw [List.mem_singleton.1 hx]
    simpa using hdigit
  · exfalso
    apply ha
    intro w hw
    rw [hregex] at hw
    exact (token_digits htoken hw).1

section Counting

open Classical in
/-- The number of atoms that match something else than digits. -/
noncomputable def separators (atoms : List Atom) : Nat := atoms.countP fun a => decide (¬ Digital a)

/-- The number of characters that are no digits. -/
def nonDigits (s : Str) : Nat := s.countP fun c => !isDecimal c

private theorem separators_append (s t : List Atom) : separators (s ++ t) = separators s + separators t :=
  List.countP_append

private theorem nonDigits_append (s t : Str) : nonDigits (s ++ t) = nonDigits s + nonDigits t := List.countP_append

private theorem nonDigits_eq_zero {s : Str} : nonDigits s = 0 ↔ IsDecimals s := by
  simp [nonDigits, IsDecimals, List.countP_eq_zero]

/-- Separators are what the characters other than digits come from. -/
private theorem nonDigits_eq {atoms : List Atom} (h : ∀ a ∈ atoms, Parsed a) {w : Str} (hw : w ∈ textsOf atoms) :
    nonDigits w = separators atoms := by
  induction atoms generalizing w with
  | nil =>
    rw [textsOf_nil, Language.mem_one] at hw
    rw [hw]
    rfl
  | cons a atoms ih =>
    obtain ⟨ha, hatoms⟩ := List.forall_mem_cons.1 h
    rw [textsOf_cons, Language.mem_mul] at hw
    obtain ⟨u, hu, v, hv, rfl⟩ := hw
    have hfirst : nonDigits u = separators [a] := by
      by_cases hdigital : Digital a
      · rw [nonDigits_eq_zero.2 (hdigital u hu)]
        simp [separators, hdigital]
      · obtain ⟨-, c, hc, hregex⟩ := ha.of_not_digital hdigital
        rw [hregex, mem_literal] at hu
        rw [hu]
        simp [separators, nonDigits, hdigital, hc]
    have hcons := separators_append [a] atoms
    rw [List.singleton_append] at hcons
    rw [nonDigits_append, hfirst, ih hatoms hv, hcons]

end Counting

/-- The text is empty or ends with something else than a digit. -/
def EndsOpen (s : Str) : Prop := ∀ c ∈ s.getLast?, isDecimal c = false

/-- A text is split at its last character that is no digit in one way. -/
private theorem split_unique {x x' y y' : Str} (hx : EndsOpen x) (hx' : EndsOpen x') (hy : IsDecimals y)
    (hy' : IsDecimals y')
    (h : x ++ y = x' ++ y') : x = x' ∧ y = y' := by
  have hone {x x' y y' z : Str} (hx' : EndsOpen x') (hy : IsDecimals y) (hxz : x' = x ++ z) (hyz : y = z ++ y') :
      z = [] := by
    by_contra hne
    have hlast : x'.getLast? = some (z.getLast hne) := by
      rw [hxz, List.getLast?_append_of_ne_nil _ hne, List.getLast?_eq_some_getLast]
    have hopen := hx' _ hlast
    have hdigit := hy (z.getLast hne) (by rw [hyz]; exact List.mem_append_left _ (List.getLast_mem hne))
    rw [hdigit] at hopen
    cases hopen
  rcases List.append_eq_append_iff.1 h with ⟨z, hz, hz'⟩ | ⟨z, hz, hz'⟩
  · have hnil := hone hx' hy hz hz'
    subst hnil
    simp only [List.append_nil, List.nil_append] at hz hz'
    exact ⟨hz.symm, hz'⟩
  · have hnil := hone hx hy' hz hz'
    subst hnil
    simp only [List.append_nil, List.nil_append] at hz hz'
    exact ⟨hz, hz'.symm⟩

/-- Atoms that end with a separator match texts that end with it. -/
private theorem endsOpen_textsOf {s : List Atom} (hparsed : ∀ a ∈ s, Parsed a)
    (hs : s = [] ∨ ∃ s' a, s = s' ++ [a] ∧ ¬ Digital a) {w : Str} (hw : w ∈ textsOf s) : EndsOpen w := by
  rcases hs with rfl | ⟨s', a, rfl, ha⟩
  · rw [textsOf_nil, Language.mem_one] at hw
    rw [hw]
    intro c hc
    cases hc
  · obtain ⟨-, c, hc, hregex⟩ := (hparsed a (by simp)).of_not_digital ha
    rw [textsOf_append, textsOf_cons, textsOf_nil, mul_one, Language.mem_mul] at hw
    obtain ⟨u, -, v, hv, rfl⟩ := hw
    rw [hregex, mem_literal] at hv
    rw [hv]
    intro x hx
    rw [List.getLast?_concat] at hx
    rwa [← Option.some.inj hx]

/-! ### Widest texts -/

/-- A text of an atom, which is the only one of a literal and the widest one of a field, with one digit repeated. -/
def Widest (e : Char) (a : Atom) (w : Str) : Prop :=
  w ∈ a.regex.language ∧ (a.role = none → ∀ u ∈ a.regex.language, u = w) ∧
    ∀ role, a.role = some role → role ≠ .serial → ∃ n, w = List.replicate n e ∧ Spread a.regex (slackOf role) n

def widestTexts (e : Char) (a : Atom) : Language Char := {w | Widest e a w}

/-- The widest texts of atoms one after the other. -/
def wideOf (e : Char) (atoms : List Atom) : Language Char := (atoms.map (widestTexts e)).prod

variable {e : Char} {atoms : List Atom} {u w : Str}

private theorem wideOf_nil (e : Char) : wideOf e [] = 1 := rfl

private theorem mem_wideOf_cons {a : Atom} :
    w ∈ wideOf e (a :: atoms) ↔ ∃ u, Widest e a u ∧ ∃ v ∈ wideOf e atoms, u ++ v = w := by
  rw [wideOf, List.map_cons, List.prod_cons]
  exact Language.mem_mul

private theorem wideOf_append (s t : List Atom) : wideOf e (s ++ t) = wideOf e s * wideOf e t := by
  simp [wideOf]

private theorem isAscii_replicate (n : Nat) (h : e.toNat < 128) : IsAscii (List.replicate n e) := by
  intro c hc
  rwa [List.eq_of_mem_replicate hc]

private theorem exists_widest {a : Atom} (h : Parsed a) (he : isDecimal e = true) (hsmall : e.toNat < 128)
    (hascii : ∃ u ∈ a.regex.language, IsAscii u) : ∃ w, Widest e a w ∧ IsAscii w := by
  rcases h with ⟨c, hregex, hrole⟩ | ⟨token, htoken, hregex, hrole⟩
  · obtain ⟨u, hu, hu'⟩ := hascii
    refine ⟨u, ⟨hu, fun _ v hv => ?_, fun role hsome => ?_⟩, hu'⟩
    · rw [hregex, mem_literal] at hu hv
      rw [hu, hv]
    · rw [hrole] at hsome
      cases hsome
  · by_cases hserial : token.role = .serial
    · have hdigits : IsDecimals [e] := isDecimals_cons.2 ⟨he, isDecimals_nil⟩
      refine ⟨[e], ⟨?_, fun hnone => ?_, fun role hsome hne => ?_⟩, isAscii_replicate 1 hsmall⟩
      · rw [hregex, token_serial htoken hserial]
        exact mem_many1_decimal.2 ⟨hdigits, List.cons_ne_nil e []⟩
      · rw [hrole] at hnone
        cases hnone
      · rw [hrole] at hsome
        exact absurd ((Option.some.inj hsome).symm.trans hserial) hne
    · obtain ⟨widest, hspread⟩ := token_spread htoken hserial
      have hmem := hspread.replicate_mem e he
      refine ⟨List.replicate widest e, ⟨by rwa [hregex], fun hnone => ?_, fun role hsome _ => ⟨widest, rfl, ?_⟩⟩,
        isAscii_replicate widest hsmall⟩
      · rw [hrole] at hnone
        cases hnone
      · rw [hrole] at hsome
        rwa [hregex, ← Option.some.inj hsome]

private theorem exists_wideOf (h : ∀ a ∈ atoms, Parsed a) (he : isDecimal e = true) (hsmall : e.toNat < 128)
    (hascii : ∀ a ∈ atoms, ∃ u ∈ a.regex.language, IsAscii u) : ∃ w ∈ wideOf e atoms, IsAscii w := by
  induction atoms with
  | nil => exact ⟨[], Language.nil_mem_one, by simp [IsAscii]⟩
  | cons a atoms ih =>
    obtain ⟨ha, hatoms⟩ := List.forall_mem_cons.1 h
    obtain ⟨ha', hascii⟩ := List.forall_mem_cons.1 hascii
    obtain ⟨u, hu, hu'⟩ := exists_widest ha he hsmall ha'
    obtain ⟨v, hv, hv'⟩ := ih hatoms hascii
    refine ⟨u ++ v, mem_wideOf_cons.2 ⟨u, hu, v, hv, rfl⟩, fun c hc => ?_⟩
    rcases List.mem_append.1 hc with hc | hc
    · exact hu' c hc
    · exact hv' c hc

private theorem wideOf_le (h : w ∈ wideOf e atoms) : w ∈ textsOf atoms := by
  induction atoms generalizing w with
  | nil => exact h
  | cons a atoms ih =>
    obtain ⟨u, hu, v, hv, rfl⟩ := mem_wideOf_cons.1 h
    rw [textsOf_cons]
    exact Language.append_mem_mul hu.1 (ih hv)

/-- Literals match one text. -/
private theorem wideOf_literals (h : ∀ a ∈ atoms, a.role = none) (hw : w ∈ wideOf e atoms) (hu : u ∈ textsOf atoms) :
    u = w := by
  induction atoms generalizing u w with
  | nil =>
    rw [wideOf_nil, Language.mem_one] at hw
    rw [textsOf_nil, Language.mem_one] at hu
    rw [hu, hw]
  | cons a atoms ih =>
    obtain ⟨ha, hatoms⟩ := List.forall_mem_cons.1 h
    obtain ⟨x, hx, y, hy, rfl⟩ := mem_wideOf_cons.1 hw
    rw [textsOf_cons, Language.mem_mul] at hu
    obtain ⟨x', hx', y', hy', rfl⟩ := hu
    rw [hx.2.1 ha x' hx', ih hatoms hy hy']

/-- How much shorter than the widest text of the fields another one can be. -/
def slack (atoms : List Atom) : Nat := (atoms.map fun a => (a.role.map slackOf).getD 0).sum

/-- Without a serial no text is longer than the widest one, or much shorter. -/
private theorem length_wideOf (h : ∀ a ∈ atoms, a.role ≠ some .serial) (hw : w ∈ wideOf e atoms)
    (hu : u ∈ textsOf atoms) :
    u.length ≤ w.length ∧ w.length ≤ u.length + slack atoms := by
  induction atoms generalizing u w with
  | nil =>
    rw [wideOf_nil, Language.mem_one] at hw
    rw [hw, textsOf_nil, Language.mem_one] at *
    rw [hu]
    exact ⟨Nat.le_refl 0, Nat.zero_le _⟩
  | cons a atoms ih =>
    obtain ⟨ha, hatoms⟩ := List.forall_mem_cons.1 h
    obtain ⟨x, ⟨-, hliteral, hfield⟩, y, hy, rfl⟩ := mem_wideOf_cons.1 hw
    rw [textsOf_cons, Language.mem_mul] at hu
    obtain ⟨x', hx', y', hy', rfl⟩ := hu
    have hrest := ih hatoms hy hy'
    have hfirst : x'.length ≤ x.length ∧ x.length ≤ x'.length + (a.role.map slackOf).getD 0 := by
      cases hrole : a.role with
      | none =>
        rw [hliteral hrole x' hx']
        exact ⟨Nat.le_refl _, Nat.le_add_right _ _⟩
      | some role =>
        have hne : role ≠ .serial := by
          rintro rfl
          exact ha hrole
        obtain ⟨n, rfl, hspread⟩ := hfield role hrole hne
        rw [List.length_replicate]
        exact ⟨hspread.length_le x' hx', hspread.le_length x' hx'⟩
    have hslack : slack (a :: atoms) = (a.role.map slackOf).getD 0 + slack atoms := by
      simp [slack]
    rw [List.length_append, List.length_append, hslack]
    omega

private theorem textsOf_eq_nil (h : ∀ a ∈ atoms, Parsed a) (hnil : [] ∈ textsOf atoms) : atoms = [] := by
  cases atoms with
  | nil => rfl
  | cons a atoms =>
    rw [textsOf_cons, Language.mem_mul] at hnil
    obtain ⟨x, hx, y, -, hxy⟩ := hnil
    exact absurd (List.append_eq_nil_iff.1 hxy).1 ((h a List.mem_cons_self).ne_nil hx)

/-- Where no field is repeated, a month and a day can be shorter. -/
private theorem slack_le (h : (atoms.filterMap Atom.role).Nodup) : slack atoms ≤ 2 := by
  have hcount : ∀ l : List Atom, slack l =
      (l.filterMap Atom.role).count .month + (l.filterMap Atom.role).count .day := by
    intro l
    induction l with
    | nil => rfl
    | cons a l ih =>
      have hcons : slack (a :: l) = (a.role.map slackOf).getD 0 + slack l := by simp [slack]
      rw [hcons, ih]
      cases hrole : a.role with
      | none =>
        rw [List.filterMap_cons_none hrole]
        exact Nat.zero_add _
      | some role =>
        rw [List.filterMap_cons_some hrole, List.count_cons, List.count_cons]
        cases role with
        | year | serial => simp [slackOf]
        | month | day =>
          simp [slackOf]
          omega
  have hmonth := List.nodup_iff_count_le_one.1 h .month
  have hday := List.nodup_iff_count_le_one.1 h .day
  rw [hcount]
  omega

/-! ### Versions that end with the span -/

/-- The atoms up to the end of the span: what comes up to the last separator that is no digit, the rest up to its last
field, and the literals after that field. -/
structure Parts (upTo before fields literals : List Atom) : Prop where
  upTo_eq : upTo = before ++ (fields ++ literals)
  before_end : before = [] ∨ ∃ s a, before = s ++ [a] ∧ ¬ Digital a
  digital : ∀ a ∈ fields ++ literals, Digital a
  fields_end : fields = [] ∨ EndsWithField fields
  literals_role : ∀ a ∈ literals, a.role = none

private theorem exists_parts (upTo : List Atom) : ∃ before fields literals, Parts upTo before fields literals := by
  obtain ⟨before, rest, hupTo, hdigital, hbefore⟩ := exists_split_last Digital upTo
  obtain ⟨fields, literals, rfl, hliterals, hfields⟩ := exists_split_last (fun a : Atom => a.role = none) rest
  refine ⟨before, fields, literals, hupTo, hbefore, hdigital, ?_, hliterals⟩
  rcases hfields with hnil | ⟨s, a, rfl, ha⟩
  · exact .inl hnil
  · exact .inr ((endsWithField_append (List.cons_ne_nil a [])).2 (endsWithField_singleton.2 ha))

section

variable {upTo after before fields literals s t : List Atom} (hparts : Parts upTo before fields literals)
  (hparsed : ∀ a ∈ upTo ++ after, Parsed a) (hends : ¬ EndsWithField upTo)

include hparts in
private theorem Parts.fields_nil (hends : ¬ EndsWithField upTo) (hliterals : literals = []) : fields = [] := by
  by_contra hne
  rcases hparts.fields_end with hnil | hfield
  · exact hne hnil
  · rw [hparts.upTo_eq, hliterals, List.append_nil, endsWithField_append hne] at hends
    exact hends hfield

include hparts hparsed

private theorem Parts.not_endsWithField_before : ¬ EndsWithField before := by
  rcases hparts.before_end with rfl | ⟨r, a, rfl, ha⟩
  · exact not_endsWithField_nil
  · rw [endsWithField_append (List.cons_ne_nil a []), endsWithField_singleton, not_not]
    refine ((hparsed a ?_).of_not_digital ha).1
    rw [hparts.upTo_eq]
    simp

/-- What matches such a version begins with what comes up to the last separator that is no digit. -/
theorem Parts.begins {w : Str} (hw : w ∈ textsOf upTo) (hs : w ∈ textsOf s) (hst : s ++ t = upTo ++ after) :
    ∃ rest, s = before ++ rest ∧ rest ++ t = (fields ++ literals) ++ after ∧ ∀ a ∈ rest, Digital a := by
  have hparsed' : ∀ a ∈ s ++ t, Parsed a := by rwa [hst]
  have hcount : separators s = separators before := by
    have hzero : separators (fields ++ literals) = 0 := by
      rw [separators, List.countP_eq_zero]
      intro a ha
      simpa using hparts.digital a ha
    have hs' := nonDigits_eq (fun a ha => hparsed' a (List.mem_append_left _ ha)) hs
    have hupTo := nonDigits_eq (fun a ha => hparsed a (List.mem_append_left _ ha)) hw
    rw [hparts.upTo_eq, separators_append, hzero] at hupTo
    omega
  rw [hparts.upTo_eq, List.append_assoc] at hst
  rcases List.append_eq_append_iff.1 hst with ⟨x, hx, hx'⟩ | ⟨x, hx, hx'⟩
  · -- the last separator would be missing
    have hnil : x = [] := by
      by_contra hne
      rcases hparts.before_end with rfl | ⟨r, a, hbefore, ha⟩
      · exact hne (List.append_eq_nil_iff.1 hx.symm).2
      · obtain ⟨x', b, rfl⟩ : ∃ x' b, x = x' ++ [b] :=
          ⟨x.dropLast, x.getLast hne, (List.dropLast_append_getLast hne).symm⟩
        rw [hbefore, ← List.append_assoc] at hx
        obtain ⟨-, hlast⟩ := List.append_inj' hx rfl
        obtain rfl : a = b := by simpa using hlast
        have hone : separators [a] = 1 := by simp [separators, ha]
        have hsum := congrArg separators hbefore
        rw [hx, separators_append, separators_append, hone] at hsum
        rw [hbefore, hx, separators_append, separators_append, hone] at hcount
        omega
    subst hnil
    exact ⟨[], by simpa using hx.symm, by simpa using hx', by simp⟩
  · refine ⟨x, hx, hx'.symm, ?_⟩
    rw [hx, separators_append] at hcount
    have hzero : separators x = 0 := by omega
    rw [separators, List.countP_eq_zero] at hzero
    intro a ha
    simpa using hzero a ha

/-- Narrower fields would put the first literal in the place of a digit of the last field. -/
private theorem Parts.no_shift {e : Char} {b b' l m : Str} (hserial : ∀ a ∈ fields, a.role ≠ some .serial)
    (hnodup : (upTo.filterMap Atom.role).Nodup) (hends : ¬ EndsWithField upTo)
    (hfirst : ∀ a ∈ literals.head?, [e] ∉ a.regex.language) (hb : b ∈ wideOf e fields) (hb' : b' ∈ textsOf fields)
    (hl : l ∈ wideOf e literals) (hm : m ≠ []) : (b' ++ l) ++ m ≠ b ++ l := by
  intro hsplit
  have hsum := congrArg List.length hsplit
  simp only [List.length_append] at hsum
  have hmpos := List.length_pos_iff.2 hm
  rcases hparts.fields_end with hnil | ⟨f, hf, hrole⟩
  · rw [hnil, wideOf_nil, Language.mem_one] at hb
    rw [hb, List.length_nil] at hsum
    omega
  · obtain ⟨before', rfl⟩ := List.getLast?_eq_some_iff.1 hf
    -- the last field is at least as wide as the others together can be narrower
    have hslack := (length_wideOf hserial hb hb').2
    have hsublist : (before' ++ [f]).Sublist upTo := by
      rw [hparts.upTo_eq]
      exact (List.sublist_append_left _ literals).trans (List.sublist_append_right before _)
    have hslack2 := slack_le (hnodup.sublist (hsublist.filterMap Atom.role))
    rw [wideOf_append, Language.mem_mul] at hb
    obtain ⟨b₀, -, b₁, hb₁, rfl⟩ := hb
    obtain ⟨b₂, hb₂, b₃, hb₃, rfl⟩ := mem_wideOf_cons.1 hb₁
    rw [wideOf_nil, Language.mem_one] at hb₃
    subst hb₃
    obtain ⟨role, hsome⟩ := Option.ne_none_iff_exists'.1 hrole
    have hne : role ≠ .serial := by
      rintro rfl
      exact hserial f (by simp) hsome
    obtain ⟨n, rfl, hspread⟩ := hb₂.2.2 role hsome hne
    have hwide := hspread.widest_ge
    cases hliterals : literals with
    | nil =>
      have hfields := hparts.fields_nil hends hliterals
      simp at hfields
    | cons a rest =>
      rw [hliterals] at hl hfirst
      obtain ⟨x, hx, y, -, rfl⟩ := mem_wideOf_cons.1 hl
      have ha : a ∈ literals := by rw [hliterals]; exact List.mem_cons_self
      have hxne : x ≠ [] := by
        refine (hparsed a ?_).ne_nil hx.1
        rw [hparts.upTo_eq]
        simp [ha]
      obtain ⟨c, x', rfl⟩ := List.exists_cons_of_ne_nil hxne
      rw [List.append_nil] at hsplit
      simp only [List.append_nil, List.length_append, List.length_replicate] at hsum hslack
      have hleft : ((b' ++ (c :: x' ++ y)) ++ m)[b'.length]? = some c := by simp
      have hright : ((b₀ ++ List.replicate n e) ++ (c :: x' ++ y))[b'.length]? = some e := by
        rw [List.append_assoc, List.getElem?_append_right (by omega),
          List.getElem?_append_left (by rw [List.length_replicate]; omega), List.getElem?_replicate, if_pos (by omega)]
      have hc : c = e := by
        rw [hsplit, hright] at hleft
        exact (Option.some.inj hleft).symm
      have hliteral : Parsed a ∧ a.role = none := by
        refine ⟨hparsed a ?_, hparts.literals_role a ha⟩
        rw [hparts.upTo_eq]
        simp [ha]
      rcases hliteral.1 with ⟨d, hregex, -⟩ | ⟨token, -, -, htoken⟩
      · have hxd := hx.1
        rw [hregex, mem_literal] at hxd
        apply hfirst a rfl
        rw [← hc, hregex, mem_literal]
        exact congrArg (fun z => [z]) (List.cons.inj hxd).1
      · rw [hliteral.2] at htoken
        cases htoken

/-- What is left of the version is matched by the fields, the literals and something after them, or by less. -/
theorem Parts.unmatched {e : Char} {w : Str} (hserial : ∀ a ∈ fields, a.role ≠ some .serial)
    (hnodup : (upTo.filterMap Atom.role).Nodup) (hends : ¬ EndsWithField upTo) (hafter : after ≠ [])
    (hfirst : ∀ a ∈ literals.head?, [e] ∉ a.regex.language) (hw : w ∈ wideOf e upTo) (hst : s ++ t = upTo ++ after)
    (hstops : StopsAfter s t) : w ∉ textsOf s := by
  intro hs
  obtain ⟨rest, rfl, hrest, hrestDigital⟩ := hparts.begins hparsed (wideOf_le hw) hs hst
  have hbefore := hparts.not_endsWithField_before hparsed
  have hmem {a : Atom} (ha : a ∈ rest) : Parsed a := by
    refine hparsed a ?_
    rw [← hst]
    simp [ha]
  -- the version after the last separator that is no digit
  have hwide := hw
  rw [hparts.upTo_eq, wideOf_append, wideOf_append, Language.mem_mul] at hwide
  obtain ⟨x, hx, y, hy, rfl⟩ := hwide
  obtain ⟨b, hb, l, hl, rfl⟩ := Language.mem_mul.1 hy
  rw [textsOf_append, Language.mem_mul] at hs
  obtain ⟨x', hx', r, hr, hsplit⟩ := hs
  have hparsedBefore : ∀ a ∈ before, Parsed a := by
    intro a ha
    refine hparsed a ?_
    rw [hparts.upTo_eq]
    simp [ha]
  have hparsedLiterals : ∀ a ∈ literals, Parsed a := by
    intro a ha
    refine hparsed a ?_
    rw [hparts.upTo_eq]
    simp [ha]
  have hdigits : IsDecimals (b ++ l) := by
    refine textsOf_digits hparts.digital ?_
    rw [textsOf_append]
    exact Language.append_mem_mul (wideOf_le hb) (wideOf_le hl)
  obtain ⟨-, rfl⟩ := split_unique (endsOpen_textsOf hparsedBefore hparts.before_end hx')
    (endsOpen_textsOf hparsedBefore hparts.before_end (wideOf_le hx)) (textsOf_digits hrestDigital hr) hdigits hsplit
  have hstop : t ≠ [] → EndsWithField (before ++ rest) := by
    intro hne
    rcases hstops with hends | ⟨hnil, -⟩
    · exact hends
    · exact absurd hnil hne
  rcases List.append_eq_append_iff.1 hrest with ⟨missing, hmissing, ht⟩ | ⟨more, hmore, hafter'⟩
  · -- the version would be longer than what the fields match
    have hfield := hstop (by rw [ht]; exact List.append_ne_nil_of_right_ne_nil missing hafter)
    have hne : rest ≠ [] := by
      rintro rfl
      rw [List.append_nil] at hfield
      exact hbefore hfield
    rw [endsWithField_append hne] at hfield
    obtain ⟨others, hothers⟩ : ∃ others, fields = rest ++ others := by
      rcases List.append_eq_append_iff.1 hmissing with ⟨z, hz, hz'⟩ | ⟨z, hz, -⟩
      · by_cases hnil : z = []
        · exact ⟨[], by rw [hz, hnil, List.append_nil, List.append_nil]⟩
        · rw [hz, endsWithField_append hnil] at hfield
          obtain ⟨a, ha, hrole⟩ := hfield
          have hliteral : a ∈ literals := by
            rw [hz']
            exact List.mem_append_left _ (List.mem_of_getLast? ha)
          exact absurd (hparts.literals_role a hliteral) hrole
      · exact ⟨z, hz⟩
    rw [hothers, wideOf_append, Language.mem_mul] at hb
    obtain ⟨b₁, hb₁, b₂, -, rfl⟩ := hb
    have hlength := (length_wideOf (fun a ha => hserial a (by rw [hothers]; simp [ha])) hb₁ hr).1
    have hlnil : l = [] := by
      rw [List.length_append, List.length_append] at hlength
      exact List.length_eq_zero_iff.1 (by omega)
    have hliterals : literals = [] := textsOf_eq_nil hparsedLiterals (by rw [← hlnil]; exact wideOf_le hl)
    have hnil := hparts.fields_nil hends hliterals
    rw [hothers] at hnil
    exact hne (List.append_eq_nil_iff.1 hnil).1
  · by_cases hmoreNil : more = []
    · rw [hmoreNil, List.append_nil] at hmore
      rw [hmore, ← hparts.upTo_eq] at hstop
      refine hends (hstop ?_)
      rintro rfl
      rw [hmoreNil] at hafter'
      exact hafter hafter'
    · rw [hmore, textsOf_append, textsOf_append, Language.mem_mul] at hr
      obtain ⟨r₁, hr₁, m, hm, hsplit'⟩ := hr
      obtain ⟨b', hb', l', hl', rfl⟩ := Language.mem_mul.1 hr₁
      obtain rfl := wideOf_literals hparts.literals_role hl hl'
      have hmne : m ≠ [] := by
        rintro rfl
        exact hmoreNil (textsOf_eq_nil (fun a ha => hmem (by rw [hmore]; simp [ha])) hm)
      exact hparts.no_shift hparsed hserial hnodup hends hfirst hb hb' hl hmne hsplit'

end

/-! ### Formats and their cycles -/

variable {dateFormat : Str}

/-- What an accepted format is. -/
theorem validate_eq_ok (h : validate dateFormat = .ok ()) : ∃ atoms pattern, parse dateFormat = .ok atoms ∧
    orderRegex dateFormat = .ok pattern ∧ (atoms.filterMap (·.role)).Nodup := by
  rw [validate] at h
  obtain ⟨-, h⟩ := raiseIf_bind_eq_ok.1 h
  obtain ⟨atoms, hparse, h⟩ := bind_eq_ok h
  obtain ⟨-, h⟩ := raiseIf_bind_eq_ok.1 h
  obtain ⟨hroles, h⟩ := raiseIf_bind_eq_ok.1 h
  obtain ⟨pattern, horder, -⟩ := bind_eq_ok h
  refine ⟨atoms, pattern, hparse, horder, ?_⟩
  have hlength := (not_not.1 hroles).symm
  exact List.dedup_eq_self.1 ((List.dedup_sublist _).eq_of_length hlength)

/-- A version has no rank if the pattern does not match it. -/
private theorem orderKey_eq_none {pattern : Regex} (horder : orderRegex dateFormat = .ok pattern) {version : Str} :
    orderKey dateFormat version = .ok none ↔ ¬ (fullMatch pattern version).isSome := by
  rw [orderKey, horder, ok_bind]
  cases hmatch : fullMatch pattern version with
  | none => simp [pure, Except.pure]
  | some m =>
    simp only [Option.isSome_some, not_true_eq_false, iff_false]
    intro h
    obtain ⟨year, -, h⟩ := bind_eq_ok h
    obtain ⟨month, -, h⟩ := bind_eq_ok h
    obtain ⟨day, -, h⟩ := bind_eq_ok h
    obtain ⟨serial, -, h⟩ := bind_eq_ok h
    cases Except.ok.inj h

/-- A digit that the first literal does not match. -/
private theorem exists_other_digit {literals : List Atom} (hparsed : ∀ a ∈ literals, Parsed a)
    (hliterals : ∀ a ∈ literals, a.role = none) :
    ∃ e : Char, isDecimal e = true ∧ e.toNat < 128 ∧ ∀ a ∈ literals.head?, [e] ∉ a.regex.language := by
  cases literals with
  | nil => exact ⟨'0', by decide, by decide, by simp⟩
  | cons a literals =>
    rcases hparsed a List.mem_cons_self with ⟨c, hregex, -⟩ | ⟨token, -, -, hrole⟩
    · have hmem (e : Char) (he : e ≠ c) : ∀ b ∈ (a :: literals).head?, [e] ∉ b.regex.language := by
        intro b hb
        obtain rfl := Option.some.inj hb
        rw [hregex, mem_literal]
        intro hc
        exact he (List.cons.inj hc).1
      by_cases hc : c = '0'
      · exact ⟨'1', by decide, by decide, hmem '1' (by rw [hc]; decide)⟩
      · exact ⟨'0', by decide, by decide, hmem '0' fun h => hc h.symm⟩
    · rw [hliterals a List.mem_cons_self] at hrole
      cases hrole

/-- A format that does not rank its cycles has a version that ends with the span and has no rank. -/
private theorem exists_unranked {upTo after : List Atom} (hparsed : ∀ a ∈ upTo ++ after, Parsed a)
    (hnodup : (upTo.filterMap Atom.role).Nodup) (h : ¬ RanksCycles upTo after) : ∃ version, IsAscii version ∧
      version ∈ textsOf upTo ∧ ∀ s t, s ++ t = upTo ++ after → StopsAfter s t → version ∉ textsOf s := by
  obtain ⟨hends, hafter, hascii, hserial⟩ : ¬ EndsWithField upTo ∧ after ≠ [] ∧
      (¬ ∃ a ∈ upTo, ∀ w ∈ a.regex.language, ¬ IsAscii w) ∧ ¬ ∃ s a t, upTo = s ++ a :: t ∧ a.role = some .serial ∧
        ∀ x ∈ t, ∀ w ∈ x.regex.language, IsDecimals w := by
    simpa only [RanksCycles, not_or] using h
  obtain ⟨before, fields, literals, hparts⟩ := exists_parts upTo
  have hmem : ∀ a ∈ literals, Parsed a := by
    intro a ha
    apply hparsed
    rw [hparts.upTo_eq]
    simp [ha]
  obtain ⟨e, he, hsmall, hfirst⟩ := exists_other_digit hmem hparts.literals_role
  -- a serial among the last fields would take the literals after it as well
  have hfields : ∀ a ∈ fields, a.role ≠ some .serial := by
    intro a ha hrole
    obtain ⟨l, r, rfl⟩ := List.append_of_mem ha
    refine hserial ⟨before ++ l, a, r ++ literals, ?_, hrole, fun x hx => ?_⟩
    · rw [hparts.upTo_eq]
      simp
    · refine hparts.digital x ?_
      rcases List.mem_append.1 hx with hx | hx <;> simp [hx]
  have hwords : ∀ a ∈ upTo, ∃ w ∈ a.regex.language, IsAscii w := by
    intro a ha
    by_contra hnone
    exact hascii ⟨a, ha, fun w hw hw' => hnone ⟨w, hw, hw'⟩⟩
  obtain ⟨version, hwide, hversion⟩ :=
    exists_wideOf (fun a ha => hparsed a (List.mem_append_left after ha)) he hsmall hwords
  refine ⟨version, hversion, wideOf_le hwide, fun s t hst hstops => ?_⟩
  exact hparts.unmatched hparsed hfields hnodup hends hafter hfirst hwide hst hstops

/-- Every ASCII version with a cycle has a rank exactly if the format ranks its cycles. -/
theorem cycles_rank_iff {pattern : Regex} (hvalid : validate dateFormat = .ok ())
    (hcycle : cycleRegex dateFormat = .ok (some pattern)) :
    (∀ version, IsAscii version → (fullMatch pattern version).isSome → orderKey dateFormat version ≠ .ok none) ↔
      ∃ atoms last, parse dateFormat = .ok atoms ∧ (atoms.findIdxs (·.inCycle)).getLast? = some last ∧
        RanksCycles (atoms.take (last + 1)) (atoms.drop (last + 1)) := by
  obtain ⟨atoms, order, hparse, horder, hnodup⟩ := validate_eq_ok hvalid
  obtain ⟨last, hlast, hmatches⟩ := cycle_iff hparse hcycle
  have hsplit : atoms.take (last + 1) ++ atoms.drop (last + 1) = atoms := List.take_append_drop _ _
  have hparsed := parseFrom_parsed hparse
  have hranked (version : Str) : orderKey dateFormat version ≠ .ok none ↔
      ∃ s t, s ++ t = atoms ∧ StopsAfter s t ∧ version ∈ textsOf s := by
    rw [ne_eq, orderKey_eq_none horder, not_not, ordered_iff hparse horder]
  constructor
  · intro h
    refine ⟨atoms, last, hparse, hlast, ?_⟩
    by_contra hnot
    have hnodup' : ((atoms.take (last + 1)).filterMap Atom.role).Nodup :=
      hnodup.sublist ((List.take_sublist _ _).filterMap _)
    obtain ⟨version, hascii, hversion, hnone⟩ := exists_unranked (by rwa [hsplit]) hnodup' hnot
    have hmatch := (hmatches version).2 ⟨[], _, rfl, .inl rfl, by rwa [List.append_nil]⟩
    obtain ⟨s, t, hst, hstops, hs⟩ := (hranked version).1 (h version hascii hmatch)
    exact hnone s t (by rw [hst, hsplit]) hstops hs
  · rintro ⟨atoms', last', hparse', hlast', hranks⟩ version hascii hmatch
    obtain rfl := Except.ok.inj (hparse.symm.trans hparse')
    obtain rfl := Option.some.inj (hlast.symm.trans hlast')
    obtain ⟨s, t, hst, hstops, hs⟩ := (hmatches version).1 hmatch
    have hne : atoms.take (last + 1) ≠ [] := by
      intro hnil
      rcases List.take_eq_nil_iff.1 hnil with hzero | rfl
      · cases hzero
      · cases hlast
    have hupTo : ∀ a ∈ atoms.take (last + 1), Parsed a := fun a ha => hparsed a (List.mem_of_mem_take ha)
    obtain ⟨s', t', hst', hstops', hs'⟩ := hranks.ranked hne hupTo hascii hst hstops hs
    exact (hranked version).2 ⟨s', t', by rw [hst', hsplit], hstops', hs'⟩

/-- In a format whose span ends with the month, every version with a cycle has a rank. -/
theorem cycles_rank_year_month : ∃ pattern, cycleRegex "(YY.MM).N".toList = .ok (some pattern) ∧
    ∀ version, IsAscii version → (fullMatch pattern version).isSome →
      orderKey "(YY.MM).N".toList version ≠ .ok none := by
  obtain ⟨pattern, hcycle⟩ : ∃ pattern, cycleRegex "(YY.MM).N".toList = .ok (some pattern) := ⟨_, rfl⟩
  obtain ⟨atoms, hparse, hlast, hends⟩ : ∃ atoms, parse "(YY.MM).N".toList = .ok atoms ∧
      (atoms.findIdxs (·.inCycle)).getLast? = some 2 ∧ EndsWithField (atoms.take 3) :=
    ⟨_, rfl, rfl, _, rfl, by decide⟩
  exact ⟨pattern, hcycle, (cycles_rank_iff (by decide +kernel) hcycle).2 ⟨atoms, 2, hparse, hlast, .inl hends⟩⟩

/-- A span that ends with a separator gives a cycle to a version that has no rank. -/
theorem cycle_without_rank : ¬ ∀ dateFormat pattern version, validate dateFormat = .ok () →
    cycleRegex dateFormat = .ok (some pattern) → IsAscii version → (fullMatch pattern version).isSome →
      orderKey dateFormat version ≠ .ok none := by
  intro h
  obtain ⟨pattern, hcycle, hmatch⟩ : ∃ pattern, cycleRegex "(YYYYr)N".toList = .ok (some pattern) ∧
      (fullMatch pattern "2024r".toList).isSome = true := ⟨_, rfl, by decide +kernel⟩
  have hrank : orderKey "(YYYYr)N".toList "2024r".toList = .ok none := by decide +kernel
  exact h _ pattern _ (by decide +kernel) hcycle (by simp [IsAscii]) hmatch hrank

end Calver

end TrustedReleases
