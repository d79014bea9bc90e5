import Mathlib
import TrustedReleases.Lib.Search

/-!
# Languages of regular expressions

A regular expression without assertions matches the texts of a language, whatever stands before the place and whatever
groups there are (`exists_mem_run_iff`).  An expression between the two ends of a text matches the whole text exactly if
the text is in its language (`fullMatch_isSome`).
-/

namespace Lib

namespace Regex

/-- `re.fullmatch`: the first way that takes the whole text. -/
def fullMatch (r : Regex) (text : Str) : Option Match :=
  ((run r ⟨[], text, fun _ => none⟩).find? fun c => decide (c.rest = [])).map (⟨0, ·⟩)

/-- Expressions without assertions. -/
def plain : Regex → Bool
  | empty => true
  | one _ => true
  | seq a b => plain a && plain b
  | alt a b => plain a && plain b
  | star _ a => plain a
  | group _ a => plain a
  | _ => false

/-- The texts that a plain expression matches. -/
def language : Regex → Language Char
  | empty => 1
  | one p => {w | ∃ x, p x = true ∧ w = [x]}
  | seq a b => language a * language b
  | alt a b => language a + language b
  | star _ a => KStar.kstar (language a)
  | group _ a => language a
  | _ => 0

private theorem language_empty : empty.language = 1 := rfl

private theorem language_star (greedy : Bool) (a : Regex) : (star greedy a).language = KStar.kstar a.language := rfl

private theorem language_group (name : Str) (a : Regex) : (group name a).language = a.language := rfl

theorem mem_language_one {p : Char → Bool} {w : Str} : w ∈ (one p).language ↔ ∃ x, p x = true ∧ w = [x] := Iff.rfl

/-- From every place, the ways of a step take the texts of the language. -/
def StepsIn (step : Cursor → List Cursor) (l : Language Char) : Prop :=
  ∀ c rest, (∃ c' ∈ step c, c'.rest = rest) ↔ ∃ w ∈ l, c.rest = w ++ rest

variable {a r : Regex} {step : Cursor → List Cursor} {l : Language Char}

/-! ### Repetitions -/

private theorem mem_iterate_succ {greedy : Bool} {n : Nat} {c c' : Cursor} : c' ∈ iterate step greedy (n + 1) c ↔
    c' = c ∨ ∃ c₁ ∈ step c, c₁.rest.length < c.rest.length ∧ c' ∈ iterate step greedy n c₁ := by
  have hmore : c' ∈ ((step c).filter fun c' => c'.rest.length < c.rest.length).flatMap (iterate step greedy n) ↔
      ∃ c₁ ∈ step c, c₁.rest.length < c.rest.length ∧ c' ∈ iterate step greedy n c₁ := by
    simp only [List.mem_flatMap, List.mem_filter, decide_eq_true_eq, and_assoc]
  rw [← hmore]
  cases greedy with
  | true =>
    rw [iterate, if_pos rfl, List.mem_append, List.mem_singleton]
    exact or_comm
  | false =>
    rw [iterate, if_neg Bool.false_ne_true]
    exact List.mem_cons

private theorem exists_mem_iterate {greedy : Bool} {n : Nat} {c : Cursor} {rest : Str} (hstep : StepsIn step l)
    (hn : c.rest.length ≤ n) :
    (∃ c' ∈ iterate step greedy n c, c'.rest = rest) ↔ ∃ w ∈ KStar.kstar l, c.rest = w ++ rest := by
  constructor
  · clear hn
    induction n generalizing c with
    | zero =>
      rintro ⟨c', hc', rfl⟩
      obtain rfl := List.mem_singleton.1 hc'
      exact ⟨[], Language.nil_mem_kstar l, rfl⟩
    | succ n ih =>
      rintro ⟨c', hc', rfl⟩
      rcases mem_iterate_succ.1 hc' with rfl | ⟨c₁, hc₁, -, hrest⟩
      · exact ⟨[], Language.nil_mem_kstar l, rfl⟩
      · obtain ⟨w₁, hw₁, hfirst⟩ := (hstep c c₁.rest).1 ⟨c₁, hc₁, rfl⟩
        obtain ⟨w, hw, hsecond⟩ := ih ⟨c', hrest, rfl⟩
        refine ⟨w₁ ++ w, ?_, by rw [hfirst, hsecond, List.append_assoc]⟩
        obtain ⟨parts, rfl, hparts⟩ := Language.mem_kstar.1 hw
        refine Language.mem_kstar.2 ⟨w₁ :: parts, rfl, fun y hy => ?_⟩
        rcases List.mem_cons.1 hy with rfl | hy
        · exact hw₁
        · exact hparts y hy
  · rintro ⟨w, hw, hrest⟩
    obtain ⟨parts, rfl, hparts⟩ := Language.mem_kstar_iff_exists_nonempty.1 hw
    -- each part takes at least one character, so that the repetitions suffice
    induction parts generalizing n c with
    | nil => exact ⟨c, self_mem_iterate step greedy n c, hrest⟩
    | cons w₁ parts ih =>
      obtain ⟨hw₁, hne⟩ := hparts w₁ List.mem_cons_self
      rw [List.flatten_cons, List.append_assoc] at hrest
      obtain ⟨c₁, hc₁, hc₁rest⟩ := (hstep c _).2 ⟨w₁, hw₁, hrest⟩
      have hlength : c₁.rest.length < c.rest.length := by
        have hpos := List.length_pos_iff.2 hne
        have hsplit : c.rest.length = w₁.length + c₁.rest.length := by rw [hrest, hc₁rest, List.length_append]
        omega
      cases n with
      | zero => omega
      | succ n =>
        have hmore := fun y hy => hparts y (List.mem_cons_of_mem _ hy)
        have hw' : parts.flatten ∈ KStar.kstar l := Language.join_mem_kstar fun y hy => (hmore y hy).1
        obtain ⟨c', hc', hend⟩ := @ih n c₁ (by omega) hmore hw' hc₁rest
        exact ⟨c', mem_iterate_succ.2 (.inr ⟨c₁, hc₁, hlength, hc'⟩), hend⟩

/-! ### Expressions -/

/-- A plain expression takes the texts of its language. -/
theorem exists_mem_run_iff (h : r.plain = true) : StepsIn (run r) r.language := by
  induction r with
  | empty =>
    intro c rest
    rw [run, language_empty]
    constructor
    · rintro ⟨c', hc', rfl⟩
      rw [List.mem_singleton] at hc'
      exact ⟨[], Language.nil_mem_one, by rw [hc']; rfl⟩
    · rintro ⟨w, hw, hrest⟩
      rw [Language.mem_one] at hw
      exact ⟨c, List.mem_singleton_self c, by rw [hrest, hw]; rfl⟩
  | one p =>
    intro c rest
    constructor
    · rintro ⟨c', hc', rfl⟩
      obtain ⟨x, rest, hrest, hx, rfl⟩ := mem_run_one.1 hc'
      exact ⟨[x], ⟨x, hx, rfl⟩, hrest⟩
    · rintro ⟨w, ⟨x, hx, rfl⟩, hrest⟩
      exact ⟨_, mem_run_one.2 ⟨x, rest, hrest, hx, rfl⟩, rfl⟩
  | seq a b iha ihb =>
    obtain ⟨ha, hb⟩ := Bool.and_eq_true_iff.1 h
    intro c rest
    constructor
    · rintro ⟨c', hc', rfl⟩
      obtain ⟨c₁, h₁, h₂⟩ := mem_run_seq.1 hc'
      obtain ⟨w, hw, hfirst⟩ := (iha ha c c₁.rest).1 ⟨c₁, h₁, rfl⟩
      obtain ⟨w', hw', hsecond⟩ := (ihb hb c₁ c'.rest).1 ⟨c', h₂, rfl⟩
      exact ⟨w ++ w', Language.append_mem_mul hw hw', by rw [hfirst, hsecond, List.append_assoc]⟩
    · rintro ⟨_, hmul, hrest⟩
      obtain ⟨w, hw, w', hw', rfl⟩ := Language.mem_mul.1 hmul
      rw [List.append_assoc] at hrest
      obtain ⟨c₁, h₁, hc₁⟩ := (iha ha c _).2 ⟨w, hw, hrest⟩
      obtain ⟨c', h₂, hend⟩ := (ihb hb c₁ rest).2 ⟨w', hw', hc₁⟩
      exact ⟨c', mem_run_seq.2 ⟨c₁, h₁, h₂⟩, hend⟩
  | alt a b iha ihb =>
    obtain ⟨ha, hb⟩ := Bool.and_eq_true_iff.1 h
    intro c rest
    constructor
    · rintro ⟨c', hc', hend⟩
      rcases List.mem_append.1 hc' with hc' | hc'
      · obtain ⟨w, hw, hrest⟩ := (iha ha c rest).1 ⟨c', hc', hend⟩
        exact ⟨w, (Language.mem_add _ _ w).2 (.inl hw), hrest⟩
      · obtain ⟨w, hw, hrest⟩ := (ihb hb c rest).1 ⟨c', hc', hend⟩
        exact ⟨w, (Language.mem_add _ _ w).2 (.inr hw), hrest⟩
    · rintro ⟨w, hw, hrest⟩
      rcases (Language.mem_add _ _ w).1 hw with hw | hw
      · obtain ⟨c', hc', hend⟩ := (iha ha c rest).2 ⟨w, hw, hrest⟩
        exact ⟨c', List.mem_append_left _ hc', hend⟩
      · obtain ⟨c', hc', hend⟩ := (ihb hb c rest).2 ⟨w, hw, hrest⟩
        exact ⟨c', List.mem_append_right _ hc', hend⟩
  | star greedy a iha =>
    intro c rest
    rw [run, language_star]
    exact exists_mem_iterate (iha h) (Nat.le_refl _)
  | group name a iha =>
    intro c rest
    rw [language_group, ← iha h c rest]
    constructor
    · rintro ⟨c', hc', hend⟩
      obtain ⟨c₁, h₁, rfl⟩ := List.mem_map.1 hc'
      exact ⟨c₁, h₁, hend⟩
    · rintro ⟨c₁, h₁, hend⟩
      exact ⟨_, List.mem_map_of_mem h₁, hend⟩
  | lookahead | lookbehind | start | stop | wordBoundary => cases h

theorem language_cat_cons (r : Regex) (rs : List Regex) :
    (cat (r :: rs)).language = r.language * (cat rs).language := rfl

/-- One expression after the other, up to the end of the text. -/
theorem exists_mem_run_stop {rs : List Regex} (h : ∀ r ∈ rs, r.plain = true) (c : Cursor) :
    (∃ c' ∈ run (cat (rs ++ [stop])) c, c'.rest = []) ↔ c.rest ∈ (cat rs).language := by
  induction rs generalizing c with
  | nil =>
    have hstop : (cat ([] ++ [stop])).run c = (run stop c).flatMap fun c' => [c'] := rfl
    rw [hstop, List.flatMap_singleton']
    show (∃ c' ∈ if c.rest = [] ∨ c.rest = ['\n'] then [c] else [], c'.rest = []) ↔ c.rest = []
    by_cases hrest : c.rest = []
    · simp [hrest]
    · by_cases hline : c.rest = ['\n'] <;> simp [hrest, hline]
  | cons r rs ih =>
    obtain ⟨hr, hrs⟩ := List.forall_mem_cons.1 h
    rw [language_cat_cons, Language.mem_mul]
    constructor
    · rintro ⟨c', hc', hend⟩
      obtain ⟨c₁, h₁, h₂⟩ := mem_run_seq.1 hc'
      obtain ⟨w, hw, hrest⟩ := (exists_mem_run_iff hr c c₁.rest).1 ⟨c₁, h₁, rfl⟩
      exact ⟨w, hw, c₁.rest, (ih hrs c₁).1 ⟨c', h₂, hend⟩, hrest.symm⟩
    · rintro ⟨w, hw, w', hw', hrest⟩
      obtain ⟨c₁, h₁, hc₁⟩ := (exists_mem_run_iff hr c w').2 ⟨w, hw, hrest.symm⟩
      obtain ⟨c', h₂, hend⟩ := (ih hrs c₁).2 (by rwa [hc₁])
      exact ⟨c', mem_run_seq.2 ⟨c₁, h₁, h₂⟩, hend⟩

/-- Expressions between the ends of the text match it if it is in their language. -/
theorem fullMatch_isSome {rs : List Regex} (h : ∀ r ∈ rs, r.plain = true) (text : Str) :
    (fullMatch (cat (start :: (rs ++ [stop]))) text).isSome ↔ text ∈ (cat rs).language := by
  rw [← exists_mem_run_stop h ⟨[], text, fun _ => none⟩, fullMatch, Option.isSome_map, List.find?_isSome]
  simp only [decide_eq_true_eq]
  have hstart : run (cat (start :: (rs ++ [stop]))) ⟨[], text, fun _ => none⟩ =
      run (cat (rs ++ [stop])) ⟨[], text, fun _ => none⟩ := by
    show (run start _).flatMap _ = _
    rw [run, if_pos rfl, List.flatMap_singleton]
    rfl
  rw [hstart]

/-! ### Groups -/

/-- The names of the groups of an expression that a match keeps. -/
def groupNames : Regex → List Str
  | seq a b => groupNames a ++ groupNames b
  | alt a b => groupNames a ++ groupNames b
  | star _ a => groupNames a
  | group name a => name :: groupNames a
  | _ => []

private theorem iterate_groups {name : Str} (hstep : ∀ c, ∀ c' ∈ step c, c'.groups name = c.groups name) {greedy : Bool}
    {n : Nat} {c c' : Cursor} (h : c' ∈ iterate step greedy n c) : c'.groups name = c.groups name := by
  induction n generalizing c with
  | zero => rw [List.mem_singleton.1 h]
  | succ n ih =>
    rcases mem_iterate_succ.1 h with rfl | ⟨c₁, hc₁, -, h⟩
    · rfl
    · exact (ih h).trans (hstep c c₁ hc₁)

/-- An expression leaves the other groups alone. -/
theorem run_groups {name : Str} (hname : name ∉ r.groupNames) {c c' : Cursor} (h : c' ∈ run r c) :
    c'.groups name = c.groups name := by
  induction r generalizing c c' with
  | empty => rw [List.mem_singleton.1 h]
  | one p =>
    obtain ⟨x, rest, -, -, rfl⟩ := mem_run_one.1 h
    rfl
  | seq a b iha ihb =>
    obtain ⟨ha, hb⟩ := not_or.1 fun h => hname (List.mem_append.2 h)
    obtain ⟨c₁, h₁, h₂⟩ := mem_run_seq.1 h
    exact (ihb hb h₂).trans (iha ha h₁)
  | alt a b iha ihb =>
    obtain ⟨ha, hb⟩ := not_or.1 fun h => hname (List.mem_append.2 h)
    rcases List.mem_append.1 h with h | h
    · exact iha ha h
    · exact ihb hb h
  | star greedy a iha => exact iterate_groups (fun c c' h => iha hname h) h
  | group other a iha =>
    obtain ⟨hne, ha⟩ := List.ne_and_not_mem_of_not_mem_cons hname
    obtain ⟨c₁, h₁, rfl⟩ := List.mem_map.1 h
    show (if name = other then _ else c₁.groups name) = c.groups name
    rw [if_neg hne]
    exact iha ha h₁
  | lookahead _ _ _ | lookbehind _ _ | start | stop | wordBoundary =>
    unfold run at h
    split at h
    · rw [List.mem_singleton.1 h]
    · cases h

/-- A match has no group that its expression does not have. -/
theorem fullMatch_groups {name : Str} (hname : name ∉ r.groupNames) {text : Str} {m : Match}
    (h : fullMatch r text = some m) : m.stop.groups name = none := by
  obtain ⟨c, hc, rfl⟩ := Option.map_eq_some_iff.1 h
  exact run_groups hname (List.mem_of_find?_eq_some hc)

end Regex

end Lib
