import TrustedReleases.Lib.Regex
import TrustedReleases.Lib.Text

/-!
# Where a search finds its match

What the ways of a regular expression take from the text, where the match of a search stands, and where a part occurs in
a string first.
-/

namespace Lib

namespace Regex

variable {a b r : Regex} {p : Char → Bool} {c c' : Cursor} {text : Str}

/-! ### What a match takes -/

theorem mem_run_one : c' ∈ run (one p) c ↔ ∃ x rest, c.rest = x :: rest ∧ p x = true ∧
    c' = { c with before := x :: c.before, rest := rest } := by
  unfold run
  cases hrest : c.rest with
  | nil => simp
  | cons x rest =>
    by_cases hx : p x = true
    · simp [hx]
    · simp [hx]

theorem mem_run_seq : c' ∈ run (seq a b) c ↔ ∃ c₁ ∈ run a c, c' ∈ run b c₁ := List.mem_flatMap

/-- The place is reached from another one by taking a part of the text. -/
def Takes (c : Cursor) (s : Str) (c' : Cursor) : Prop := c.rest = s ++ c'.rest ∧ c'.before = s.reverse ++ c.before

theorem Takes.trans {c₁ : Cursor} {s t : Str} (h₁ : Takes c s c₁) (h₂ : Takes c₁ t c') : Takes c (s ++ t) c' := by
  constructor
  · rw [h₁.1, h₂.1, List.append_assoc]
  · rw [h₂.2, h₁.2, List.reverse_append, List.append_assoc]

theorem Takes.refl : Takes c [] c := ⟨rfl, rfl⟩

private theorem mem_iterate_takes {step : Cursor → List Cursor} (hstep : ∀ c c', c' ∈ step c → ∃ s, Takes c s c')
    {greedy : Bool} {n : Nat} {c : Cursor} (h : c' ∈ iterate step greedy n c) : ∃ s, Takes c s c' := by
  induction n generalizing c with
  | zero =>
    rw [iterate, List.mem_singleton] at h
    rw [h]
    exact ⟨[], Takes.refl⟩
  | succ n ih =>
    have hmem : c' = c ∨ c' ∈ ((step c).filter fun c' => c'.rest.length < c.rest.length).flatMap
        (iterate step greedy n) := by
      unfold iterate at h
      split at h
      · exact (List.mem_append.1 h).symm.imp List.mem_singleton.1 id
      · exact List.mem_cons.1 h
    cases hmem with
    | inl h =>
      rw [h]
      exact ⟨[], Takes.refl⟩
    | inr h =>
      obtain ⟨c₁, hc₁, h⟩ := List.mem_flatMap.1 h
      obtain ⟨s, hs⟩ := hstep c c₁ (List.mem_filter.1 hc₁).1
      obtain ⟨t, ht⟩ := ih h
      exact ⟨s ++ t, hs.trans ht⟩

/-- Every way to match takes a part of the text. -/
theorem mem_run_takes (h : c' ∈ run r c) : ∃ s, Takes c s c' := by
  induction r generalizing c c' with
  | one p =>
    obtain ⟨x, rest, hrest, -, rfl⟩ := mem_run_one.1 h
    exact ⟨[x], hrest, rfl⟩
  | seq a b iha ihb =>
    obtain ⟨c₁, h₁, h₂⟩ := mem_run_seq.1 h
    obtain ⟨s, hs⟩ := iha h₁
    obtain ⟨t, ht⟩ := ihb h₂
    exact ⟨s ++ t, hs.trans ht⟩
  | alt a b iha ihb =>
    cases List.mem_append.1 h with
    | inl h => exact iha h
    | inr h => exact ihb h
  | star greedy a iha => exact mem_iterate_takes (fun _ _ hmem => iha hmem) h
  | group name a iha =>
    obtain ⟨c₁, h₁, rfl⟩ := List.mem_map.1 h
    obtain ⟨s, hs⟩ := iha h₁
    exact ⟨s, hs.1, hs.2⟩
  | empty =>
    rw [run, List.mem_singleton] at h
    rw [h]
    exact ⟨[], Takes.refl⟩
  | lookahead _ _ _ | lookbehind _ _ | start | stop | wordBoundary =>
    unfold run at h
    split at h
    · rw [List.mem_singleton.1 h]
      exact ⟨[], Takes.refl⟩
    · cases h

/-- A group keeps what its expression took. -/
theorem mem_run_group {name : Str} (h : c' ∈ run (group name a) c) : ∃ c₁ ∈ run a c, ∃ s, Takes c s c₁ ∧
    c'.before = c₁.before ∧ c'.rest = c₁.rest ∧ c'.groups name = some s := by
  obtain ⟨c₁, h₁, rfl⟩ := List.mem_map.1 h
  obtain ⟨s, hs⟩ := mem_run_takes h₁
  refine ⟨c₁, h₁, s, hs, rfl, rfl, ?_⟩
  have hlength : c.rest.length - c₁.rest.length = s.length := by
    rw [hs.1, List.length_append]
    omega
  show (if name = name then some (c.rest.take (c.rest.length - c₁.rest.length)) else c₁.groups name) = some s
  rw [if_pos rfl, hlength, hs.1, List.take_left]

/-! ### Repetitions -/

theorem self_mem_iterate (step : Cursor → List Cursor) (greedy : Bool) (n : Nat) (c : Cursor) :
    c ∈ iterate step greedy n c := by
  cases n with
  | zero => exact List.mem_singleton_self c
  | succ n =>
    unfold iterate
    cases greedy with
    | true => exact List.mem_append_right _ (List.mem_singleton_self c)
    | false => exact List.mem_cons_self

theorem self_mem_run_many : c ∈ run (many a) c := self_mem_iterate _ _ _ c

private theorem mem_iterate_one {n : Nat} {c : Cursor} (h : c' ∈ iterate (run (one p)) true n c) :
    ∃ s, Takes c s c' ∧ ∀ x ∈ s, p x = true := by
  induction n generalizing c with
  | zero =>
    rw [iterate, List.mem_singleton] at h
    rw [h]
    exact ⟨[], Takes.refl, fun _ hx => by cases hx⟩
  | succ n ih =>
    rw [iterate, if_pos rfl, List.mem_append, List.mem_singleton] at h
    cases h with
    | inr h =>
      rw [h]
      exact ⟨[], Takes.refl, fun _ hx => by cases hx⟩
    | inl h =>
      obtain ⟨c₁, hc₁, h⟩ := List.mem_flatMap.1 h
      obtain ⟨x, rest, hrest, hx, rfl⟩ := mem_run_one.1 (List.mem_filter.1 hc₁).1
      obtain ⟨s, hs, hall⟩ := ih h
      have hstep : Takes c [x] { c with before := x :: c.before, rest := rest } := ⟨hrest, rfl⟩
      refine ⟨x :: s, hstep.trans hs, ?_⟩
      intro y hy
      rcases List.mem_cons.1 hy with rfl | hy
      · exact hx
      · exact hall y hy

/-- What a repeated character class takes. -/
theorem mem_run_many1_one (h : c' ∈ run (many1 (one p)) c) : ∃ s, Takes c s c' ∧ s ≠ [] ∧ ∀ x ∈ s, p x = true := by
  obtain ⟨c₁, h₁, h₂⟩ := mem_run_seq.1 h
  obtain ⟨x, rest, hrest, hx, rfl⟩ := mem_run_one.1 h₁
  obtain ⟨s, hs, hall⟩ := mem_iterate_one h₂
  have hstep : Takes c [x] { c with before := x :: c.before, rest := rest } := ⟨hrest, rfl⟩
  refine ⟨x :: s, hstep.trans hs, List.cons_ne_nil x s, ?_⟩
  intro y hy
  rcases List.mem_cons.1 hy with rfl | hy
  · exact hx
  · exact hall y hy

private theorem iterate_one_mem {s rest before : Str} {groups : Str → Option Str} {n : Nat} (hall : ∀ x ∈ s, p x = true)
    (hn : s.length ≤ n) :
    ⟨s.reverse ++ before, rest, groups⟩ ∈ iterate (run (one p)) true n ⟨before, s ++ rest, groups⟩ := by
  induction s generalizing n before with
  | nil => exact self_mem_iterate _ _ _ _
  | cons x s ih =>
    cases n with
    | zero => cases hn
    | succ n =>
      rw [iterate, if_pos rfl]
      apply List.mem_append_left
      apply List.mem_flatMap.2
      refine ⟨⟨x :: before, s ++ rest, groups⟩, ?_, ?_⟩
      · apply List.mem_filter.2
        refine ⟨mem_run_one.2 ⟨x, s ++ rest, rfl, hall x List.mem_cons_self, rfl⟩, ?_⟩
        simp
      · have hinner := @ih (x :: before) n (fun y hy => hall y (List.mem_cons_of_mem x hy)) (Nat.le_of_succ_le_succ hn)
        rw [List.reverse_cons, List.append_assoc]
        exact hinner

/-- A repeated character class takes any run of its characters. -/
theorem run_many1_one_mem {s rest before : Str} {groups : Str → Option Str} (hne : s ≠ [])
    (hall : ∀ x ∈ s, p x = true) :
    ⟨s.reverse ++ before, rest, groups⟩ ∈ run (many1 (one p)) ⟨before, s ++ rest, groups⟩ := by
  cases s with
  | nil => exact absurd rfl hne
  | cons x s =>
    apply mem_run_seq.2
    refine ⟨⟨x :: before, s ++ rest, groups⟩, mem_run_one.2 ⟨x, s ++ rest, rfl, hall x List.mem_cons_self, rfl⟩, ?_⟩
    rw [List.reverse_cons, List.append_assoc]
    refine iterate_one_mem (fun y hy => hall y (List.mem_cons_of_mem x hy)) ?_
    rw [List.length_append]
    omega

/-! ### Searches -/

/-- The place in a text before a position. -/
def placeAt (text : Str) (q : Nat) : Cursor := ⟨(text.take q).reverse, text.drop q, fun _ => none⟩

private theorem searchFrom_eq_some {front rest : Str} {m : Match} (h : r.searchFrom front.reverse rest = some m) :
    front.length ≤ m.start ∧ m.start ≤ (front ++ rest).length ∧ m.stop ∈ run r (placeAt (front ++ rest) m.start) ∧
      ∀ q, front.length ≤ q → q < m.start → run r (placeAt (front ++ rest) q) = [] := by
  induction rest generalizing front with
  | nil =>
    unfold searchFrom at h
    obtain ⟨place, hplace, rfl⟩ := Option.map_eq_some_iff.1 h
    simp only [placeAt, List.length_reverse, List.append_nil, List.take_length, List.drop_length]
    refine ⟨le_refl _, le_refl _, List.mem_of_mem_head? hplace, fun q hle hlt => ?_⟩
    omega
  | cons x rest ih =>
    have hplace : placeAt (front ++ x :: rest) front.length = ⟨front.reverse, x :: rest, fun _ => none⟩ := by
      simp [placeAt]
    unfold searchFrom at h
    split at h
    · rename_i place hhead
      rw [← Option.some.inj h]
      simp only [List.length_reverse]
      refine ⟨le_refl _, by simp, ?_, fun q hle hlt => by omega⟩
      rw [hplace]
      exact List.mem_of_mem_head? hhead
    · rename_i hhead
      have hnext : x :: front.reverse = (front ++ [x]).reverse := by simp
      rw [hnext] at h
      obtain ⟨hle, hlength, hrun, hnone⟩ := ih h
      rw [List.append_assoc, List.singleton_append] at hlength hrun hnone
      rw [List.length_append, List.length_singleton] at hle hnone
      refine ⟨by omega, hlength, hrun, fun q hfront hlt => ?_⟩
      by_cases hq : q = front.length
      · rw [hq, hplace]
        exact List.head?_eq_none_iff.1 hhead
      · exact hnone q (by omega) hlt

/-- A search finds a match at the first place where there is one. -/
theorem search_eq_some {m : Match} (h : r.search text = some m) : m.start ≤ text.length ∧
    m.stop ∈ run r (placeAt text m.start) ∧ ∀ q, q < m.start → run r (placeAt text q) = [] := by
  obtain ⟨-, hlength, hrun, hnone⟩ := @searchFrom_eq_some r [] text m h
  exact ⟨hlength, hrun, fun q hq => hnone q (Nat.zero_le q) hq⟩

end Regex

/-! ### First occurrences -/

/-- The part occurs in the string at a position. -/
def OccursAt (part s : Str) (q : Nat) : Prop := part <+: s.drop q

instance decidableOccursAt (part s : Str) (q : Nat) : Decidable (OccursAt part s q) :=
  inferInstanceAs (Decidable (part <+: s.drop q))

/-- A cut is made at the first occurrence. -/
theorem cut_eq_take {part s : Str} (hne : part ≠ []) {q : Nat} (h : OccursAt part s q)
    (hfirst : ∀ i, i < q → ¬ OccursAt part s i) : (cut part s).map (·.1) = some (s.take q) := by
  induction s generalizing q with
  | nil =>
    unfold OccursAt at h
    rw [List.drop_nil, List.prefix_nil] at h
    exact absurd h hne
  | cons c s ih =>
    unfold cut
    cases q with
    | zero =>
      have hhere : part <+: c :: s := h
      rw [if_pos hhere]
      rfl
    | succ q =>
      have hnot : ¬ part <+: c :: s := hfirst 0 (Nat.succ_pos q)
      have hinner := @ih q h fun i hi => hfirst (i + 1) (Nat.succ_lt_succ hi)
      obtain ⟨parts, hparts, htake⟩ := Option.map_eq_some_iff.1 hinner
      rw [if_neg hnot, hparts]
      show some (c :: parts.1) = some (c :: s.take q)
      rw [htake]

end Lib
