import TrustedReleases.DayLog.Contents

/-!
# What an append and a close do

`append` adds the line of one entry to the file of its day, which is after the closed day (`append_ok`).  `close`
rewrites days after the closed day, from the oldest file on if there is none (`closeSteps_cases`), and each file that
it replaces holds the same entries in their order (`Logged.rewritten`).
-/

namespace TrustedReleases

open Lib

namespace DayLog

variable {ν : Type} {c : Codec ν}

/-! ### Appending -/

/-- The entry of an append is of the day of the append. -/
theorem newEntry_day {now : Instant} {logger level : Str} {event : Json ν} {e : Entry}
    (h : newEntry c now logger level event = .ok e) : e.1.day = dateText now.day := by
  obtain ⟨members, _, _, hmembers, htimestamp, -⟩ := entry_ok h
  obtain rfl := Json.object.inj hmembers
  have hlookup : List.lookup timestampField [(eventField, event), (levelField, .string level),
      (loggerField, .string logger), (timestampField, .string (instantText now))] =
      some (.string (instantText now)) := rfl
  rw [hlookup] at htimestamp
  have htext : instantText now = e.1.timestamp := Json.string.inj (Option.some.inj htimestamp)
  rw [EntryKey.day, ← htext]
  exact instantText_take now

theorem append_ok {now : Instant} {logger level : Str} {event : Json ν} {s s' : Directory}
    (h : append c now logger level event s = .ok s') :
    ∃ e, newEntry c now logger level event = .ok e ∧ (∀ closed, s.closed = some closed → closed < now.day) ∧
      s' = { s with files := s.files.set now.day (s.content now.day ++ e.2) } := by
  obtain ⟨_, hcurrent, h⟩ := bind_eq_ok h
  obtain ⟨e, he, h⟩ := bind_eq_ok h
  rw [raiseIf_bind_eq_ok] at h
  refine ⟨e, he, ?_, (Except.ok.inj h.2).symm⟩
  intro closed hclosed
  unfold current at hcurrent
  rw [raiseIf_bind_eq_ok, hclosed] at hcurrent
  have hopen := hcurrent.1
  simp only [Option.any_some, decide_eq_true_eq] at hopen
  exact Nat.lt_of_not_le hopen

/-! ### Closing -/

/-- The marker is written after days that were all rewritten. -/
def markerAfter (through : Day) : Option Error → List Replacement
  | none => [.marker through]
  | some _ => []

theorem closeSteps_refused {now : Instant} {through : Day} {s : Directory} (h : now.day ≤ through) :
    closeSteps c now through s = ([], some .notCompleted) := if_pos h

theorem closeSteps_nothing {now : Instant} {through : Day} {s : Directory} (h : through < now.day)
    (hfirst : firstToClose s through = none) : closeSteps c now through s = ([], none) := by
  unfold closeSteps
  rw [if_neg (Nat.not_le_of_lt h), hfirst]

theorem closeSteps_days {now : Instant} {through first : Day} {s : Directory} (h : through < now.day)
    (hfirst : firstToClose s through = some first) :
    closeSteps c now through s =
      ((plan (closeDay c s) (dayRange first through)).1 ++
          markerAfter through (plan (closeDay c s) (dayRange first through)).2,
        (plan (closeDay c s) (dayRange first through)).2) := by
  unfold closeSteps
  rw [if_neg (Nat.not_le_of_lt h), hfirst]
  simp only [closeDays_eq (dayRange_nodup first through) s]
  rcases hplan : plan (closeDay c s) (dayRange first through) with ⟨rs, e | -⟩
  · simp [markerAfter]
  · simp [markerAfter]

/-- The first day to close comes after the closed day, and is that of the oldest file where no day is closed. -/
theorem firstToClose_eq_some {s : Directory} {through first : Day} :
    firstToClose s through = some first ↔
      first ≤ through ∧ ((∃ closed, s.closed = some closed ∧ first = closed + 1) ∨
        (s.closed = none ∧ (s.files.get first).isSome ∧ ∀ d, (s.files.get d).isSome → first ≤ d)) := by
  unfold firstToClose
  cases hclosed : s.closed with
  | some closed =>
    simp only [Option.some.injEq, reduceCtorEq, false_and, or_false]
    by_cases hle : through ≤ closed
    · rw [if_pos hle]
      simp only [reduceCtorEq, exists_eq_left', false_iff, not_and]
      intro hthrough hfirst
      subst hfirst
      exact absurd (Nat.le_trans hthrough hle) (Nat.not_succ_le_self closed)
    · rw [if_neg hle]
      simp only [Option.some.injEq, exists_eq_left']
      constructor
      · rintro rfl
        exact ⟨Nat.lt_of_not_le hle, rfl⟩
      · rintro ⟨-, rfl⟩
        rfl
  | none =>
    simp only [reduceCtorEq, false_and, exists_false, true_and, false_or]
    cases holdest : s.oldest with
    | none =>
      have hnone := Directory.oldest_eq_none.1 holdest
      simp [hnone]
    | some oldest =>
      have hmin := Directory.oldest_eq_some.1 holdest
      have hunique : ∀ first, ((s.files.get first).isSome ∧ ∀ d, (s.files.get d).isSome → first ≤ d) ↔
          oldest = first := by
        intro first
        constructor
        · rintro ⟨hfile, hle⟩
          exact Nat.le_antisymm (hmin.2 first hfile) (hle oldest hmin.1)
        · rintro rfl
          exact hmin
      rw [hunique]
      by_cases hlt : through < oldest
      · simp only [if_pos hlt, reduceCtorEq, false_iff, not_and]
        rintro hthrough rfl
        exact absurd hlt (Nat.not_lt_of_le hthrough)
      · simp only [if_neg hlt, Option.some.injEq]
        constructor
        · rintro rfl
          exact ⟨Nat.le_of_not_lt hlt, rfl⟩
        · exact fun h => h.2

/-- There is nothing to close if the days are closed already or there is no file of them. -/
theorem firstToClose_eq_none {s : Directory} {through : Day} (h : firstToClose s through = none) :
    (∃ closed, s.closed = some closed ∧ through ≤ closed) ∨
      (s.closed = none ∧ ∀ d ≤ through, s.files.get d = none) := by
  unfold firstToClose at h
  cases hclosed : s.closed with
  | some closed =>
    simp only [hclosed] at h
    by_cases hle : through ≤ closed
    · exact .inl ⟨closed, rfl, hle⟩
    · rw [if_neg hle] at h
      cases h
  | none =>
    refine .inr ⟨rfl, fun d hd => ?_⟩
    simp only [hclosed] at h
    cases holdest : s.oldest with
    | none => exact Directory.oldest_eq_none.1 holdest d
    | some oldest =>
      simp only [holdest] at h
      by_cases hlt : through < oldest
      · by_contra hfile
        have hle := (Directory.oldest_eq_some.1 holdest).2 d (Option.isSome_iff_ne_none.2 hfile)
        exact absurd (Nat.lt_of_lt_of_le hlt hle) (Nat.not_lt_of_le hd)
      · rw [if_neg hlt] at h
        cases h

/-! ### Logged directories -/

/-- Every day file holds entries of its day. -/
def Logged (c : Codec ν) (s : Directory) : Prop := ∀ d, ∃ es, Holds c d (s.content d) es

/-- A file that `close` rewrites holds the same entries, sorted. -/
theorem Logged.rewritten (hc : c.Lawful) {s : Directory} (hs : Logged c s) {d : Day} {content : Bytes}
    (h : closeDay c s d = .ok content) :
    ∃ es, Holds c d (s.content d) es ∧ content = linesOf (sortEntries es) ∧ Holds c d content (sortEntries es) := by
  obtain ⟨es, hes⟩ := hs d
  obtain ⟨-, -, rfl⟩ := (closeDay_eq_ok hc hes).1 h
  exact ⟨es, hes, rfl, hes.perm (sortEntries_perm es)⟩

/-- Rewriting a rewritten file gives the file again. -/
theorem Logged.rewritten_again (hc : c.Lawful) {s t : Directory} (hs : Logged c s) {d : Day} {content : Bytes}
    (h : closeDay c s d = .ok content) (hcontent : t.content d = content) (hsealed : t.sealedDays = s.sealedDays) :
    closeDay c t d = .ok content := by
  obtain ⟨es, hes⟩ := hs d
  obtain ⟨hopen, hreadable, rfl⟩ := (closeDay_eq_ok hc hes).1 h
  have hheld : Holds c d (t.content d) (sortEntries es) := by
    rw [hcontent]
    exact hes.perm (sortEntries_perm es)
  refine (closeDay_eq_ok hc hheld).2 ⟨by rwa [hsealed], hreadable.sort, ?_⟩
  rw [show sortEntries (sortEntries es) = sortEntries es from orderBy_orderBy _ es]

/-- What the replacements of a plan leave of a day: its file as it was, or rewritten. -/
theorem replaceAll_plan (s : Directory) (days : List Day) (tail : List Replacement) {rs : List Replacement}
    (hrs : ∀ r ∈ rs, r ∈ (plan (closeDay c s) days).1) (htail : ∀ d, tail.filterMap (·.contentOf d) = []) (d : Day) :
    (s.replaceAll (rs ++ tail)).files.get d = s.files.get d ∧ (∀ content, .file d content ∉ rs) ∨
      ∃ content, d ∈ days ∧ closeDay c s d = .ok content ∧
        (s.replaceAll (rs ++ tail)).files.get d = some content := by
  rw [replaceAll_get, List.filterMap_append, htail, List.append_nil]
  cases hlast : (rs.filterMap (·.contentOf d)).getLast? with
  | none =>
    refine .inl ⟨rfl, fun content hmem => ?_⟩
    rw [List.getLast?_eq_none_iff, List.filterMap_eq_nil_iff] at hlast
    simpa [Replacement.contentOf] using hlast _ hmem
  | some content =>
    obtain ⟨r, hr, hcontent⟩ := List.mem_filterMap.1 (List.mem_of_getLast? hlast)
    obtain ⟨d', hd', content', rfl, hclose⟩ := mem_plan (hrs r hr)
    rw [Replacement.contentOf, Option.ite_none_right_eq_some] at hcontent
    obtain ⟨rfl, hcontent⟩ := hcontent
    obtain rfl := Option.some.inj hcontent
    exact .inr ⟨content', hd', hclose, rfl⟩

theorem markerAfter_contentOf (through : Day) (e : Option Error) (d : Day) :
    (markerAfter through e).filterMap (·.contentOf d) = [] := by
  cases e <;> rfl

theorem plan_through (f : Day → Except Error Bytes) (days : List Day) {rs : List Replacement}
    (hrs : ∀ r ∈ rs, r ∈ (plan f days).1) : rs.filterMap (·.through) = [] := by
  rw [List.filterMap_eq_nil_iff]
  intro r hr
  obtain ⟨_, _, _, rfl, -⟩ := mem_plan (hrs r hr)
  rfl

end DayLog

end TrustedReleases
