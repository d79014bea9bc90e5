import TrustedReleases.DayLog.Conservation

/-!
# Interrupted closing

A `close` that was interrupted after any of its replacements has rewritten the first of its days, or has written the
marker as well.  Closing again finds the same days to rewrite (`firstToClose_interrupted`) and the same contents for them
(`closeDay_interrupted`), so that it replaces the files with what an uninterrupted `close` does.
-/

namespace TrustedReleases

open Lib

namespace DayLog

variable {ν : Type} {c : Codec ν} {s : Directory}

/-! ### Making the first replacements twice -/

private theorem getLast?_take_or {α β : Type} (f : α → Option β) (l : List α) (k : Nat) (o : Option β) :
    (l.filterMap f).getLast?.or (((l.take k).filterMap f).getLast?.or o) = (l.filterMap f).getLast?.or o := by
  cases hlast : (l.filterMap f).getLast? with
  | some b => rfl
  | none =>
    have hnil : l.filterMap f = [] := List.getLast?_eq_none_iff.1 hlast
    have htake : (l.take k).filterMap f = [] := by
      rw [List.filterMap_eq_nil_iff] at hnil ⊢
      exact fun a ha => hnil a (List.mem_of_mem_take ha)
    rw [htake]
    rfl

/-- Replacements that were begun and are then made from the start. -/
private theorem replaceAll_again (rs : List Replacement) (k : Nat) (s : Directory) :
    (∀ d, ((s.replaceAll (rs.take k)).replaceAll rs).files.get d = (s.replaceAll rs).files.get d) ∧
      ((s.replaceAll (rs.take k)).replaceAll rs).closed = (s.replaceAll rs).closed := by
  constructor
  · intro d
    rw [replaceAll_get, replaceAll_get, replaceAll_get, getLast?_take_or]
  · rw [replaceAll_closed, replaceAll_closed, replaceAll_closed, getLast?_take_or]

/-! ### A partly rewritten directory -/

section Partial

variable {days : List Day} {rs : List Replacement}

/-- The contents that closing gives do not change while the days are rewritten. -/
private theorem closeDay_interrupted (hc : c.Lawful) (hs : Logged c s)
    (hrs : ∀ r ∈ rs, r ∈ (plan (closeDay c s) days).1)
    (d : Day) : closeDay c (s.replaceAll rs) d = closeDay c s d := by
  have hget := replaceAll_plan s days [] hrs (fun _ => rfl) d
  rw [List.append_nil] at hget
  rcases hget with ⟨hsame, -⟩ | ⟨content, -, hclose, hget⟩
  · refine closeDay_congr ?_ (replaceAll_sealedDays rs s)
    rw [Directory.content, hsame]
    rfl
  · rw [hclose]
    refine hs.rewritten_again hc hclose ?_ (replaceAll_sealedDays rs s)
    rw [Directory.content, hget]
    rfl

/-- Nor does the first day to close. -/
private theorem firstToClose_interrupted {first through : Day} (hfirst : firstToClose s through = some first)
    (hrs : ∀ r ∈ rs, r ∈ (plan (closeDay c s) (dayRange first through)).1) :
    firstToClose (s.replaceAll rs) through = some first := by
  obtain ⟨hle, hcases⟩ := firstToClose_eq_some.1 hfirst
  refine firstToClose_eq_some.2 ⟨hle, ?_⟩
  have hclosed : (s.replaceAll rs).closed = s.closed := by
    rw [replaceAll_closed, plan_through _ _ hrs]
    rfl
  have hget := replaceAll_plan s (dayRange first through) [] hrs fun _ => rfl
  rw [List.append_nil] at hget
  rw [hclosed]
  rcases hcases with hmarked | ⟨hopen, hfile, holdest⟩
  · exact .inl hmarked
  · refine .inr ⟨hopen, ?_, fun d hd => ?_⟩
    · rcases hget first with ⟨hsame, -⟩ | ⟨content, -, -, hrewritten⟩
      · rwa [hsame]
      · rw [hrewritten]
        rfl
    · rcases hget d with ⟨hsame, -⟩ | ⟨content, hmem, -, -⟩
      · exact holdest d (by rwa [← hsame])
      · exact (mem_dayRange.1 hmem).1

end Partial

/-! ### Closing again -/

/-- The clock only tells whether the last day is over. -/
private theorem closeSteps_clock {now now' : Instant} {through : Day} (h : through < now.day)
    (h' : through < now'.day) :
    closeSteps c now through s = closeSteps c now' through s := by
  unfold closeSteps
  rw [if_neg (Nat.not_le_of_lt h), if_neg (Nat.not_le_of_lt h')]

/-- A close that was interrupted has rewritten some days, or has done everything. -/
private theorem closeInterrupted_cases (c : Codec ν) (now : Instant) (through : Day) (k : Nat) (s : Directory) :
    closeInterrupted c now through k s = s ∨
      (∃ first, firstToClose s through = some first ∧ closeInterrupted c now through k s =
        s.replaceAll ((plan (closeDay c s) (dayRange first through)).1.take k)) ∨
      closeInterrupted c now through k s = (close c now through s).1 ∧
        (close c now through s).1.closed = some through ∧ (close c now through s).2 = none := by
  unfold closeInterrupted close
  by_cases hnow : now.day ≤ through
  · rw [closeSteps_refused hnow, List.take_nil]
    exact .inl rfl
  · have hlt : through < now.day := Nat.lt_of_not_le hnow
    cases hfirst : firstToClose s through with
    | none =>
      rw [closeSteps_nothing hlt hfirst, List.take_nil]
      exact .inl rfl
    | some first =>
      rw [closeSteps_days hlt hfirst]
      simp only [List.take_append]
      cases herror : (plan (closeDay c s) (dayRange first through)).2 with
      | some e =>
        refine .inr (.inl ⟨first, rfl, ?_⟩)
        rw [markerAfter, List.take_nil, List.append_nil]
      | none =>
        by_cases hk : k ≤ (plan (closeDay c s) (dayRange first through)).1.length
        · refine .inr (.inl ⟨first, rfl, ?_⟩)
          rw [Nat.sub_eq_zero_of_le hk, List.take_zero, List.append_nil]
        · have hlength : (plan (closeDay c s) (dayRange first through)).1.length ≤ k := Nat.le_of_not_le hk
          have hmarker : (markerAfter through none).take
              (k - (plan (closeDay c s) (dayRange first through)).1.length) = markerAfter through none := by
            refine List.take_of_length_le ?_
            have hpos : 0 < k - (plan (closeDay c s) (dayRange first through)).1.length := by omega
            exact hpos
          rw [List.take_of_length_le hlength, hmarker]
          refine .inr (.inr ⟨rfl, ?_, rfl⟩)
          rw [replaceAll_closed, List.filterMap_append, plan_through _ _ fun r hr => hr]
          rfl

/-- After a close the same days need no closing. -/
private theorem close_closed_again {now : Instant} {through : Day} (h : through < now.day)
    (hclosed : s.closed = some through) : close c now through s = (s, none) := by
  have hfirst : firstToClose s through = none := by
    unfold firstToClose
    rw [hclosed]
    exact if_pos (Nat.le_refl through)
  unfold close
  rw [closeSteps_nothing h hfirst]
  rfl

/-- Closing again after a close that was interrupted anywhere leaves the day files, the marker and the error that a
close without the interruption leaves, whatever the clock of each says, as long as the last day is over when closing
again. -/
theorem close_rerun (hc : c.Lawful) {start : Directory} (hstart : Open c start) (ops : List (Op ν))
    (now now' : Instant) (through : Day) (k : Nat) (hover : through < now'.day) :
    let s := (History.run c ⟨start, []⟩ ops).directory
    let again := close c now' through (closeInterrupted c now through k s)
    let once := close c now' through s
    (∀ d, again.1.files.get d = once.1.files.get d) ∧ again.1.closed = once.1.closed ∧ again.2 = once.2 ∧
      (through < now.day → close c now through s = once) := by
  intro s again once
  have hs : Logged c s := (hstart.kept.run hc ops).logged
  have hclock : through < now.day → close c now through s = once := by
    intro hnow
    simp only [once, close, closeSteps_clock hnow hover]
  rcases closeInterrupted_cases c now through k s with hsame | ⟨first, hfirst, hinterrupted⟩ | ⟨hdone, hclosed, herror⟩
  · have hagain : again = once := by simp only [again, once, hsame]
    rw [hagain]
    exact ⟨fun d => rfl, rfl, rfl, hclock⟩
  · have hrs : ∀ r ∈ (plan (closeDay c s) (dayRange first through)).1.take k,
        r ∈ (plan (closeDay c s) (dayRange first through)).1 := fun r hr => List.mem_of_mem_take hr
    have hplan : plan (closeDay c (s.replaceAll ((plan (closeDay c s) (dayRange first through)).1.take k)))
        (dayRange first through) = plan (closeDay c s) (dayRange first through) :=
      plan_congr fun d _ => closeDay_interrupted hc hs hrs d
    have hsteps : closeSteps c now' through (closeInterrupted c now through k s) = closeSteps c now' through s := by
      rw [hinterrupted, closeSteps_days hover (firstToClose_interrupted hfirst hrs), closeSteps_days hover hfirst, hplan]
    -- what was rewritten are the first replacements of the full list too
    have htake : ∃ j, closeInterrupted c now through k s = s.replaceAll ((closeSteps c now' through s).1.take j) := by
      refine ⟨min k (plan (closeDay c s) (dayRange first through)).1.length, ?_⟩
      rw [hinterrupted, closeSteps_days hover hfirst, List.take_append_of_le_length (Nat.min_le_right _ _),
        ← List.take_eq_take_min]
    obtain ⟨j, hj⟩ := htake
    have hagain := replaceAll_again (closeSteps c now' through s).1 j s
    simp only [again, once, close, hsteps]
    rw [hj]
    exact ⟨hagain.1, hagain.2, trivial, hclock⟩
  · have honce : close c now through s = once := by
      by_cases hnow : through < now.day
      · exact hclock hnow
      · simp only [close, closeSteps_refused (Nat.le_of_not_lt hnow)] at herror
        cases herror
    have hagain : again = ((close c now through s).1, none) := by
      simp only [again, hdone]
      exact close_closed_again hover hclosed
    rw [hagain, ← honce]
    exact ⟨fun d => rfl, rfl, herror.symm, fun _ => rfl⟩

/-- The log before its close. -/
def sampleOpen : Directory := (History.run sampleCodec ⟨Directory.empty, []⟩ (sampleOps.take 2)).directory

/-- The file of the day is rewritten when the close is interrupted, but the day is not closed yet. -/
theorem close_rerun_twoEntries :
    (closeInterrupted sampleCodec ⟨739618, 0⟩ 739617 1 sampleOpen).closed = none ∧
      (close sampleCodec ⟨739619, 0⟩ 739617 (closeInterrupted sampleCodec ⟨739618, 0⟩ 739617 1 sampleOpen)).1.closed =
        (close sampleCodec ⟨739619, 0⟩ 739617 sampleOpen).1.closed :=
  ⟨by decide +kernel, (close_rerun sampleCodec_lawful (Open.empty sampleCodec) (sampleOps.take 2) ⟨739618, 0⟩
    ⟨739619, 0⟩ 739617 1 (by decide)).2.1⟩

end DayLog

end TrustedReleases
