import TrustedReleases.DayLog.Steps
import TrustedReleases.Sealing.Task

/-!
# What the steps of sealing leave as it is

The steps of the log only touch days that are not closed (`LogStep`), and what is known of the closed days, of the seals
and of the keys stays true over them.  That there is nothing to close up to a day (`Settled`) stays true over them too,
but for an entry that is appended to such a day before any day is closed.  A chain of seals is kept by them and by everything that the key directory goes
through (`verifyAll_congr`), and grows by a seal at its end (`verifyAll_concat`).
-/

namespace TrustedReleases

open Lib

namespace Sealing

open DayLog (Codec Json Directory dayRange closeDay firstToClose mem_dayRange firstToClose_eq_some firstToClose_eq_none)

variable {κ π σ δ ν : Type} {d d' : Disk κ π σ δ}

/-! ### Consecutive days -/

/-- A list of days in their order that has the days from its least one on begins with them. -/
theorem range'_isPrefix {first n : Nat} {l : List Nat} (hl : l.Pairwise (· < ·)) (hleast : ∀ x ∈ l, first ≤ x)
    (hmem : ∀ x ∈ List.range' first n, x ∈ l) : List.range' first n <+: l := by
  induction n generalizing first l with
  | zero => exact List.nil_prefix
  | succ n ih =>
    rw [List.range'_succ] at hmem ⊢
    have hfirst : first ∈ l := hmem first List.mem_cons_self
    cases l with
    | nil => cases hfirst
    | cons x l =>
      rw [List.pairwise_cons] at hl
      have hx : x = first := by
        have hle := hleast x List.mem_cons_self
        rcases List.mem_cons.1 hfirst with heq | htail
        · exact heq.symm
        · have hlt := hl.1 first htail
          omega
      subst hx
      have hrest : List.range' (x + 1) n <+: l := by
        apply ih hl.2
        · intro y hy
          exact hl.1 y hy
        · intro y hy
          have hlt : x < y := (List.mem_range'_1.1 hy).1
          rcases List.mem_cons.1 (hmem y (List.mem_cons_of_mem _ hy)) with heq | htail
          · omega
          · exact htail
      exact List.prefix_cons_inj x |>.2 hrest

private theorem range'_pairwise (first n : Nat) : (List.range' first n).Pairwise (· < ·) := List.pairwise_lt_range'

/-- The days in their order are the only list with these days in their order. -/
theorem orderBy_eq_range' {l : List Nat} {first n : Nat} (hl : l.Nodup) (hmem : ∀ x, x ∈ l ↔ x ∈ List.range' first n) :
    orderBy id l = List.range' first n := by
  have hperm : l.Perm (List.range' first n) := by
    rw [List.perm_ext_iff_of_nodup hl List.nodup_range']
    exact hmem
  have hsorted : orderBy id (List.range' first n) = List.range' first n :=
    orderBy_of_pairwise ((range'_pairwise first n).imp Nat.le_of_lt)
  rw [← hsorted]
  exact orderBy_congr hperm fun a _ b _ hab => hab

theorem orderBy_pairwise_lt {l : List Nat} (hl : l.Nodup) : (orderBy id l).Pairwise (· < ·) := by
  have hnodup : (orderBy id l).Nodup := (orderBy_perm id l).nodup_iff.2 hl
  exact (orderBy_pairwise id l).imp₂ (fun _ _ hle hne => Nat.lt_of_le_of_ne hle hne) hnodup

/-! ### The log -/

/-- The days up to this one are closed, or there are none of them while no day is closed. -/
def Settled (d : Disk κ π σ δ) (through : Day) : Prop :=
  (∃ closed, d.closed = some closed ∧ through ≤ closed) ∨ (d.closed = none ∧ ∀ day ≤ through, d.files.get day = none)

/-- The day is closed, and its file is there. -/
def Closed (d : Disk κ π σ δ) (day : Day) : Prop :=
  (∃ closed, d.closed = some closed ∧ day ≤ closed) ∧ (d.files.get day).isSome

/-- What a step of the log can do: it adds and rewrites files of days that are not closed, and closes more days. -/
structure LogStep (d d' : Disk κ π σ δ) : Prop where
  seals : d'.seals = d.seals
  root : d'.root = d.root
  keys : d'.keys = d.keys
  closed : ∀ closed, d.closed = some closed → ∃ closed', d'.closed = some closed' ∧ closed ≤ closed'
  same : ∀ closed, d.closed = some closed → ∀ day ≤ closed, d'.files.get day = d.files.get day

theorem LogStep.refl (d : Disk κ π σ δ) : LogStep d d where
  seals := rfl
  root := rfl
  keys := rfl
  closed := fun closed h => ⟨closed, h, Nat.le_refl closed⟩
  same := fun _ _ _ _ => rfl

theorem LogStep.content (h : LogStep d d') {day : Day} (hday : Closed d day) :
    d'.files.get day = d.files.get day := by
  obtain ⟨⟨closed, hclosed, hle⟩, -⟩ := hday
  exact h.same closed hclosed day hle

theorem LogStep.isClosed (h : LogStep d d') {day : Day} (hday : Closed d day) : Closed d' day := by
  have hsame := h.content hday
  obtain ⟨⟨closed, hclosed, hle⟩, hfile⟩ := hday
  obtain ⟨closed', hclosed', hle'⟩ := h.closed closed hclosed
  exact ⟨⟨closed', hclosed', Nat.le_trans hle hle'⟩, by rwa [hsame]⟩

/-- No file is older than the first closed day after such a step if none was before. -/
theorem LogStep.oldest (h : LogStep d d') {first : Day} (hfirst : Closed d first)
    (hold : ∀ day, (d.files.get day).isSome → first ≤ day) {day : Day} (hday : (d'.files.get day).isSome) :
    first ≤ day := by
  obtain ⟨⟨closed, hclosed, hle⟩, -⟩ := hfirst
  by_cases hclosedDay : day ≤ closed
  · rw [h.same closed hclosed day hclosedDay] at hday
    exact hold day hday
  · exact Nat.le_trans hle (Nat.le_of_not_le hclosedDay)

/-- What is left of a `close` that is under way: days that are not closed, none of them before the oldest file. -/
structure Closing (d : Disk κ π σ δ) (days : List Day) (through : Day) : Prop where
  after : ∀ closed, d.closed = some closed → closed < through ∧ ∀ day ∈ days, closed < day
  oldest : d.closed = none → ∃ first, (d.files.get first).isSome ∧ (∀ day, (d.files.get day).isSome → first ≤ day) ∧
    first ≤ through ∧ ∀ day ∈ days, first ≤ day

theorem Closing.begin {through first : Day} (h : firstToClose d.log through = some first) :
    Closing d (dayRange first through) through := by
  obtain ⟨hle, hcases⟩ := firstToClose_eq_some.1 h
  constructor
  · intro closed hclosed
    rcases hcases with ⟨closed', hclosed', rfl⟩ | ⟨hnone, -⟩
    · obtain rfl : closed' = closed := Option.some.inj (hclosed'.symm.trans hclosed)
      refine ⟨hle, fun day hday => ?_⟩
      exact (mem_dayRange.1 hday).1
    · exact absurd (hnone.symm.trans hclosed) (by simp)
  · intro hnone
    rcases hcases with ⟨closed', hclosed', -⟩ | ⟨-, hfile, hleast⟩
    · exact absurd (hnone.symm.trans hclosed') (by simp)
    · exact ⟨first, hfile, hleast, hle, fun day hday => (mem_dayRange.1 hday).1⟩

theorem settled_of_none {through : Day} (h : firstToClose d.log through = none) : Settled d through :=
  firstToClose_eq_none h

/-- A file that is written does not unsettle the days before its own. -/
theorem Settled.set {day through : Day} (h : Settled d through) {content : Bytes}
    (hday : d.closed = none → (∀ day ≤ through, d.files.get day = none) → through < day) :
    Settled { d with files := d.files.set day content } through := by
  rcases h with hclosed | ⟨hnone, hfree⟩
  · exact .inl hclosed
  · refine .inr ⟨hnone, fun x hx => ?_⟩
    have hne : x ≠ day := Nat.ne_of_lt (Nat.lt_of_le_of_lt hx (hday hnone hfree))
    simp only [Dict.get_set, if_neg hne]
    exact hfree x hx

/-- A day of a `close` is rewritten. -/
theorem Closing.rewrite {days : List Day} {day through : Day} (h : Closing d (day :: days) through) (content : Bytes) :
    LogStep d { d with files := d.files.set day content } ∧
      (∀ through', Settled d through' → Settled { d with files := d.files.set day content } through') ∧
      Closing { d with files := d.files.set day content } days through := by
  have hget : ∀ x, (d.files.set day content).get x = if x = day then some content else d.files.get x :=
    fun x => Dict.get_set _ _ _ _
  refine ⟨?_, fun through' hsettled => ?_, ?_⟩
  · refine ⟨rfl, rfl, rfl, fun closed hclosed => ⟨closed, hclosed, Nat.le_refl closed⟩, ?_⟩
    intro closed hclosed x hx
    have hlt := (h.after closed hclosed).2 day List.mem_cons_self
    have hne : x ≠ day := Nat.ne_of_lt (Nat.lt_of_le_of_lt hx hlt)
    simp only [hget, if_neg hne]
  · refine hsettled.set fun hnone hfree => ?_
    obtain ⟨first, hfile, -, -, hdays⟩ := h.oldest hnone
    have hfirst : ¬ first ≤ through' := by
      intro hle
      rw [hfree first hle] at hfile
      cases hfile
    exact Nat.lt_of_lt_of_le (Nat.lt_of_not_le hfirst) (hdays day List.mem_cons_self)
  · constructor
    · intro closed hclosed
      obtain ⟨hlt, hdays⟩ := h.after closed hclosed
      exact ⟨hlt, fun x hx => hdays x (List.mem_cons_of_mem _ hx)⟩
    · intro hnone
      obtain ⟨first, hfile, hleast, hle, hdays⟩ := h.oldest hnone
      refine ⟨first, ?_, ?_, hle, fun x hx => hdays x (List.mem_cons_of_mem _ hx)⟩
      · simp only [hget]
        split
        · rfl
        · exact hfile
      · intro x hx
        simp only [hget] at hx
        by_cases hxday : x = day
        · rw [hxday]
          exact hdays day List.mem_cons_self
        · rw [if_neg hxday] at hx
          exact hleast x hx

/-- The days of a `close` are marked. -/
theorem Closing.mark {through : Day} (h : Closing d [] through) :
    LogStep d { d with closed := some through } ∧
      (∀ through', Settled d through' → Settled { d with closed := some through } through') ∧
      Settled { d with closed := some through } through := by
  refine ⟨⟨rfl, rfl, rfl, ?_, fun _ _ _ _ => rfl⟩, ?_, .inl ⟨through, rfl, Nat.le_refl through⟩⟩
  · intro closed hclosed
    exact ⟨through, rfl, Nat.le_of_lt (h.after closed hclosed).1⟩
  · rintro through' (⟨closed, hclosed, hle⟩ | ⟨hnone, hfree⟩)
    · have hlt := (h.after closed hclosed).1
      exact .inl ⟨through, rfl, Nat.le_trans hle (Nat.le_of_lt hlt)⟩
    · obtain ⟨first, hfile, -, hle, -⟩ := h.oldest hnone
      have hfirst : ¬ first ≤ through' := by
        intro hle'
        rw [hfree first hle'] at hfile
        cases hfile
      exact .inl ⟨through, rfl, Nat.le_trans (Nat.le_of_not_le hfirst) hle⟩

/-- An entry is appended to a day that is not closed. -/
theorem logStep_append {c : Codec ν} {now : Instant} {logger level : Str} {event : Json ν} {log : Directory}
    (h : DayLog.append c now logger level event d.log = .ok log) :
    LogStep d { d with files := log.files } ∧ ∀ through, (d.closed = none → through < now.day) → Settled d through →
      Settled { d with files := log.files } through := by
  obtain ⟨e, -, hopen, rfl⟩ := DayLog.append_ok h
  refine ⟨⟨rfl, rfl, rfl, fun closed hclosed => ⟨closed, hclosed, Nat.le_refl closed⟩, ?_⟩, ?_⟩
  · intro closed hclosed x hx
    have hlt : closed < now.day := hopen closed hclosed
    have hne : x ≠ now.day := Nat.ne_of_lt (Nat.lt_of_le_of_lt hx hlt)
    simp only [Dict.get_set, if_neg hne]
    rfl
  · intro through hday hsettled
    exact hsettled.set fun hnone _ => hday hnone

/-! ### The keys -/

theorem currentKey_eq_ok {key : κ} :
    d.currentKey = .ok key ↔ ∃ next, d.keys = some ⟨some (some key), next⟩ := by
  constructor
  · intro h
    obtain ⟨⟨current, next⟩, hkeys, hfile⟩ := demand_bind_eq_ok.1 h
    obtain ⟨file, hcurrent, hkey⟩ := demand_bind_eq_ok.1 hfile
    obtain rfl : current = some file := hcurrent
    exact ⟨next, by rw [hkeys, demand_eq_ok.1 hkey]⟩
  · rintro ⟨next, hkeys⟩
    rw [Disk.currentKey, hkeys]
    rfl

/-- The keys that `prepare` accepts. -/
theorem checkKeys_eq_ok [DecidableEq π] {publicOf : κ → π} {previous : Option Day} :
    d.checkKeys publicOf previous = .ok () ↔ ∃ root key, d.root = some root ∧
      d.keys = some ⟨some (some key), none⟩ ∧ d.expectedKey root previous = .ok (publicOf key) := by
  constructor
  · intro h
    obtain ⟨root, hroot, hkeyDir⟩ := demand_bind_eq_ok.1 h
    obtain ⟨keys, hkeys, hnames⟩ := demand_bind_eq_ok.1 hkeyDir
    obtain ⟨hfiles, hnamed⟩ := raiseIf_bind_eq_ok.1 hnames
    obtain ⟨expected, hexpected, hcurrent⟩ := bind_eq_ok hnamed
    obtain ⟨key, hkey, hsame⟩ := bind_eq_ok hcurrent
    rw [raiseIf_eq_ok, not_not] at hsame
    obtain ⟨next, hkeys'⟩ := currentKey_eq_ok.1 hkey
    obtain rfl : keys = ⟨some (some key), next⟩ := Option.some.inj (hkeys.symm.trans hkeys')
    have hnext : next = none := by simpa using (not_or.1 hfiles).2
    exact ⟨root, key, hroot, by rw [hkeys, hnext], by rw [hexpected, hsame]⟩
  · rintro ⟨root, key, hroot, hkeys, hexpected⟩
    have hkey : d.currentKey = .ok key := currentKey_eq_ok.2 ⟨none, hkeys⟩
    simp [Disk.checkKeys, hroot, hkeys, hexpected, hkey, demand, raiseIf]

/-! ### The chain -/

variable [DecidableEq δ] {S : Scheme κ π σ δ}

private theorem verify_congr {day : Day} (hseals : d'.seals.get day = d.seals.get day)
    (hfiles : d'.files.get day = d.files.get day) (publicKey : π) :
    d'.verify S publicKey day = d.verify S publicKey day := by
  unfold Disk.verify
  rw [hseals, hfiles]

theorem verifyAll_congr {days : List Day} (hseals : ∀ day ∈ days, d'.seals.get day = d.seals.get day)
    (hfiles : ∀ day ∈ days, d'.files.get day = d.files.get day) (publicKey : π) :
    d'.verifyAll S days publicKey = d.verifyAll S days publicKey := by
  unfold Disk.verifyAll
  induction days generalizing publicKey with
  | nil => rfl
  | cons day days ih =>
    rw [List.foldlM_cons, List.foldlM_cons,
      verify_congr (hseals day List.mem_cons_self) (hfiles day List.mem_cons_self)]
    cases d.verify S publicKey day with
    | error e => rfl
    | ok next =>
      exact ih (fun x hx => hseals x (List.mem_cons_of_mem _ hx)) (fun x hx => hfiles x (List.mem_cons_of_mem _ hx))
        next

/-- A chain goes on with a seal that verifies under the key that it ends with. -/
theorem verifyAll_concat {days : List Day} {day : Day} {publicKey last next : π}
    (hdays : d.verifyAll S days publicKey = .ok last) (hday : d.verify S last day = .ok next) :
    d.verifyAll S (days ++ [day]) publicKey = .ok next := by
  unfold Disk.verifyAll at hdays ⊢
  rw [List.foldlM_append, hdays, ok_bind, List.foldlM_cons, hday]
  rfl

end Sealing

end TrustedReleases
