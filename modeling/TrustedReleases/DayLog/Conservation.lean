import TrustedReleases.DayLog.Steps

/-!
# Conservation of the audit day log

Runs of `append` and `close`, each with a clock of its own, keep what the log is for: the file of a day holds the
entries that were accepted on that day, each as often as it was accepted, and the files of closed days are sorted and
stay as they are.
-/

namespace TrustedReleases

open Lib

namespace DayLog

variable {ν : Type} {c : Codec ν}

/-- A call of the log, with the time that it reads from the clock. -/
inductive Op (ν : Type) where
  | append (now : Instant) (logger level : Str) (event : Json ν)
  | close (now : Instant) (through : Day)

/-- The directory, and the entries that `append` accepted, with the days on which it did. -/
structure History where
  directory : Directory
  accepted : List (Day × Entry)

namespace History

/-- One call.  An append that fails leaves the directory as it is, and a close what it has replaced. -/
def step (c : Codec ν) (h : History) : Op ν → History
  | .append now logger level event =>
    match append c now logger level event h.directory, newEntry c now logger level event with
    | .ok s, .ok e => ⟨s, h.accepted ++ [(now.day, e)]⟩
    | _, _ => h
  | .close now through => { h with directory := (close c now through h.directory).1 }

/-- The calls one after the other. -/
def run (c : Codec ν) (h : History) (ops : List (Op ν)) : History := ops.foldl (step c) h

/-- The entries that were accepted on a day. -/
def on (h : History) (d : Day) : List Entry := (h.accepted.filter fun a => decide (a.1 = d)).map (·.2)

end History

private theorem on_append (h : History) (s : Directory) (day : Day) (e : Entry) (d : Day) :
    History.on ⟨s, h.accepted ++ [(day, e)]⟩ d = h.on d ++ if day = d then [e] else [] := by
  by_cases hd : day = d
  · simp [History.on, hd]
  · simp [History.on, hd]

/-- A log that is still open: no day is closed, and every day file holds entries of its day. -/
structure Open (c : Codec ν) (s : Directory) : Prop where
  closed : s.closed = none
  logged : Logged c s

/-- Every file holds what it held at the start and what was accepted since, and the closed days are sorted. -/
structure Kept (c : Codec ν) (start : Directory) (h : History) : Prop where
  held : ∀ d, ∃ es₀ es, Holds c d (start.content d) es₀ ∧ Holds c d (h.directory.content d) es ∧
    es.Perm (es₀ ++ h.on d)
  sorted : ∀ closed, h.directory.closed = some closed → ∀ d ≤ closed, SortedDay c d (h.directory.content d)

theorem Kept.logged {start : Directory} {h : History} (hk : Kept c start h) : Logged c h.directory := by
  intro d
  obtain ⟨_, es, -, hes, -⟩ := hk.held d
  exact ⟨es, hes⟩

theorem Open.kept {start : Directory} (hstart : Open c start) : Kept c start ⟨start, []⟩ where
  held := by
    intro d
    obtain ⟨es, hes⟩ := hstart.logged d
    refine ⟨es, es, hes, hes, ?_⟩
    simp [History.on]
  sorted := by
    intro closed hclosed
    rw [hstart.closed] at hclosed
    cases hclosed

/-! ### One call -/

/-- What an accepted append does. -/
private theorem step_append (c : Codec ν) (h : History) (now : Instant) (logger level : Str) (event : Json ν) :
    h.step c (.append now logger level event) = h ∨
      ∃ e, newEntry c now logger level event = .ok e ∧
        (∀ closed, h.directory.closed = some closed → closed < now.day) ∧
        h.step c (.append now logger level event) =
          ⟨{ h.directory with files := h.directory.files.set now.day (h.directory.content now.day ++ e.2) },
            h.accepted ++ [(now.day, e)]⟩ := by
  cases happend : append c now logger level event h.directory with
  | error err => exact .inl (by simp only [History.step, happend])
  | ok s =>
    obtain ⟨e, he, hopen, rfl⟩ := append_ok happend
    exact .inr ⟨e, he, hopen, by simp only [History.step, happend, he]⟩

theorem Kept.append {start : Directory} {h : History} (hk : Kept c start h) (now : Instant) (logger level : Str)
    (event : Json ν) : Kept c start (h.step c (.append now logger level event)) := by
  rcases step_append c h now logger level event with
    heq | ⟨e, he, hopen, heq⟩
  · rw [heq]
    exact hk
  · rw [heq]
    obtain ⟨record, hrecord⟩ : ∃ record, entry c record = .ok e := ⟨_, he⟩
    refine ⟨fun d => ?_, fun closed hclosed d hd => ?_⟩
    · obtain ⟨es₀, es, hes₀, hes, hperm⟩ := hk.held d
      by_cases hday : d = now.day
      · subst hday
        refine ⟨es₀, es ++ [e], hes₀, ?_, ?_⟩
        · simpa [Directory.content] using hes.append (newEntry_day he) hrecord
        · rw [on_append, if_pos rfl, ← List.append_assoc]
          exact hperm.append_right [e]
      · refine ⟨es₀, es, hes₀, ?_, ?_⟩
        · simpa [Directory.content, hday] using hes
        · rw [on_append, if_neg (Ne.symm hday), List.append_nil]
          exact hperm
    · have hlt := hopen closed hclosed
      have hne : d ≠ now.day := Nat.ne_of_lt (Nat.lt_of_le_of_lt hd hlt)
      simpa [Directory.content, hne] using hk.sorted closed hclosed d hd

/-- What a close does: nothing, or it rewrites days after the closed one and then marks the last of them, if it could
rewrite them all. -/
private theorem close_cases (c : Codec ν) (now : Instant) (through : Day) (s : Directory) :
    ((close c now through s).1 = s ∧ ((close c now through s).2 = none →
        (∃ closed, s.closed = some closed ∧ through ≤ closed) ∨
          (s.closed = none ∧ ∀ d ≤ through, s.files.get d = none))) ∨
      ∃ first, firstToClose s through = some first ∧
        (close c now through s).1 = s.replaceAll ((plan (closeDay c s) (dayRange first through)).1 ++
          markerAfter through (plan (closeDay c s) (dayRange first through)).2) ∧
        (close c now through s).2 = (plan (closeDay c s) (dayRange first through)).2 := by
  unfold close
  by_cases hnow : now.day ≤ through
  · rw [closeSteps_refused hnow]
    refine .inl ⟨rfl, ?_⟩
    intro h
    cases h
  · have hlt : through < now.day := Nat.lt_of_not_le hnow
    cases hfirst : firstToClose s through with
    | none =>
      rw [closeSteps_nothing hlt hfirst]
      exact .inl ⟨rfl, fun _ => firstToClose_eq_none hfirst⟩
    | some first =>
      rw [closeSteps_days hlt hfirst]
      exact .inr ⟨first, rfl, rfl, rfl⟩

/-- The file of a day after a close: as it was, or rewritten if the day is not closed. -/
private theorem close_get (c : Codec ν) (now : Instant) (through : Day) (s : Directory) (d : Day) :
    (close c now through s).1.files.get d = s.files.get d ∨
      ∃ content, (∀ closed, s.closed = some closed → closed < d) ∧ closeDay c s d = .ok content ∧
        (close c now through s).1.files.get d = some content := by
  rcases close_cases c now through s with ⟨heq, -⟩ | ⟨first, hfirst, heq, -⟩
  · exact .inl (by rw [heq])
  · rw [heq]
    rcases replaceAll_plan s _ _ (fun r hr => hr) (markerAfter_contentOf through _) d with
      ⟨hsame, -⟩ | ⟨content, hd, hclose, hget⟩
    · exact .inl hsame
    · refine .inr ⟨content, fun closed hclosed => ?_, hclose, hget⟩
      have hrange := mem_dayRange.1 hd
      rcases (firstToClose_eq_some.1 hfirst).2 with ⟨closed', hclosed', rfl⟩ | ⟨hnone, -⟩
      · obtain rfl : closed = closed' := Option.some.inj (hclosed.symm.trans hclosed')
        exact hrange.1
      · rw [hnone] at hclosed
        cases hclosed

/-- The marker after a close: as it was, or the last day, with all days up to it rewritten. -/
private theorem close_closed (c : Codec ν) (now : Instant) (through : Day) (s : Directory) :
    (close c now through s).1.closed = s.closed ∧ ((close c now through s).2 = none →
        (∃ closed, s.closed = some closed ∧ through ≤ closed) ∨
          (s.closed = none ∧ ∀ d ≤ through, s.files.get d = none)) ∨
      (close c now through s).1.closed = some through ∧ (∀ closed, s.closed = some closed → closed < through) ∧
        ∀ d ≤ through, (∃ closed, s.closed = some closed ∧ d ≤ closed) ∨
          (s.files.get d = none ∧ (close c now through s).1.files.get d = none) ∨
          ∃ content, closeDay c s d = .ok content ∧ (close c now through s).1.files.get d = some content := by
  rcases close_cases c now through s with ⟨heq, hnone⟩ | ⟨first, hfirst, heq, herror⟩
  · exact .inl ⟨by rw [heq], hnone⟩
  · have hthrough := plan_through (closeDay c s) (dayRange first through) fun r hr => hr
    have hfirst := firstToClose_eq_some.1 hfirst
    cases hplan : (plan (closeDay c s) (dayRange first through)).2 with
    | some e =>
      rw [hplan] at herror
      refine .inl ⟨?_, fun hok => by rw [herror] at hok; cases hok⟩
      rw [heq, replaceAll_closed, List.filterMap_append, hthrough, hplan]
      rfl
    | none =>
      refine .inr ⟨?_, fun closed hclosed => ?_, fun d hd => ?_⟩
      · rw [heq, replaceAll_closed, List.filterMap_append, hthrough, hplan]
        rfl
      · rcases hfirst.2 with ⟨closed', hclosed', rfl⟩ | ⟨hopen, -⟩
        · obtain rfl : closed = closed' := Option.some.inj (hclosed.symm.trans hclosed')
          exact hfirst.1
        · rw [hopen] at hclosed
          cases hclosed
      · have hget := replaceAll_plan (c := c) s (dayRange first through) _ (fun r hr => hr) (markerAfter_contentOf through none) d
        rw [← hplan, ← heq] at hget
        by_cases hrange : first ≤ d
        · obtain ⟨content, hclose, hmem⟩ := plan_complete hplan (mem_dayRange.2 ⟨hrange, hd⟩)
          rcases hget with ⟨-, hnot⟩ | ⟨content', -, hclose', hget⟩
          · exact absurd hmem (hnot content)
          · exact .inr (.inr ⟨content', hclose', hget⟩)
        · rcases hfirst.2 with ⟨closed, hclosed, rfl⟩ | ⟨-, -, holdest⟩
          · exact .inl ⟨closed, hclosed, Nat.le_of_lt_succ (Nat.lt_of_not_le hrange)⟩
          · have hfile : s.files.get d = none := by
              by_contra hfile
              exact hrange (holdest d (Option.isSome_iff_ne_none.2 hfile))
            rcases hget with ⟨hsame, -⟩ | ⟨_, hmem, -, -⟩
            · exact .inr (.inl ⟨hfile, by rw [hsame, hfile]⟩)
            · exact absurd (mem_dayRange.1 hmem).1 hrange

theorem Kept.close (hc : c.Lawful) {start : Directory} {h : History} (hk : Kept c start h) (now : Instant)
    (through : Day) : Kept c start (h.step c (.close now through)) := by
  have hon : ∀ d, (h.step c (.close now through)).on d = h.on d := fun d => rfl
  have hdirectory : (h.step c (.close now through)).directory = (DayLog.close c now through h.directory).1 := rfl
  refine ⟨fun d => ?_, fun closed hclosed d hd => ?_⟩
  · obtain ⟨es₀, es, hes₀, hes, hperm⟩ := hk.held d
    rw [hon, hdirectory]
    rcases close_get c now through h.directory d with hsame | ⟨content, -, hclose, hget⟩
    · exact ⟨es₀, es, hes₀, by rwa [Directory.content, hsame], hperm⟩
    · obtain ⟨-, -, rfl⟩ := (closeDay_eq_ok hc hes).1 hclose
      refine ⟨es₀, sortEntries es, hes₀, ?_, (sortEntries_perm es).trans hperm⟩
      rw [Directory.content, hget]
      exact hes.perm (sortEntries_perm es)
  · rw [hdirectory] at hclosed ⊢
    -- a day that was closed before is not rewritten
    have hold : ∀ closed', h.directory.closed = some closed' → d ≤ closed' →
        SortedDay c d ((DayLog.close c now through h.directory).1.content d) := by
      intro closed' hclosed' hd'
      rcases close_get c now through h.directory d with hsame | ⟨content, hafter, -, -⟩
      · rw [Directory.content, hsame]
        exact hk.sorted closed' hclosed' d hd'
      · exact absurd (hafter closed' hclosed') (Nat.not_lt_of_le hd')
    rcases close_closed c now through h.directory with ⟨hsame, -⟩ | ⟨hmarker, -, hdays⟩
    · rw [hsame] at hclosed
      exact hold closed hclosed hd
    · obtain rfl : closed = through := Option.some.inj (hclosed.symm.trans hmarker)
      rcases hdays d hd with ⟨closed', hclosed', hd'⟩ | ⟨-, hnone⟩ | ⟨content, hclose, hget⟩
      · exact hold closed' hclosed' hd'
      · rw [Directory.content, hnone]
        exact ⟨[], Holds.nil, List.Pairwise.nil⟩
      · obtain ⟨es, hes, hcontent, hheld⟩ := hk.logged.rewritten hc hclose
        rw [Directory.content, hget]
        exact ⟨sortEntries es, hheld, sortEntries_pairwise es⟩

theorem Kept.step (hc : c.Lawful) {start : Directory} {h : History} (hk : Kept c start h) (op : Op ν) :
    Kept c start (h.step c op) := by
  cases op with
  | append now logger level event => exact hk.append now logger level event
  | close now through => exact hk.close hc now through

/-- A run keeps every file. -/
theorem Kept.run (hc : c.Lawful) {start : Directory} {h : History} (hk : Kept c start h) (ops : List (Op ν)) :
    Kept c start (h.run c ops) := by
  induction ops generalizing h with
  | nil => exact hk
  | cons op ops ih => exact ih (hk.step hc op)

/-! ### Closed days -/

/-- A call leaves the files of the closed days as they are, and they stay closed. -/
private theorem step_closed (h : History) (op : Op ν) {closed : Day} (hclosed : h.directory.closed = some closed) :
    (∃ closed', (h.step c op).directory.closed = some closed' ∧ closed ≤ closed') ∧
      ∀ d ≤ closed, (h.step c op).directory.files.get d = h.directory.files.get d := by
  cases op with
  | append now logger level event =>
    rcases step_append c h now logger level event with
      heq | ⟨e, -, hopen, heq⟩
    · rw [heq]
      exact ⟨⟨closed, hclosed, Nat.le_refl closed⟩, fun d _ => rfl⟩
    · rw [heq]
      refine ⟨⟨closed, hclosed, Nat.le_refl closed⟩, fun d hd => ?_⟩
      have hne : d ≠ now.day := Nat.ne_of_lt (Nat.lt_of_le_of_lt hd (hopen closed hclosed))
      simp [hne]
  | close now through =>
    have hdirectory : (h.step c (.close now through)).directory = (DayLog.close c now through h.directory).1 := rfl
    rw [hdirectory]
    refine ⟨?_, fun d hd => ?_⟩
    · rcases close_closed c now through h.directory with ⟨hsame, -⟩ | ⟨hmarker, hafter, -⟩
      · exact ⟨closed, by rw [hsame, hclosed], Nat.le_refl closed⟩
      · exact ⟨through, hmarker, Nat.le_of_lt (hafter closed hclosed)⟩
    · rcases close_get c now through h.directory d with hsame | ⟨_, hafter, -, -⟩
      · exact hsame
      · exact absurd (hafter closed hclosed) (Nat.not_lt_of_le hd)

private theorem run_closed (h : History) (ops : List (Op ν)) {closed : Day}
    (hclosed : h.directory.closed = some closed) :
    ∀ d ≤ closed, (h.run c ops).directory.files.get d = h.directory.files.get d := by
  induction ops generalizing h closed with
  | nil => exact fun d _ => rfl
  | cons op ops ih =>
    obtain ⟨⟨closed', hclosed', hle⟩, hfiles⟩ := step_closed (c := c) h op hclosed
    intro d hd
    exact (ih (h.step c op) hclosed' d (Nat.le_trans hd hle)).trans (hfiles d hd)

/-- After a close that succeeded the days are closed, unless there are no files of them. -/
private theorem close_succeeded {now : Instant} {through : Day} {s : Directory} (h : (close c now through s).2 = none) :
    (∃ closed, (close c now through s).1.closed = some closed ∧ through ≤ closed) ∨
      ∀ d ≤ through, (close c now through s).1.files.get d = none := by
  rcases close_cases c now through s with ⟨heq, hnone⟩ | ⟨first, -, heq, herror⟩
  · rw [heq]
    rcases hnone h with hclosed | ⟨-, hfiles⟩
    · exact .inl hclosed
    · exact .inr hfiles
  · refine .inl ⟨through, ?_, Nat.le_refl through⟩
    have hplan : (plan (closeDay c s) (dayRange first through)).2 = none := by rw [← herror, h]
    rw [heq, hplan, replaceAll_closed, List.filterMap_append, plan_through _ _ fun r hr => hr]
    rfl

/-- Nothing is lost, duplicated or moved to another day, and once days are closed their files are sorted and stay as
they are. -/
theorem log_conserved (hc : c.Lawful) {start : Directory} (hstart : Open c start) (ops : List (Op ν)) :
    let h := History.run c ⟨start, []⟩ ops
    (∀ d, (lines newline (h.directory.content d)).Perm
      (lines newline (start.content d) ++ (h.on d).map (·.2))) ∧
    (∀ closed, h.directory.closed = some closed → ∀ d ≤ closed, SortedDay c d (h.directory.content d) ∧
      ∀ later, (h.run c later).directory.files.get d = h.directory.files.get d) ∧
    ∀ now through, (close c now through h.directory).2 = none →
      ∀ d ≤ through, ((close c now through h.directory).1.files.get d).isSome →
        SortedDay c d ((close c now through h.directory).1.content d) ∧
          ∀ later, ((h.step c (.close now through)).run c later).directory.files.get d =
            (close c now through h.directory).1.files.get d := by
  intro h
  have hk : Kept c start h := hstart.kept.run hc ops
  refine ⟨fun d => ?_, fun closed hclosed d hd => ?_, fun now through hok d hd hfile => ?_⟩
  · obtain ⟨es₀, es, hes₀, hes, hperm⟩ := hk.held d
    rw [hes₀.lines_eq hc, hes.lines_eq hc, ← List.map_append]
    exact hperm.map _
  · exact ⟨hk.sorted closed hclosed d hd, fun later => run_closed h later hclosed d hd⟩
  · rcases close_succeeded hok with ⟨closed, hclosed, hle⟩ | hnone
    · have hd' : d ≤ closed := Nat.le_trans hd hle
      exact ⟨(hk.close hc now through).sorted closed hclosed d hd',
        fun later => run_closed (h.step c (.close now through)) later hclosed d hd'⟩
    · rw [hnone d hd] at hfile
      cases hfile

/-! ### A log of two entries -/

/-- The members of a record at an instant. -/
def sampleMembers (timestamp : Str) : List (Str × Json Unit) :=
  [(eventField, .null), (levelField, .string "info".toList), (loggerField, .string "atr.storage.audit".toList),
    (timestampField, .string timestamp)]

/-- Their canonical form. -/
def sampleText (timestamp : Str) : Bytes :=
  ascii ("\x7b\"event\":null,\"level\":\"info\",\"logger\":\"atr.storage.audit\",\"timestamp\":\"".toList ++ timestamp ++
    "\"\x7d".toList)

def earlier : Instant := ⟨739617, 1⟩

def later : Instant := ⟨739617, 2⟩

/-- A codec that knows the two records. -/
def sampleCodec : Codec Unit where
  dumps
    | .null => some (ascii "null".toList)
    | .object [(k₁, .null), (k₂, .string level), (k₃, .string logger), (k₄, .string timestamp)] =>
      if [k₁, k₂, k₃, k₄] = fieldNames ∧ level = "info".toList ∧ logger = "atr.storage.audit".toList ∧
          (timestamp = instantText earlier ∨ timestamp = instantText later) then some (sampleText timestamp)
      else none
    | _ => none
  loads line :=
    if line = sampleText (instantText earlier) ++ [newline] then some (.object (sampleMembers (instantText earlier)))
    else if line = sampleText (instantText later) ++ [newline] then some (.object (sampleMembers (instantText later)))
    else none

private theorem sampleText_noNewline :
    newline ∉ sampleText (instantText earlier) ∧ newline ∉ sampleText (instantText later) := by
  decide +kernel
private theorem sampleText_ne :
    sampleText (instantText later) ++ [newline] ≠ sampleText (instantText earlier) ++ [newline] := by
  decide +kernel

theorem sampleCodec_lawful : sampleCodec.Lawful where
  no_newline := by
    intro v b h
    simp only [sampleCodec] at h
    split at h
    · obtain rfl := Option.some.inj h
      decide
    · rw [Option.ite_none_right_eq_some] at h
      obtain ⟨⟨-, -, -, rfl | rfl⟩, h⟩ := h
      · obtain rfl := Option.some.inj h
        exact sampleText_noNewline.1
      · obtain rfl := Option.some.inj h
        exact sampleText_noNewline.2
    · cases h
  loads_dumps := by
    intro members b h
    have hmembers : ∃ t, members = sampleMembers t ∧
        sampleCodec.loads (b ++ [newline]) = some (.object (sampleMembers t)) := by
      simp only [sampleCodec] at h
      split at h
      · rename_i heq
        cases heq
      · rename_i k₁ k₂ level k₃ logger k₄ timestamp heq
        rw [Option.ite_none_right_eq_some] at h
        obtain ⟨⟨hkeys, rfl, rfl, htimestamp⟩, h⟩ := h
        obtain rfl := Option.some.inj h
        simp only [fieldNames, List.cons.injEq, and_true] at hkeys
        obtain ⟨rfl, rfl, rfl, rfl⟩ := hkeys
        refine ⟨timestamp, Json.object.inj heq, ?_⟩
        rcases htimestamp with rfl | rfl
        · simp only [sampleCodec, if_pos]
        · simp only [sampleCodec, if_neg sampleText_ne, if_pos]
      · cases h
    obtain ⟨t, rfl, hloads⟩ := hmembers
    exact ⟨_, hloads, .refl _ _, fun k v hv => ⟨v, hv, .refl _ _⟩⟩

/-- Two entries, the later one first, and a close. -/
def sampleOps : List (Op Unit) :=
  [.append later "atr.storage.audit".toList "info".toList .null,
    .append earlier "atr.storage.audit".toList "info".toList .null, .close ⟨739618, 0⟩ 739617]

theorem Open.empty (c : Codec ν) : Open c Directory.empty := ⟨rfl, fun _ => ⟨[], Holds.nil⟩⟩

def sampleHistory : History := History.run sampleCodec ⟨Directory.empty, []⟩ sampleOps

private theorem sampleHistory_closed : sampleHistory.directory.closed = some 739617 := by decide +kernel

theorem log_conserved_twoEntries :
    (sampleHistory.directory.content 739617 = sampleText (instantText earlier) ++ [newline] ++
      (sampleText (instantText later) ++ [newline]) ∧
    (lines newline (sampleHistory.directory.content 739617)).Perm
      (lines newline (Directory.empty.content 739617) ++ (sampleHistory.on 739617).map (·.2))) ∧
    SortedDay sampleCodec 739617 (sampleHistory.directory.content 739617) ∧
    ∀ later, (sampleHistory.run sampleCodec later).directory.files.get 739617 =
      sampleHistory.directory.files.get 739617 := by
  have h := log_conserved sampleCodec_lawful (Open.empty sampleCodec) sampleOps
  exact ⟨⟨by decide +kernel, h.1 739617⟩, h.2.1 739617 sampleHistory_closed 739617 (Nat.le_refl _)⟩

end DayLog

end TrustedReleases
