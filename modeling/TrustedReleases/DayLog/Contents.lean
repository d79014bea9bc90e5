import TrustedReleases.DayLog.Directory

/-!
# Day files as lists of entries

The content of a day file that `append` and `close` wrote is the lines of a list of entries of that day (`Holds`).
Rewriting such a file sorts its entries, if all of them can be read back, and fails otherwise (`closeDay_eq_ok`); so
rewriting it again changes nothing.  The loop of `close` rewrites each day on its own (`closeDays_eq`).
-/

namespace TrustedReleases

open Lib

namespace DayLog

variable {ν : Type} {c : Codec ν} {s : Directory} {day : Day} {content : Bytes} {es : List Entry}

/-- The content is the lines of entries of the day. -/
structure Holds (c : Codec ν) (day : Day) (content : Bytes) (es : List Entry) : Prop where
  content_eq : content = linesOf es
  entries : ∀ e ∈ es, e.1.day = dateText day ∧ ∃ record, entry c record = .ok e

/-- The content is the lines of entries of the day, in the order of the entries. -/
def SortedDay (c : Codec ν) (day : Day) (content : Bytes) : Prop :=
  ∃ es, Holds c day content es ∧ es.Pairwise fun a b => a.1.order ≤ b.1.order

/-- Every line can be read back as its entry. -/
def Readable (c : Codec ν) (es : List Entry) : Prop :=
  ∀ e ∈ es, ∃ record, c.loads e.2 = some record ∧ entry c record = .ok e

theorem Holds.nil : Holds c day [] [] := ⟨rfl, by simp⟩

theorem Holds.append (h : Holds c day content es) {e : Entry} (hday : e.1.day = dateText day) {record : Json ν}
    (he : entry c record = .ok e) : Holds c day (content ++ e.2) (es ++ [e]) where
  content_eq := by simp [h.content_eq, linesOf]
  entries := by
    intro x hx
    rcases List.mem_append.1 hx with hx | hx
    · exact h.entries x hx
    · obtain rfl : x = e := by simpa using hx
      exact ⟨hday, record, he⟩

/-- The same entries in another order. -/
theorem Holds.perm (h : Holds c day content es) {es' : List Entry} (hp : es'.Perm es) :
    Holds c day (linesOf es') es' := ⟨rfl, fun e he => h.entries e (hp.mem_iff.1 he)⟩

private theorem Holds.isLine (hc : c.Lawful) (h : Holds c day content es) : ∀ l ∈ es.map (·.2), IsLine newline l := by
  intro l hl
  obtain ⟨e, he, rfl⟩ := List.mem_map.1 hl
  obtain ⟨-, record, hrecord⟩ := h.entries e he
  exact entry_isLine hc hrecord

theorem Holds.lines_eq (hc : c.Lawful) (h : Holds c day content es) : lines newline content = es.map (·.2) := by
  rw [h.content_eq]
  exact lines_flatten (h.isLine hc)

theorem sortEntries_perm (es : List Entry) : (sortEntries es).Perm es := orderBy_perm _ es

theorem sortEntries_pairwise (es : List Entry) :
    (sortEntries es).Pairwise fun a b => a.1.order ≤ b.1.order := orderBy_pairwise _ es

theorem Readable.sort (h : Readable c es) : Readable c (sortEntries es) :=
  fun e he => h e ((sortEntries_perm es).mem_iff.1 he)

/-! ### Reading and building -/

private theorem read_ok {records : List (Json ν)} (h : read c day content = .ok records) :
    List.Forall₂ (fun l r => c.loads l = some r) (lines newline content) records := by
  have hall := mapM_eq_ok.1 h
  have hmap := List.forall₂_map_left_iff (f := Prod.fst) (l := (lines newline content).zipIdx 1) (u := records)
    (R := fun l r => c.loads l = some r)
  rw [List.zipIdx_map_fst] at hmap
  refine hmap.2 (hall.imp fun l r hlr => ?_)
  split at hlr
  · cases hlr
  · simpa using hlr

private theorem read_of_loads {records : List (Json ν)}
    (hlines : ∀ l ∈ lines newline content, l.getLast? = some newline)
    (h : List.Forall₂ (fun l r => c.loads l = some r) (lines newline content) records) :
    read c day content = .ok records := by
  refine mapM_eq_ok.2 ?_
  have hmap := List.forall₂_map_left_iff (f := Prod.fst) (l := (lines newline content).zipIdx 1) (u := records)
    (R := fun l r => l.getLast? = some newline ∧ c.loads l = some r)
  rw [List.zipIdx_map_fst] at hmap
  have hboth : List.Forall₂ (fun l r => l.getLast? = some newline ∧ c.loads l = some r) (lines newline content)
      records := by
    refine (List.forall₂_iff_get.2 ⟨h.length_eq, fun i hi hi' => ⟨hlines _ (List.get_mem ..), ?_⟩⟩)
    exact (List.forall₂_iff_get.1 h).2 i hi hi'
  refine (hmap.1 hboth).imp fun l r hlr => ?_
  rw [if_neg (by simp [hlr.1]), demand_eq_ok]
  exact hlr.2

/-- Building one day from records of that day gives their lines in the order of the entries. -/
private theorem build_day {records : List (Json ν)} (h : List.Forall₂ (fun r e => entry c r = .ok e) records es)
    (hday : ∀ e ∈ es, e.1.day = dateText day) :
    ∃ days, build c records day day = .ok days ∧ days.get day = some (linesOf (sortEntries es)) := by
  have hsorted : ∀ e ∈ sortEntries es, e.1.day = dateText day :=
    fun e he => hday e ((sortEntries_perm es).mem_iff.1 he)
  have hrange : dayRange day day = [day] := by
    simp [dayRange]
  have hfind : (sortEntries es).find? (fun e => decide (e.1.day ∉ (dayRange day day).map dateText)) = none := by
    rw [List.find?_eq_none]
    intro e he
    simp [hrange, hsorted e he]
  have hfilter : (sortEntries es).filter (fun e => decide (e.1.day = dateText day)) = sortEntries es :=
    List.filter_eq_self.2 fun e he => by simp [hsorted e he]
  refine ⟨Dict.ofKeys (dayRange day day) fun d =>
    linesOf ((sortEntries es).filter fun e => decide (e.1.day = dateText d)), ?_, ?_⟩
  · simp only [build, mapM_eq_ok.2 h, ok_bind, hfind, pure_eq_ok]
    exact raiseIf_bind_eq_ok.2 ⟨lt_irrefl day, rfl⟩
  · rw [Dict.get_ofKeys, if_pos (by simp [hrange]), hfilter]

/-- Building ends well only if every record is an entry. -/
private theorem build_ok {records : List (Json ν)} {first last : Day} {days : Dict Day Bytes}
    (h : build c records first last = .ok days) : ∃ es, List.Forall₂ (fun r e => entry c r = .ok e) records es := by
  unfold build at h
  rw [raiseIf_bind_eq_ok] at h
  obtain ⟨es, hes, -⟩ := bind_eq_ok h.2
  exact ⟨es, mapM_eq_ok.1 hes⟩

/-! ### Rewriting a day -/

/-- The records that are read from the lines of entries are those entries, if they are entries at all. -/
private theorem entries_reread (hc : c.Lawful) {records : List (Json ν)} {es' : List Entry}
    (hentry : ∀ e ∈ es, ∃ record, entry c record = .ok e)
    (hread : List.Forall₂ (fun l r => c.loads l = some r) (es.map (·.2)) records)
    (hes : List.Forall₂ (fun r e => entry c r = .ok e) records es') : es' = es ∧ Readable c es := by
  induction es generalizing records es' with
  | nil =>
    cases hread
    cases hes
    exact ⟨rfl, by simp [Readable]⟩
  | cons e es ih =>
    cases hread with
    | cons hload hread =>
    cases hes with
    | cons he' hes =>
    rename_i e' _
    obtain ⟨hrest, hreadable⟩ := ih (fun x hx => hentry x (List.mem_cons_of_mem _ hx)) hread hes
    obtain ⟨record, hrecord⟩ := hentry e List.mem_cons_self
    obtain ⟨record', hload', hsame⟩ := entry_reread hc hrecord
    obtain rfl := Option.some.inj (hload.symm.trans hload')
    obtain rfl : e' = e := hsame _ he'
    refine ⟨by rw [hrest], fun x hx => ?_⟩
    rcases List.mem_cons.1 hx with rfl | hx
    · exact ⟨_, hload', he'⟩
    · exact hreadable x hx

private theorem records_of_readable (h : Readable c es) :
    ∃ records, List.Forall₂ (fun l r => c.loads l = some r) (es.map (·.2)) records ∧
      List.Forall₂ (fun r e => entry c r = .ok e) records es := by
  induction es with
  | nil => exact ⟨[], .nil, .nil⟩
  | cons e es ih =>
    obtain ⟨record, hload, hentry⟩ := h e List.mem_cons_self
    obtain ⟨records, hloads, hentries⟩ := ih fun x hx => h x (List.mem_cons_of_mem _ hx)
    exact ⟨record :: records, .cons hload hloads, .cons hentry hentries⟩

/-- Rewriting a day file sorts its entries if they can all be read back, and fails otherwise. -/
theorem closeDay_eq_ok (hc : c.Lawful) (h : Holds c day (s.content day) es) {content' : Bytes} :
    closeDay c s day = .ok content' ↔
      day ∉ s.sealedDays ∧ Readable c es ∧ content' = linesOf (sortEntries es) := by
  have hlines := h.lines_eq hc
  unfold closeDay
  rw [raiseIf_bind_eq_ok]
  refine and_congr_right fun _ => ⟨fun hok => ?_, ?_⟩
  · obtain ⟨records, hread, hok⟩ := bind_eq_ok hok
    obtain ⟨days, hbuild, hok⟩ := bind_eq_ok hok
    obtain ⟨es', hes'⟩ := build_ok hbuild
    have hloads := read_ok hread
    rw [hlines] at hloads
    obtain ⟨rfl, hreadable⟩ := entries_reread hc (fun e he => (h.entries e he).2) hloads hes'
    obtain ⟨days', hbuild', hget⟩ := build_day hes' fun e he => (h.entries e he).1
    obtain rfl : days = days' := Except.ok.inj (hbuild.symm.trans hbuild')
    rw [hget] at hok
    exact ⟨hreadable, (Except.ok.inj hok).symm⟩
  · rintro ⟨hreadable, rfl⟩
    obtain ⟨records, hloads, hentries⟩ := records_of_readable hreadable
    obtain ⟨days, hbuild, hget⟩ := build_day hentries fun e he => (h.entries e he).1
    have hread : read c day (s.content day) = .ok records := by
      refine read_of_loads (fun l hl => ?_) (by rw [hlines]; exact hloads)
      rw [hlines] at hl
      exact (h.isLine hc l hl).getLast?
    rw [hread, ok_bind, hbuild, ok_bind, hget]
    rfl

/-! ### The loop of `close` -/

/-- The replacements of the days before the first one that cannot be rewritten, and that day's error. -/
def plan (rewrite : Day → Except Error Bytes) : List Day → List Replacement × Option Error
  | [] => ([], none)
  | day :: days =>
    match rewrite day with
    | .error e => ([], some e)
    | .ok content => (.file day content :: (plan rewrite days).1, (plan rewrite days).2)

theorem plan_congr {f g : Day → Except Error Bytes} {days : List Day} (h : ∀ d ∈ days, f d = g d) :
    plan f days = plan g days := by
  induction days with
  | nil => rfl
  | cons d days ih => rw [plan, plan, h d List.mem_cons_self, ih fun x hx => h x (List.mem_cons_of_mem _ hx)]

/-- The replacements of a plan are of its days, with the rewritten contents. -/
theorem mem_plan {f : Day → Except Error Bytes} {days : List Day} {r : Replacement} (h : r ∈ (plan f days).1) :
    ∃ d ∈ days, ∃ content, r = .file d content ∧ f d = .ok content := by
  induction days with
  | nil => cases h
  | cons d days ih =>
    rw [plan] at h
    split at h
    · cases h
    · rename_i content hf
      rcases List.mem_cons.1 h with rfl | h
      · exact ⟨d, List.mem_cons_self, content, rfl, hf⟩
      · obtain ⟨d', hd', hr⟩ := ih h
        exact ⟨d', List.mem_cons_of_mem _ hd', hr⟩

/-- A plan without an error rewrites each of its days. -/
theorem plan_complete {f : Day → Except Error Bytes} {days : List Day} (h : (plan f days).2 = none) {d : Day}
    (hd : d ∈ days) : ∃ content, f d = .ok content ∧ .file d content ∈ (plan f days).1 := by
  induction days with
  | nil => cases hd
  | cons d' days ih =>
    rw [plan] at h ⊢
    split at h
    · cases h
    · rename_i content hf
      rcases List.mem_cons.1 hd with rfl | hd
      · exact ⟨content, hf, List.mem_cons_self⟩
      · obtain ⟨content', hf', hmem⟩ := ih h hd
        exact ⟨content', hf', List.mem_cons_of_mem _ hmem⟩

@[simp] theorem replace_file_content (s : Directory) (d : Day) (content : Bytes) (x : Day) :
    (s.replace (.file d content)).content x = if x = d then content else s.content x := by
  simp only [Directory.content, Directory.replace, Dict.get_set]
  split <;> rfl

theorem closeDay_congr {t : Directory} (hcontent : s.content day = t.content day) (hsealed : s.sealedDays = t.sealedDays) :
    closeDay c s day = closeDay c t day := by
  unfold closeDay
  rw [hcontent, hsealed]

/-- The loop rewrites each day on its own: what it does to one does not change what it finds at another. -/
theorem closeDays_eq {days : List Day} (h : days.Nodup) (s : Directory) :
    closeDays c days s = plan (closeDay c s) days := by
  induction days generalizing s with
  | nil => rfl
  | cons d days ih =>
    rw [List.nodup_cons] at h
    rcases hd : closeDay c s d with e | content
    · simp only [closeDays, plan, hd]
    · have hrest : closeDays c days (s.replace (.file d content)) = plan (closeDay c s) days := by
        rw [ih h.2]
        refine plan_congr fun x hx => closeDay_congr ?_ rfl
        have hne : x ≠ d := by
          rintro rfl
          exact h.1 hx
        rw [replace_file_content, if_neg hne]
      simp only [closeDays, plan, hd, hrest]

theorem dayRange_nodup (first last : Day) : (dayRange first last).Nodup := List.nodup_range' ..

theorem mem_dayRange {first last d : Day} : d ∈ dayRange first last ↔ first ≤ d ∧ d ≤ last := by
  unfold dayRange
  rw [List.mem_range'_1]
  constructor
  · rintro ⟨h₁, h₂⟩
    exact ⟨h₁, by unfold Day at *; omega⟩
  · rintro ⟨h₁, h₂⟩
    exact ⟨h₁, by unfold Day at *; omega⟩

/-! ### Replacements -/

/-- The content that a replacement gives a day. -/
def Replacement.contentOf (d : Day) : Replacement → Option Bytes
  | .file day content => if day = d then some content else none
  | .marker _ => none

/-- The day that a replacement marks as closed. -/
def Replacement.through : Replacement → Option Day
  | .file _ _ => none
  | .marker through => some through

/-- A day has the content of its last replacement. -/
theorem replaceAll_get (rs : List Replacement) (s : Directory) (d : Day) :
    (s.replaceAll rs).files.get d = (rs.filterMap (·.contentOf d)).getLast?.or (s.files.get d) := by
  induction rs using List.reverseRecOn with
  | nil => rfl
  | append_singleton rs r ih =>
    have hstep : s.replaceAll (rs ++ [r]) = (s.replaceAll rs).replace r := by
      simp only [Directory.replaceAll, List.foldl_append, List.foldl_cons, List.foldl_nil]
    rw [hstep, List.filterMap_append, List.getLast?_append, Option.or_assoc, ← ih]
    cases r with
    | marker through => rfl
    | file day content =>
      by_cases hd : day = d
      · simp [Directory.replace, Replacement.contentOf, hd]
      · simp [Directory.replace, Replacement.contentOf, hd, Ne.symm hd]

/-- The marker is the last one that was written. -/
theorem replaceAll_closed (rs : List Replacement) (s : Directory) :
    (s.replaceAll rs).closed = (rs.filterMap (·.through)).getLast?.or s.closed := by
  induction rs using List.reverseRecOn with
  | nil => rfl
  | append_singleton rs r ih =>
    have hstep : s.replaceAll (rs ++ [r]) = (s.replaceAll rs).replace r := by
      simp only [Directory.replaceAll, List.foldl_append, List.foldl_cons, List.foldl_nil]
    rw [hstep, List.filterMap_append, List.getLast?_append, Option.or_assoc, ← ih]
    cases r <;> rfl

@[simp] theorem replaceAll_sealedDays (rs : List Replacement) (s : Directory) :
    (s.replaceAll rs).sealedDays = s.sealedDays := by
  induction rs generalizing s with
  | nil => rfl
  | cons r rs ih =>
    have hstep : s.replaceAll (r :: rs) = (s.replace r).replaceAll rs := rfl
    rw [hstep, ih]
    cases r <;> rfl

end DayLog

end TrustedReleases
