import TrustedReleases.DayLog.Conservation
import TrustedReleases.Lib.Dates
import TrustedReleases.Lib.Sorted

/-!
# Building days from records

`build` sorts the entries of its records and gives every day of a range the lines of the entries of that day.  It fails
exactly if a record is malformed or its day is outside the range; the days, one after the other, hold the sorted lines of
all records, and the order of the records makes no difference (`build_partition`).
-/

namespace TrustedReleases

open Lib

namespace DayLog

variable {ν : Type}

/-! ### Values of JSON -/

/-- The values are the same as values of JSON: the order of the members of an object is not part of it. -/
inductive Json.Same : Json ν → Json ν → Prop where
  | null : Same .null .null
  | bool (b : Bool) : Same (.bool b) (.bool b)
  | number (n : ν) : Same (.number n) (.number n)
  | string (s : Str) : Same (.string s) (.string s)
  | array (items items' : List (Json ν)) (hlength : items.length = items'.length)
      (h : ∀ (i : Nat) (v w : Json ν), items[i]? = some v → items'[i]? = some w → Same v w) : Same (.array items) (.array items')
  | object (members members' : List (Str × Json ν))
      (hkeys : ∀ k, (members.lookup k).isSome = (members'.lookup k).isSome)
      (h : ∀ (k : Str) (v w : Json ν), members.lookup k = some v → members'.lookup k = some w → Same v w) :
      Same (.object members) (.object members')

/-- Canonical JSON is a text of values of JSON, and different values have different texts. -/
structure Codec.Canonical (c : Codec ν) : Prop where
  same : ∀ v w, v.Same w → c.dumps v = c.dumps w
  inj : ∀ v w b, c.dumps v = some b → c.dumps w = some b → v.Same w

/-! ### Records -/

/-- The record is that of an entry. -/
def IsRecord (c : Codec ν) (r : Json ν) : Prop := ∃ e, entry c r = .ok e

/-- The entry of the record is one of a date. -/
def LiesOn (c : Codec ν) (r : Json ν) (d : Date) : Prop := ∃ e, entry c r = .ok e ∧ e.1.day = dateText d.1

variable {c : Codec ν}

private theorem entry_timestamp {r : Json ν} {e : Entry} (h : entry c r = .ok e) :
    isInstantText e.1.timestamp = true := by
  unfold entry at h
  split at h
  · rw [raiseIf_bind_eq_ok] at h
    have h := h.2
    split at h
    · rw [raiseIf_bind_eq_ok, demand_bind_eq_ok] at h
      obtain ⟨hinstant, eventText, -, h⟩ := h
      rw [demand_bind_eq_ok] at h
      obtain ⟨text, -, h⟩ := h
      rw [← Except.ok.inj h]
      simpa using hinstant
    · cases h
  · cases h

theorem lookup_isSome {members : List (Str × Json ν)} {k : Str} :
    (members.lookup k).isSome = true ↔ k ∈ members.map Prod.fst := by
  induction members with
  | nil => simp
  | cons m members ih =>
    rw [List.lookup_cons, List.map_cons, List.mem_cons]
    by_cases hk : k = m.1
    · simp [hk]
    · have hne : (k == m.1) = false := by simpa using hk
      rw [hne, or_iff_right hk]
      exact ih

private theorem entry_fields {members : List (Str × Json ν)} {e : Entry} (h : entry c (.object members) = .ok e)
    (k : Str) :
    (members.lookup k).isSome = true ↔ k ∈ fieldNames := by
  unfold entry at h
  rw [raiseIf_bind_eq_ok, not_not] at h
  rw [lookup_isSome]
  exact ⟨h.1.1 k, h.1.2 k⟩

/-- Records with the same key are the same, and have the same line. -/
private theorem entry_determined (hc : c.Canonical) {r r' : Json ν} {e e' : Entry} (h : entry c r = .ok e)
    (h' : entry c r' = .ok e') (hkey : e.1 = e'.1) : e = e' := by
  obtain ⟨members, event, text, rfl, hts, hlogger, hlevel, hevent, hdumps, htext, hline⟩ := entry_ok h
  obtain ⟨members', event', text', rfl, hts', hlogger', hlevel', hevent', hdumps', htext', hline'⟩ := entry_ok h'
  rw [← hkey] at hts' hlogger' hlevel' hdumps'
  have hsame : (Json.object members).Same (.object members') := by
    refine .object members members' (fun k => ?_) fun k v w hv hw => ?_
    · have hfields := entry_fields h k
      have hfields' := entry_fields h' k
      rw [Bool.eq_iff_iff, hfields, hfields']
    · have hin : k ∈ fieldNames := (entry_fields h k).1 (by rw [hv]; rfl)
      have hstring : ∀ s, members.lookup k = some (.string s) → members'.lookup k = some (.string s) → v.Same w := by
        intro s hs hs'
        rw [hs] at hv
        rw [hs'] at hw
        rw [← Option.some.inj hv, ← Option.some.inj hw]
        exact .string s
      simp only [fieldNames, List.mem_cons, List.not_mem_nil, or_false] at hin
      rcases hin with rfl | rfl | rfl | rfl
      · rw [hevent] at hv
        rw [hevent'] at hw
        rw [← Option.some.inj hv, ← Option.some.inj hw]
        exact hc.inj _ _ _ hdumps hdumps'
      · exact hstring _ hlevel hlevel'
      · exact hstring _ hlogger hlogger'
      · exact hstring _ hts hts'
  have htexts : text = text' := by
    have heq := hc.same _ _ hsame
    rw [htext, htext'] at heq
    exact Option.some.inj heq
  exact Prod.ext hkey (by rw [hline, hline', htexts])

/-- The record of an entry lies on a date. -/
private theorem exists_liesOn {r : Json ν} {e : Entry} (h : entry c r = .ok e) : ∃ d : Date, e.1.day = dateText d.1 :=
  exists_date (entry_timestamp h)

/-! ### The order of the entries -/

private theorem EntryKey.order_inj {k k' : EntryKey} (h : k.order = k'.order) : k = k' := by
  unfold EntryKey.order at h
  simp only [EmbeddingLike.apply_eq_iff_eq, Prod.mk.injEq] at h
  cases k
  cases k'
  simpa using h

/-- The days of entries that are in order are in order. -/
private theorem day_le {r r' : Json ν} {e e' : Entry} (h : entry c r = .ok e) (h' : entry c r' = .ok e')
    (hle : e.1.order ≤ e'.1.order) : e.1.day ≤ e'.1.day := by
  have htimestamp : e.1.timestamp ≤ e'.1.timestamp := by
    rcases Prod.Lex.le_iff.1 hle with hlt | heq
    · exact le_of_lt hlt
    · exact le_of_eq heq.1
  have hlength : ∀ s, isInstantText s = true → s.length = 27 := by
    intro s hs
    unfold isInstantText at hs
    simp only [Bool.and_eq_true, decide_eq_true_eq] at hs
    exact hs.1.1.1.1.1.1.1.1.1
  by_contra hnot
  have hlt : e'.1.timestamp.take 10 < e.1.timestamp.take 10 := not_le.1 hnot
  have hsame : (e'.1.timestamp.take 10).length = (e.1.timestamp.take 10).length := by
    rw [List.length_take, List.length_take, hlength _ (entry_timestamp h), hlength _ (entry_timestamp h')]
  have hwhole := ((diverges_of_lt hsame hlt).append_right (e'.1.timestamp.drop 10) (e.1.timestamp.drop 10)).lt
  rw [List.take_append_drop, List.take_append_drop] at hwhole
  exact not_lt_of_ge htimestamp hwhole

/-! ### The days of a range -/

section Range

variable {first last : Date}

private theorem date_of_mem {d : Day} (h : d ∈ dayRange first.1 last.1) : 1 ≤ d ∧ d ≤ 3652059 := by
  have hbounds := mem_dayRange.1 h
  exact ⟨le_trans first.2.1 hbounds.1, le_trans hbounds.2 last.2.2⟩

private theorem dateText_mem_iff {d : Date} :
    dateText d.1 ∈ (dayRange first.1 last.1).map dateText ↔ first.1 ≤ d.1 ∧ d.1 ≤ last.1 := by
  rw [← mem_dayRange, List.mem_map]
  constructor
  · intro h
    obtain ⟨x, hx, heq⟩ := h
    have hsame := @dateText_inj ⟨x, date_of_mem hx⟩ d heq
    rwa [← hsame]
  · intro h
    exact ⟨d.1, h, rfl⟩

private theorem dayTexts_pairwise : ((dayRange first.1 last.1).map dateText).Pairwise (· < ·) := by
  rw [List.pairwise_map]
  have hrange : (dayRange first.1 last.1).Pairwise (· < ·) := List.pairwise_lt_range'
  refine hrange.imp_of_mem fun ha hb hlt => ?_
  exact (dateText_diverges (date_of_mem ha).1 (date_of_mem hb).2 hlt).lt

/-! ### Building -/

variable {records records' : List (Json ν)} {es es' : List Entry}

private theorem isRecord_of_mem (h : List.Forall₂ (fun r e => entry c r = .ok e) records es) {e : Entry} (he : e ∈ es) :
    ∃ r ∈ records, entry c r = .ok e := (exists_of_forall₂ h).2 e he

private theorem exists_entries (h : ∀ r ∈ records, ∃ e, entry c r = .ok e) :
    ∃ es, List.Forall₂ (fun r e => entry c r = .ok e) records es := by
  induction records with
  | nil => exact ⟨[], .nil⟩
  | cons r records ih =>
    rw [List.forall_mem_cons] at h
    obtain ⟨e, he⟩ := h.1
    obtain ⟨es, hes⟩ := ih h.2
    exact ⟨e :: es, .cons he hes⟩

/-- What the days of a range hold, of the entries of some records. -/
def contentsOf (first last : Day) (es : List Entry) : Dict Day Bytes :=
  Dict.ofKeys (dayRange first last) fun day => linesOf ((sortEntries es).filter fun e => decide (e.1.day = dateText day))

/-- The entries of records with days in the range are built into the days, and others are refused. -/
private theorem build_eq_ok_iff (hle : first.1 ≤ last.1) {days : Dict Day Bytes} :
    build c records first.1 last.1 = .ok days ↔ ∃ es, List.Forall₂ (fun r e => entry c r = .ok e) records es ∧
      (∀ e ∈ es, e.1.day ∈ (dayRange first.1 last.1).map dateText) ∧ days = contentsOf first.1 last.1 es := by
  unfold build
  rw [raiseIf_bind_eq_ok, and_iff_right (Nat.not_lt.2 hle)]
  constructor
  · intro h
    obtain ⟨es, hes, h⟩ := bind_eq_ok h
    refine ⟨es, mapM_eq_ok.1 hes, ?_⟩
    simp only [] at h
    split at h
    · cases h
    · rename_i hfind
      refine ⟨fun e he => ?_, (Except.ok.inj h).symm⟩
      have hnone := List.find?_eq_none.1 hfind e ((sortEntries_perm es).mem_iff.2 he)
      simpa using hnone
  · intro h
    obtain ⟨es, hes, hdays, rfl⟩ := h
    have hfind : (sortEntries es).find? (fun e => decide (e.1.day ∉ (dayRange first.1 last.1).map dateText)) = none := by
      rw [List.find?_eq_none]
      intro e he
      simpa using hdays e ((sortEntries_perm es).mem_iff.1 he)
    rw [mapM_eq_ok.2 hes, ok_bind]
    simp only [hfind]
    rfl

/-- Building fails exactly if a record is malformed or lies on a day outside the range. -/
private theorem build_fails_iff (hle : first.1 ≤ last.1) :
    (∃ e, build c records first.1 last.1 = .error e) ↔
      ∃ r ∈ records, ¬ IsRecord c r ∨ ∃ d : Date, LiesOn c r d ∧ ¬ (first.1 ≤ d.1 ∧ d.1 ≤ last.1) := by
  constructor
  · intro h
    obtain ⟨error, herror⟩ := h
    by_contra hnone
    push Not at hnone
    have hall : ∀ r ∈ records, ∃ e, entry c r = .ok e := fun r hr => (hnone r hr).1
    obtain ⟨es, hes⟩ := exists_entries hall
    have hdays : ∀ e ∈ es, e.1.day ∈ (dayRange first.1 last.1).map dateText := by
      intro e he
      obtain ⟨r, hr, hentry⟩ := isRecord_of_mem hes he
      obtain ⟨d, hd⟩ := exists_liesOn hentry
      rw [hd, dateText_mem_iff]
      exact (hnone r hr).2 d ⟨e, hentry, hd⟩
    rw [(build_eq_ok_iff hle).2 ⟨es, hes, hdays, rfl⟩] at herror
    cases herror
  · intro h
    obtain ⟨r, hr, hbad⟩ := h
    cases hbuild : build c records first.1 last.1 with
    | error e => exact ⟨e, rfl⟩
    | ok days =>
      exfalso
      obtain ⟨es, hes, hdays, -⟩ := (build_eq_ok_iff hle).1 hbuild
      obtain ⟨e, he, hentry⟩ := (exists_of_forall₂ hes).1 r hr
      rcases hbad with hmalformed | ⟨d, ⟨e', hentry', hday⟩, hout⟩
      · exact hmalformed ⟨e, hentry⟩
      · obtain rfl := Except.ok.inj (hentry.symm.trans hentry')
        have hin := hdays e he
        rw [hday, dateText_mem_iff] at hin
        exact hout hin

/-- The entries of the same records in another order are sorted alike. -/
private theorem sortEntries_congr (hc : c.Canonical) (h : List.Forall₂ (fun r e => entry c r = .ok e) records es)
    (hperm : es.Perm es') : sortEntries es = sortEntries es' := by
  refine orderBy_congr hperm fun a ha b hb heq => ?_
  obtain ⟨r, -, hr⟩ := isRecord_of_mem h ha
  obtain ⟨r', -, hr'⟩ := isRecord_of_mem h hb
  exact entry_determined hc hr hr' (EntryKey.order_inj heq)

/-- The days, one after the other, hold the lines of all entries in their order. -/
private theorem contentsOf_flatten (h : List.Forall₂ (fun r e => entry c r = .ok e) records es)
    (hdays : ∀ e ∈ es, e.1.day ∈ (dayRange first.1 last.1).map dateText) :
    (dayRange first.1 last.1).flatMap (fun d => ((contentsOf first.1 last.1 es).get d).getD []) =
      linesOf (sortEntries es) := by
  have hsorted : (sortEntries es).Pairwise fun a b => a.1.day ≤ b.1.day := by
    refine (sortEntries_pairwise es).imp_of_mem fun ha hb hle => ?_
    obtain ⟨r, -, hr⟩ := isRecord_of_mem h ((sortEntries_perm es).mem_iff.1 ha)
    obtain ⟨r', -, hr'⟩ := isRecord_of_mem h ((sortEntries_perm es).mem_iff.1 hb)
    exact day_le hr hr' hle
  have hparts : ((dayRange first.1 last.1).map dateText).flatMap
      (fun d => (sortEntries es).filter fun e => decide (e.1.day = d)) = sortEntries es := by
    convert flatMap_filter_of_sorted dayTexts_pairwise hsorted
      fun e he => hdays e ((sortEntries_perm es).mem_iff.1 he)
  have hlines : ∀ ds : List Str, ds.flatMap (fun d => linesOf ((sortEntries es).filter fun e => decide (e.1.day = d))) =
      linesOf (ds.flatMap fun d => (sortEntries es).filter fun e => decide (e.1.day = d)) := by
    intro ds
    induction ds with
    | nil => rfl
    | cons d ds ih =>
      rw [List.flatMap_cons, List.flatMap_cons, ih, linesOf, linesOf, linesOf, List.map_append, List.flatten_append]
  rw [← congrArg linesOf hparts, ← hlines, List.flatMap_map]
  apply List.flatMap_congr
  intro d hd
  rw [contentsOf, Dict.get_ofKeys, if_pos hd]
  rfl

end Range

/-- Days are built from records whatever their order: exactly a malformed record or a day outside the range is refused,
and every day of the range gets the lines of its entries, which together are the lines of all entries, sorted. -/
theorem build_partition (hc : c.Canonical) (records : List (Json ν)) {first last : Date} (hle : first.1 ≤ last.1) :
    ((∃ e, build c records first.1 last.1 = .error e) ↔
      ∃ r ∈ records, ¬ IsRecord c r ∨ ∃ d : Date, LiesOn c r d ∧ ¬ (first.1 ≤ d.1 ∧ d.1 ≤ last.1)) ∧
    ∀ days, build c records first.1 last.1 = .ok days →
      (∀ d, (days.get d).isSome ↔ first.1 ≤ d ∧ d ≤ last.1) ∧
      (∃ es sorted, List.Forall₂ (fun r e => entry c r = .ok e) records es ∧ sorted.Perm es ∧
        sorted.Pairwise (fun a b => a.1.order ≤ b.1.order) ∧
        (dayRange first.1 last.1).flatMap (fun d => (days.get d).getD []) = linesOf sorted ∧
        ∀ d content, days.get d = some content →
          content = linesOf (sorted.filter fun e => decide (e.1.day = dateText d))) ∧
      ∀ records', records'.Perm records → build c records' first.1 last.1 = .ok days := by
  refine ⟨build_fails_iff hle, fun days hbuild => ?_⟩
  obtain ⟨es, hes, hdays, rfl⟩ := (build_eq_ok_iff hle).1 hbuild
  have hget : ∀ d, (contentsOf first.1 last.1 es).get d = if d ∈ dayRange first.1 last.1 then
      some (linesOf ((sortEntries es).filter fun e => decide (e.1.day = dateText d))) else none :=
    Dict.get_ofKeys _ _
  refine ⟨fun d => ?_, ⟨es, sortEntries es, hes, sortEntries_perm es, sortEntries_pairwise es,
    contentsOf_flatten hes hdays, fun d content hcontent => ?_⟩, fun records' hperm => ?_⟩
  · rw [hget, ← mem_dayRange]
    split <;> simp [*]
  · rw [hget] at hcontent
    split at hcontent
    · exact (Option.some.inj hcontent).symm
    · cases hcontent
  · obtain ⟨es', hes', hperm'⟩ := List.perm_comp_forall₂ hperm hes
    refine (build_eq_ok_iff hle).2 ⟨es', hes', fun e he => hdays e (hperm'.mem_iff.1 he), ?_⟩
    rw [contentsOf, contentsOf, sortEntries_congr hc hes' hperm']

/-! ### Two records of one day -/

def stringOf : Option (Json Unit) → Option Str
  | some (.string s) => some s
  | _ => none

/-- The timestamp of an object with the four fields, an empty string as its event, and the sample's level and logger. -/
def noteTimestamp (members : List (Str × Json Unit)) : Option Str :=
  if (∀ k ∈ members.map Prod.fst, k ∈ fieldNames) ∧ stringOf (members.lookup eventField) = some [] ∧
      stringOf (members.lookup levelField) = some "info".toList ∧
      stringOf (members.lookup loggerField) = some "atr".toList then
    stringOf (members.lookup timestampField)
  else none

/-- The canonical form of such an object. -/
def noteText (timestamp : Str) : Bytes :=
  ascii "\x7b\"event\":\"\",\"level\":\"info\",\"logger\":\"atr\",\"timestamp\":\"".toList ++ ascii timestamp ++
    ascii "\"\x7d".toList

/-- A codec that knows the empty string and such objects with the timestamps of two instants. -/
def noteCodec : Codec Unit where
  dumps
    | .string s => if s = [] then some (ascii "\"\"".toList) else none
    | .object members =>
      (noteTimestamp members).bind fun timestamp =>
        if timestamp = instantText earlier ∨ timestamp = instantText later then some (noteText timestamp) else none
    | _ => none
  loads _ := none

private theorem stringOf_same {members members' : List (Str × Json Unit)} {k : Str}
    (hkeys : (members.lookup k).isSome = (members'.lookup k).isSome)
    (h : ∀ v w, members.lookup k = some v → members'.lookup k = some w → v.Same w) :
    stringOf (members.lookup k) = stringOf (members'.lookup k) := by
  cases hv : members.lookup k with
  | none =>
    rw [hv] at hkeys
    have hnone : members'.lookup k = none := by simpa using hkeys.symm
    rw [hnone]
  | some v =>
    rw [hv] at hkeys
    obtain ⟨w, hw⟩ := Option.isSome_iff_exists.1 hkeys.symm
    rw [hw]
    have hsame := h v w hv hw
    cases hsame <;> rfl

private theorem stringOf_eq_some {v : Option (Json Unit)} {s : Str} (h : stringOf v = some s) :
    v = some (.string s) := by
  unfold stringOf at h
  split at h
  · rw [← Option.some.inj h]
  · cases h

private theorem noteTimestamp_eq_some {members : List (Str × Json Unit)} {timestamp : Str}
    (h : noteTimestamp members = some timestamp) :
    (∀ k, (members.lookup k).isSome = true → k ∈ fieldNames) ∧ members.lookup eventField = some (.string []) ∧
      members.lookup levelField = some (.string "info".toList) ∧ members.lookup loggerField = some (.string "atr".toList) ∧
      members.lookup timestampField = some (.string timestamp) := by
  unfold noteTimestamp at h
  rw [Option.ite_none_right_eq_some] at h
  obtain ⟨⟨hkeys, hevent, hlevel, hlogger⟩, htimestamp⟩ := h
  refine ⟨fun k hk => hkeys k (lookup_isSome.1 hk), stringOf_eq_some hevent, stringOf_eq_some hlevel,
    stringOf_eq_some hlogger, stringOf_eq_some htimestamp⟩

/-- Two such objects with the same timestamp are the same. -/
private theorem same_of_noteTimestamp {members members' : List (Str × Json Unit)} {timestamp : Str}
    (h : noteTimestamp members = some timestamp) (h' : noteTimestamp members' = some timestamp) :
    (Json.object members).Same (.object members') := by
  obtain ⟨hkeys, hevent, hlevel, hlogger, htimestamp⟩ := noteTimestamp_eq_some h
  obtain ⟨hkeys', hevent', hlevel', hlogger', htimestamp'⟩ := noteTimestamp_eq_some h'
  have hlookup : ∀ k ∈ fieldNames, ∃ s, members.lookup k = some (.string s) ∧ members'.lookup k = some (.string s) := by
    intro k hk
    simp only [fieldNames, List.mem_cons, List.not_mem_nil, or_false] at hk
    rcases hk with rfl | rfl | rfl | rfl
    · exact ⟨_, hevent, hevent'⟩
    · exact ⟨_, hlevel, hlevel'⟩
    · exact ⟨_, hlogger, hlogger'⟩
    · exact ⟨_, htimestamp, htimestamp'⟩
  refine .object members members' (fun k => ?_) fun k v w hv hw => ?_
  · rw [Bool.eq_iff_iff]
    constructor
    · intro hk
      obtain ⟨s, -, hs⟩ := hlookup k (hkeys k hk)
      rw [hs]
      rfl
    · intro hk
      obtain ⟨s, hs, -⟩ := hlookup k (hkeys' k hk)
      rw [hs]
      rfl
  · obtain ⟨s, hs, hs'⟩ := hlookup k (hkeys k (by rw [hv]; rfl))
    rw [hs] at hv
    rw [hs'] at hw
    rw [← Option.some.inj hv, ← Option.some.inj hw]
    exact .string s

private theorem noteText_inj {t t' : Str} (ht : t = instantText earlier ∨ t = instantText later)
    (ht' : t' = instantText earlier ∨ t' = instantText later) (h : noteText t = noteText t') : t = t' := by
  have hne : noteText (instantText earlier) ≠ noteText (instantText later) := by decide +kernel
  rcases ht with rfl | rfl
  · rcases ht' with rfl | rfl
    · rfl
    · exact absurd h hne
  · rcases ht' with rfl | rfl
    · exact absurd h.symm hne
    · rfl

/-- What the codec writes is the empty string or such an object. -/
private theorem noteCodec_dumps {v : Json Unit} {b : Bytes} (h : noteCodec.dumps v = some b) :
    (v = .string [] ∧ b = ascii "\"\"".toList) ∨ ∃ members timestamp, v = .object members ∧
      noteTimestamp members = some timestamp ∧ (timestamp = instantText earlier ∨ timestamp = instantText later) ∧
      b = noteText timestamp := by
  unfold noteCodec at h
  simp only [] at h
  split at h
  · rw [Option.ite_none_right_eq_some] at h
    exact .inl ⟨by rw [h.1], (Option.some.inj h.2).symm⟩
  · obtain ⟨timestamp, htimestamp, h⟩ := Option.bind_eq_some_iff.1 h
    rw [Option.ite_none_right_eq_some] at h
    exact .inr ⟨_, timestamp, rfl, htimestamp, h.1, (Option.some.inj h.2).symm⟩
  · cases h

private theorem noteCodec_canonical : noteCodec.Canonical where
  same := by
    intro v w h
    cases h with
    | null => rfl
    | bool => rfl
    | number => rfl
    | string => rfl
    | array => rfl
    | object members members' hkeys h =>
      have hstring : ∀ k, stringOf (members.lookup k) = stringOf (members'.lookup k) :=
        fun k => stringOf_same (hkeys k) (h k)
      have hfields : (∀ k ∈ members.map Prod.fst, k ∈ fieldNames) ↔ ∀ k ∈ members'.map Prod.fst, k ∈ fieldNames := by
        refine forall_congr' fun k => ?_
        rw [← lookup_isSome, ← lookup_isSome, hkeys k]
      have htimestamp : noteTimestamp members = noteTimestamp members' := by
        simp only [noteTimestamp, hstring, hfields]
      show (noteTimestamp members).bind _ = (noteTimestamp members').bind _
      rw [htimestamp]
  inj := by
    intro v w b hv hw
    have hhead : ∀ t, (ascii "\"\"".toList : Bytes) ≠ noteText t := by
      intro t h
      have hbyte := congrArg List.head? h
      cases hbyte
    rcases noteCodec_dumps hv with ⟨rfl, rfl⟩ | ⟨members, t, rfl, ht, hknown, rfl⟩
    · rcases noteCodec_dumps hw with ⟨rfl, -⟩ | ⟨members', t', -, -, -, heq⟩
      · exact .string []
      · exact absurd heq (hhead t')
    · rcases noteCodec_dumps hw with ⟨-, heq⟩ | ⟨members', t', rfl, ht', hknown', heq⟩
      · exact absurd heq.symm (hhead t)
      · rw [← noteText_inj hknown hknown' heq] at ht'
        exact same_of_noteTimestamp ht ht'

def noteRecord (t : Instant) : Json Unit :=
  .object [(eventField, .string []), (levelField, .string "info".toList), (loggerField, .string "atr".toList),
    (timestampField, .string (instantText t))]

/-- Two records of one day, the later one first, are built into that day and the next, which stays empty. -/
theorem build_partition_twoRecords : ∃ days, build noteCodec [noteRecord later, noteRecord earlier] 739617 739618 =
      .ok days ∧ days.get 739617 = some (noteText (instantText earlier) ++ [newline] ++ noteText (instantText later) ++
        [newline]) ∧
      build noteCodec [noteRecord earlier, noteRecord later] 739617 739618 = .ok days := by
  have h := @build_partition _ _ noteCodec_canonical [noteRecord later, noteRecord earlier]
    ⟨739617, by decide⟩ ⟨739618, by decide⟩ (by decide)
  have hrun : ((build noteCodec [noteRecord later, noteRecord earlier] 739617 739618).toOption.bind
      fun days => days.get 739617) = some (noteText (instantText earlier) ++ [newline] ++ noteText (instantText later) ++
        [newline]) := by
    decide +kernel
  obtain ⟨days, hok, hget⟩ := Option.bind_eq_some_iff.1 hrun
  have hok := toOption_eq_some.1 hok
  exact ⟨days, hok, hget, (h.2 days hok).2.2 _ (.swap _ _ [])⟩

end DayLog

end TrustedReleases
