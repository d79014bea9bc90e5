import TrustedReleases.Lib.Bytes
import TrustedReleases.Lib.Calendar
import TrustedReleases.Lib.Except
import TrustedReleases.Lib.Query

/-!
# Entries of the audit day log

The lines of the audit day log (`atr/daylog.py`).  An entry is a JSON object with the fields `event`, `level`,
`logger` and `timestamp`, written in canonical form on a line of its own.  Canonical JSON (`rfc8785.dumps`) and the
decoding of a line are not part of the repository: they are a `Codec`, and `Codec.Lawful` is what the log relies on,
that a line holds no line feed and that what is read from it has no other canonical form than the line itself.
-/

namespace TrustedReleases

open Lib

namespace DayLog

/-- A JSON value, with the numbers of the decoder. -/
inductive Json (ν : Type) where
  | null
  | bool (b : Bool)
  | number (n : ν)
  | string (s : Str)
  | array (items : List (Json ν))
  | object (members : List (Str × Json ν))

variable {ν : Type}

/-- Writing and reading canonical JSON: `dumps` is `rfc8785.dumps` and `loads` decodes a line and parses it, refusing
repeated members.  Both have no result where they raise. -/
structure Codec (ν : Type) where
  dumps : Json ν → Option Bytes
  loads : Bytes → Option (Json ν)

/-- The second value has no canonical form other than that of the first, and is the same string if that is one.  (A
number that is read back can be outside the range of canonical JSON.) -/
def Codec.Reread (c : Codec ν) (v w : Json ν) : Prop :=
  (∀ b b', c.dumps v = some b → c.dumps w = some b' → b' = b) ∧ ∀ s, v = .string s → w = .string s

theorem Codec.Reread.refl (c : Codec ν) (v : Json ν) : c.Reread v v := by
  refine ⟨fun b b' hb hb' => ?_, fun s hs => hs⟩
  exact Option.some.inj (hb'.symm.trans hb)

/-- Canonical JSON has no line feed, and an object is read back from its line with its members. -/
structure Codec.Lawful (c : Codec ν) : Prop where
  no_newline : ∀ v b, c.dumps v = some b → newline ∉ b
  loads_dumps : ∀ members b, c.dumps (.object members) = some b →
    ∃ members', c.loads (b ++ [newline]) = some (.object members') ∧ c.Reread (.object members) (.object members') ∧
      ∀ k v, members.lookup k = some v → ∃ w, members'.lookup k = some w ∧ c.Reread v w

/-- The errors of the day log. -/
inductive Error where
  | fields
  | notStrings
  | timestamp
  | notCanonical
  | dayRange
  | outsideRange (instant : Str)
  | undecodable
  | unterminatedLine
  | line (day : Day) (number : Nat) (cause : Error)
  | unterminated (day : Day)
  | sealExists (day : Day)
  | closedDay
  | notCompleted
  deriving DecidableEq, Repr

/-- The texts of the errors that the module raises itself, for a directory. -/
def Error.message (directory : String) : Error → Option String
  | fields => some "Expected event, level, logger and timestamp fields"
  | notStrings => some "Timestamp, logger and level must be strings"
  | timestamp => some "Expected a UTC timestamp with six fractional digits and Z"
  | notCanonical => none
  | dayRange => some "The first day must not follow the last day"
  | outsideRange instant => some s!"Audit entry outside the requested day range: {String.ofList instant}"
  | undecodable => none
  | unterminatedLine => some "Unterminated JSONL line"
  | line day number cause =>
    (cause.message directory).map fun text => s!"{directory}/{String.ofList (dateText day)}.jsonl:{number}: {text}"
  | unterminated day => some s!"Unterminated JSONL line: {directory}/{String.ofList (dateText day)}.jsonl"
  | sealExists day => some s!"{directory}/{String.ofList (dateText day)}.seal.json"
  | closedDay => some "Cannot append to a closed audit day"
  | notCompleted => some "Only completed UTC days may be closed"

/-! ### Entries -/

def eventField : Str := "event".toList
def levelField : Str := "level".toList
def loggerField : Str := "logger".toList
def timestampField : Str := "timestamp".toList

/-- `FIELDS`. -/
def fieldNames : List Str := [eventField, levelField, loggerField, timestampField]

/-- The key by which entries are sorted. -/
structure EntryKey where
  timestamp : Str
  logger : Str
  level : Str
  event : Bytes
  deriving DecidableEq, Repr

/-- The order of the entries, that of the tuple. -/
def EntryKey.order (k : EntryKey) : Str ×ₗ Str ×ₗ Str ×ₗ Bytes :=
  toLex (k.timestamp, toLex (k.logger, toLex (k.level, k.event)))

/-- `timestamp[:10]`. -/
def EntryKey.day (k : EntryKey) : Str := k.timestamp.take 10

/-- An entry: its key and its line. -/
abbrev Entry := EntryKey × Bytes

/-- `_entry`. -/
def entry (c : Codec ν) (record : Json ν) : Except Error Entry :=
  match record with
  | .object members => do
    raiseIf (¬ ((∀ k ∈ members.map Prod.fst, k ∈ fieldNames) ∧ ∀ k ∈ fieldNames, k ∈ members.map Prod.fst)) .fields
    match members.lookup timestampField, members.lookup loggerField, members.lookup levelField,
      members.lookup eventField with
    | some (.string timestamp), some (.string logger), some (.string level), some event => do
      raiseIf (isInstantText timestamp = false) .timestamp
      let eventText ← demand (c.dumps event) .notCanonical
      let text ← demand (c.dumps (.object members)) .notCanonical
      return (⟨timestamp, logger, level, eventText⟩, text ++ [newline])
    | _, _, _, _ => .error .notStrings
  | _ => .error .fields

/-- What an entry is made of. -/
theorem entry_ok {c : Codec ν} {record : Json ν} {e : Entry} (h : entry c record = .ok e) :
    ∃ members event text, record = .object members ∧
      members.lookup timestampField = some (.string e.1.timestamp) ∧
      members.lookup loggerField = some (.string e.1.logger) ∧
      members.lookup levelField = some (.string e.1.level) ∧ members.lookup eventField = some event ∧
      c.dumps event = some e.1.event ∧ c.dumps (.object members) = some text ∧ e.2 = text ++ [newline] := by
  unfold entry at h
  split at h
  · rename_i members
    rw [raiseIf_bind_eq_ok] at h
    have h := h.2
    split at h
    · rename_i timestamp logger level event hts hlogger hlevel hevent
      rw [raiseIf_bind_eq_ok, demand_bind_eq_ok] at h
      obtain ⟨-, eventText, hdumps, h⟩ := h
      rw [demand_bind_eq_ok] at h
      obtain ⟨text, htext, h⟩ := h
      obtain rfl := Except.ok.inj h
      exact ⟨members, event, text, rfl, hts, hlogger, hlevel, hevent, hdumps, htext, rfl⟩
    · cases h
  · cases h

/-- The line of an entry is one line. -/
theorem entry_isLine {c : Codec ν} (hc : c.Lawful) {record : Json ν} {e : Entry} (h : entry c record = .ok e) :
    IsLine newline e.2 := by
  obtain ⟨members, event, text, -, -, -, -, -, -, htext, hline⟩ := entry_ok h
  exact ⟨text, hc.no_newline _ _ htext, hline⟩

/-- What is read from the line of an entry is no other entry. -/
theorem entry_reread {c : Codec ν} (hc : c.Lawful) {record : Json ν} {e : Entry} (h : entry c record = .ok e) :
    ∃ record', c.loads e.2 = some record' ∧ ∀ e', entry c record' = .ok e' → e' = e := by
  obtain ⟨members, event, text, rfl, hts, hlogger, hlevel, hevent, hdumps, htext, hline⟩ := entry_ok h
  obtain ⟨members', hloads, hself, hmembers⟩ := hc.loads_dumps members text htext
  refine ⟨.object members', by rw [hline, hloads], fun e' h' => ?_⟩
  obtain ⟨ms, event', text', hms, hts', hlogger', hlevel', hevent', hdumps', htext', hline'⟩ := entry_ok h'
  obtain rfl : members' = ms := Json.object.inj hms
  -- a string member is read back as it was
  have hstring : ∀ k s s', members.lookup k = some (.string s) → members'.lookup k = some (.string s') → s' = s := by
    intro k s s' hk hk'
    obtain ⟨w, hw, -, hs⟩ := hmembers k _ hk
    rw [hs s rfl, hk'] at hw
    exact Json.string.inj (Option.some.inj hw)
  have hevents : e'.1.event = e.1.event := by
    obtain ⟨w, hw, hsame, -⟩ := hmembers _ _ hevent
    rw [hevent'] at hw
    obtain rfl := Option.some.inj hw
    exact hsame _ _ hdumps hdumps'
  have htexts : text' = text := hself.1 _ _ htext htext'
  have hkey : e'.1 = e.1 := by
    cases hk : e.1
    cases hk' : e'.1
    simp only [hk, hk'] at hts hlogger hlevel hts' hlogger' hlevel' hevents
    simp [hstring _ _ _ hts hts', hstring _ _ _ hlogger hlogger', hstring _ _ _ hlevel hlevel', hevents]
  exact Prod.ext hkey (by rw [hline', hline, htexts])

end DayLog

end TrustedReleases
