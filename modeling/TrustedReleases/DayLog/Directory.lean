import TrustedReleases.DayLog.Entry
import TrustedReleases.Lib.Dict

/-!
# The directory of the audit day log

The day files, the `closed` marker and the operations `append` and `close` on them, each of which runs under the lock
of the directory.  `close` replaces one file after the other, each at once (`_replace`), and the marker last; it is
modelled by the list of its replacements, so that a `close` that is interrupted has made the first few of them.
Permissions, the lock and the temporary files of `_replace`, which no operation looks at, are not modelled.
-/

namespace TrustedReleases

open Lib

namespace DayLog

variable {ν : Type}

/-! ### Files and their rewriting -/

/-- `_read` of a day file. -/
def read (c : Codec ν) (day : Day) (content : Bytes) : Except Error (List (Json ν)) :=
  ((lines newline content).zipIdx 1).mapM fun l =>
    if l.1.getLast? ≠ some newline then .error (.line day l.2 .unterminatedLine)
    else demand (c.loads l.1) (.line day l.2 .undecodable)

/-- The days from the first to the last. -/
def dayRange (first last : Day) : List Day := List.range' first (last + 1 - first)

/-- The entries in their order. -/
def sortEntries (es : List Entry) : List Entry := orderBy (fun e => e.1.order) es

/-- The lines of the entries. -/
def linesOf (es : List Entry) : Bytes := (es.map (·.2)).flatten

/-- `build`: the contents of the days of the range. -/
def build (c : Codec ν) (records : List (Json ν)) (first last : Day) : Except Error (Dict Day Bytes) := do
  raiseIf (last < first) .dayRange
  let entries ← records.mapM (entry c)
  let days := dayRange first last
  match (sortEntries entries).find? fun e => decide (e.1.day ∉ days.map dateText) with
  | some e => .error (.outsideRange e.1.timestamp)
  | none =>
    return Dict.ofKeys days fun day => linesOf ((sortEntries entries).filter fun e => decide (e.1.day = dateText day))

/-- The directory: the day files, the `closed` marker and the days with a seal. -/
structure Directory where
  files : Dict Day Bytes
  closed : Option Day
  sealedDays : List Day

namespace Directory

/-- A directory without files. -/
def empty : Directory := ⟨∅, none, []⟩

/-- The content of a day's file, which is empty where there is none. -/
def content (s : Directory) (day : Day) : Bytes := (s.files.get day).getD []

/-- The day of the oldest day file. -/
def oldest (s : Directory) : Option Day := s.files.keys.min?

theorem oldest_eq_some {s : Directory} {day : Day} :
    s.oldest = some day ↔ (s.files.get day).isSome ∧ ∀ d, (s.files.get d).isSome → day ≤ d := by
  unfold oldest
  rw [List.min?_eq_some_iff, Dict.mem_keys]
  simp only [Dict.mem_keys]

theorem oldest_eq_none {s : Directory} : s.oldest = none ↔ ∀ d, s.files.get d = none := by
  unfold oldest
  rw [List.min?_eq_none_iff, List.eq_nil_iff_forall_not_mem]
  simp only [Dict.notMem_keys]

end Directory

/-! ### Appending -/

/-- `_current`: the time stamp of an entry, where its day is open. -/
def current (now : Instant) (s : Directory) : Except Error Str := do
  raiseIf (s.closed.any (fun closed => decide (now.day ≤ closed)) = true) .closedDay
  raiseIf (now.day ∈ s.sealedDays) (.sealExists now.day)
  return instantText now

/-- The entry that `append` writes. -/
def newEntry (c : Codec ν) (now : Instant) (logger level : Str) (event : Json ν) : Except Error Entry :=
  entry c (.object [(eventField, event), (levelField, .string level), (loggerField, .string logger),
    (timestampField, .string (instantText now))])

/-- `append`. -/
def append (c : Codec ν) (now : Instant) (logger level : Str) (event : Json ν) (s : Directory) :
    Except Error Directory := do
  let _ ← current now s
  let e ← newEntry c now logger level event
  let content := s.content now.day
  raiseIf (content ≠ [] ∧ content.getLast? ≠ some newline) (.unterminated now.day)
  return { s with files := s.files.set now.day (content ++ e.2) }

/-! ### Closing -/

/-- One call of `_replace`. -/
inductive Replacement where
  | file (day : Day) (content : Bytes)
  | marker (through : Day)
  deriving DecidableEq, Repr

/-- The directory after a `_replace`. -/
def Directory.replace (s : Directory) : Replacement → Directory
  | .file day content => { s with files := s.files.set day content }
  | .marker through => { s with closed := some through }

/-- The directory after several `_replace`s. -/
def Directory.replaceAll (s : Directory) (rs : List Replacement) : Directory := rs.foldl Directory.replace s

/-- The content that `close` gives a day. -/
def closeDay (c : Codec ν) (s : Directory) (day : Day) : Except Error Bytes := do
  raiseIf (day ∈ s.sealedDays) (.sealExists day)
  let records ← read c day (s.content day)
  let days ← build c records day day
  return (days.get day).getD []

/-- The loop of `close` over its days, with the error that ends it. -/
def closeDays (c : Codec ν) : List Day → Directory → List Replacement × Option Error
  | [], _ => ([], none)
  | day :: days, s =>
    match closeDay c s day with
    | .error e => ([], some e)
    | .ok content =>
      let rest := closeDays c days (s.replace (.file day content))
      (.file day content :: rest.1, rest.2)

/-- The first day that `close` has to rewrite, if there is one. -/
def firstToClose (s : Directory) (through : Day) : Option Day :=
  match s.closed with
  | some closed => if through ≤ closed then none else some (closed + 1)
  | none =>
    match s.oldest with
    | some first => if through < first then none else some first
    | none => none

/-- The `_replace`s of `close` in their order, and the error that it raises. -/
def closeSteps (c : Codec ν) (now : Instant) (through : Day) (s : Directory) : List Replacement × Option Error :=
  if now.day ≤ through then ([], some .notCompleted)
  else
    match firstToClose s through with
    | none => ([], none)
    | some first =>
      match closeDays c (dayRange first through) s with
      | (rs, some e) => (rs, some e)
      | (rs, none) => (rs ++ [.marker through], none)

/-- `close`: the directory that it leaves, and the error that it raises. -/
def close (c : Codec ν) (now : Instant) (through : Day) (s : Directory) : Directory × Option Error :=
  let steps := closeSteps c now through s
  (s.replaceAll steps.1, steps.2)

/-- The directory that `close` leaves when it is interrupted after `k` replacements. -/
def closeInterrupted (c : Codec ν) (now : Instant) (through : Day) (k : Nat) (s : Directory) : Directory :=
  s.replaceAll ((closeSteps c now through s).1.take k)

end DayLog

end TrustedReleases
