import TrustedReleases.Streaming.Cursor

/-!
# Projections of a streamed document

The members of a provider's response that are asked for (`Projection` and `_project` of `atr/sbom/streaming.py`), taken
from its events without a tree.  One record is filled in place, below the objects that it has; what a decimal is as a
float is a parameter.
-/

namespace TrustedReleases

open Lib JsonTree

namespace Streaming

def MAX_PACKAGES : Nat := 10000

def MAX_FIELD : Nat := 4096

variable {δ φ : Type}

/-- The mark of an object that has members. -/
def observedName : Str := "_observed".toList

/-- The scalar with a float for a decimal. -/
def projectScalar (float : δ → φ) : Scalar δ → Scalar φ
  | .null => .null
  | .boolean b => .boolean b
  | .integer n => .integer n
  | .decimal d => .decimal (float d)
  | .string s => .string s

/-! ### `Projection` -/

/-- The paths of the fields with all that they begin with. -/
def paths (fields : Finset Position) : Finset Position := fields.biUnion fun path => path.inits.toFinset

/-- The paths that have to be objects. -/
def objects (fields : Finset Position) : Finset Position := (paths fields \ fields) \ {[]}

/-- `Projection._set` -/
def setPath (path : Position) (value record : JsonTree (Scalar φ)) : Except Error (JsonTree (Scalar φ)) :=
  demand (setAt path value record) .lookup

/-- `Projection._placeholder` -/
def placeholder (path : Position) (record : JsonTree (Scalar φ)) : Except Error (JsonTree (Scalar φ)) :=
  match getAt path record with
  | some (.array values) => do
    raiseIf (MAX_PACKAGES ≤ values.length) (.limit "Provider array exceeds the analysis limit")
    setPath path (.array (values ++ [.scalar .null])) record
  | _ => .error .lookup

/-- The value that an event brings in, unless a value ends. -/
def eventValue (float : δ → φ) : JsonEvent (Scalar δ) → Option (JsonTree (Scalar φ))
  | .scalar value => some (.scalar (projectScalar float value))
  | .startMap => some (.object [])
  | .startArray => some (.array [])
  | .mapKey _ | .endMap | .endArray => none

/-- An event with which an object or `null` begins. -/
def objectOrNull : JsonEvent (Scalar δ) → Bool
  | .startMap | .scalar .null => true
  | _ => false

/-- `Projection.feed` -/
def projectionFeed (fields : Finset Position) (float : δ → φ) (record : JsonTree (Scalar φ)) (path : Position)
    (event : JsonEvent (Scalar δ)) : Except Error (JsonTree (Scalar φ)) :=
  match event with
  | .mapKey _ =>
    if path ∈ paths fields then setPath (path ++ [some observedName]) (.scalar (.boolean true)) record
    else .ok record
  | event =>
    if path.getLast? = some none ∧ path.dropLast ∈ fields then
      if (eventValue float event).isSome then placeholder path.dropLast record else .ok record
    else
      match eventValue float event with
      | none => .ok record
      | some value =>
        if path ∉ paths fields then .ok record
        else do
          raiseIf (path ∈ objects fields ∧ objectOrNull event = false)
            (.malformed "Provider member %r must be an object" (path.getLast?.bind id))
          raiseIf (∃ text ∈ eventText event, MAX_FIELD < text.length)
            (.limit "Provider field exceeds the analysis limit")
          setPath path value record

/-! ### `_project` -/

/-- A record that is filled, and the records that are complete. -/
structure Projecting (φ : Type) where
  record : JsonTree (Scalar φ)
  records : List (JsonTree (Scalar φ))

/-- `_boundary` -/
def boundary (event : JsonEvent (Scalar δ)) (s : Projecting φ) : Except Error (Projecting φ) :=
  match event with
  | .endMap => do
    let records := s.records ++ [s.record]
    raiseIf (MAX_PACKAGES < records.length) (.limit "Provider response exceeds the package limit")
    return { s with records := records }
  | .startMap | .mapKey _ => .ok s
  | _ => .error (.malformed "Invalid provider record" none)

/-- The events of the value that contains the records, or is the only one. -/
def containerEvent (multiple : Bool) : JsonEvent (Scalar δ) → Bool
  | .startArray | .endArray => multiple
  | .startMap | .endMap | .mapKey _ => !multiple
  | .scalar _ => false

/-- The loop of `_project`. -/
def projectFeed (fields : Finset Position) (float : δ → φ) (multiple : Bool) (s : Projecting φ) (path : Position)
    (event : JsonEvent (Scalar δ)) : Except Error (Projecting φ) := do
  raiseIf (path = [] ∧ containerEvent multiple event = false) (.malformed "Invalid provider response" none)
  if path = [] ∧ multiple = true then return s
  else
    let s ← if multiple = true ∧ path = [none] then boundary event s else .ok s
    let record ← projectionFeed fields float s.record (if multiple then path.tail else path) event
    return { s with record := record }

/-- `_project` -/
def projectEvents (fields : Finset Position) (float : δ → φ) (multiple : Bool) (events : List (JsonEvent (Scalar δ))) :
    Except Error (List (JsonTree (Scalar φ))) := do
  let (_, s) ← events.foldlM (follow (projectFeed fields float multiple)) ([], ⟨.object [], []⟩)
  return if multiple then s.records else [s.record]

/-- `project` -/
def project (fields : Finset Position) (float : δ → φ) (events : List (JsonEvent (Scalar δ))) :
    Except Error (JsonTree (Scalar φ)) := do
  let records ← projectEvents fields float false events
  demand records.head? .lookup

/-- `project_records` -/
def projectRecords (fields : Finset Position) (float : δ → φ) (events : List (JsonEvent (Scalar δ))) :
    Except Error (List (JsonTree (Scalar φ))) := projectEvents fields float true events

end Streaming

end TrustedReleases
