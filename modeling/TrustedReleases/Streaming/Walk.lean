import TrustedReleases.Lib.OrdDict
import TrustedReleases.Lib.Str
import TrustedReleases.Streaming.Cursor

/-!
# The inventory of a streamed SBOM

A CycloneDX document is read for its components (`Walk` of `atr/sbom/streaming.py`), which may be nested.  What belongs
to a component is told by the position of an event alone, and each open component is kept under its position.  What a
package URL is parsed to is a parameter.
-/

namespace TrustedReleases

open Lib JsonTree

namespace Streaming

def MAX_COMPONENTS : Nat := 1000000

def MAX_IDENTITIES : Nat := 10000

def MAX_TEXT : Nat := 4096

def MAX_LICENSES : Nat := 100

variable {δ : Type}

/-- A package URL, as a text and by its parts. -/
structure PackageUrl where
  text : Str
  name : Str
  version : Option Str
  deriving DecidableEq

/-- A license, and whether it is an expression. -/
abbrev Declaration := Str × Bool

/-- A license choice that is read.  A member that is there can have no text. -/
structure Choice where
  expression : Option (Option Str)
  license : Bool
  id : Option (Option Str)
  name : Option (Option Str)

/-- A component that is read. -/
structure Component (δ : Type) where
  fields : Dict Str (Scalar δ)
  licenses : Option (List Declaration)
  choice : Option Choice

/-- `LicensedComponent` -/
structure LicensedComponent where
  name : Str
  version : Option Str
  purl : Option Str
  licenses : List Declaration
  deriving DecidableEq

/-- `Inventory` -/
structure Inventory where
  components : Nat
  files : Nat
  unidentified : Nat
  purls : List Str
  licensedComponents : List LicensedComponent
  deriving DecidableEq

/-- What has been recorded of the components.  The set of package URLs is a list without repetitions. -/
structure Tally where
  components : Nat
  files : Nat
  unidentified : Nat
  purls : List Str
  licensed : OrdDict (Option Str × Str × Option Str) LicensedComponent
  licenses : Nat

/-- `Walk`, without its cursor. -/
structure Walk (δ : Type) where
  pending : Dict Position (Component δ)
  declared : Dict Str (Scalar δ)
  tally : Tally

/-! ### Positions -/

/-- `components` and an array in turns. -/
def alternates : Position → Bool
  | [] => true
  | some name :: none :: rest => decide (name = "components".toList) && alternates rest
  | _ => false

/-- `_component` -/
def componentPath (path : Position) : Bool := !path.isEmpty && alternates path

/-- `_component_array` -/
def componentArrayPath (path : Position) : Bool :=
  decide (path.getLast? = some (some "components".toList)) &&
    (decide (path.length = 1) || componentPath path.dropLast)

def licensesSuffix : Position := [some "licenses".toList]

def choiceSuffix : Position := [some "licenses".toList, none]

def expressionSuffix : Position := [some "licenses".toList, none, some "expression".toList]

def licenseSuffix : Position := [some "licenses".toList, none, some "license".toList]

def idSuffix : Position := [some "licenses".toList, none, some "license".toList, some "id".toList]

def nameSuffix : Position := [some "licenses".toList, none, some "license".toList, some "name".toList]

/-- The positions of `_LICENSE_EVENTS`. -/
def LICENSE_SUFFIXES : List Position :=
  [licensesSuffix, choiceSuffix, expressionSuffix, licenseSuffix, idSuffix, nameSuffix]

def isArrayEvent : JsonEvent (Scalar δ) → Bool
  | .startArray | .endArray => true
  | _ => false

def isMapEvent : JsonEvent (Scalar δ) → Bool
  | .startMap | .endMap => true
  | _ => false

def isScalarEvent : JsonEvent (Scalar δ) → Bool
  | .scalar _ => true
  | _ => false

/-- `_LICENSE_EVENTS` -/
def licenseEvent (suffix : Position) (event : JsonEvent (Scalar δ)) : Bool :=
  if suffix = licensesSuffix then isArrayEvent event
  else if suffix = choiceSuffix ∨ suffix = licenseSuffix then isMapEvent event
  else isScalarEvent event

/-- `_license_suffix`, with the position of the component. -/
def findLicenseSuffix (path : Position) (pending : Dict Position (Component δ)) : Option (Position × Position) :=
  [1, 2, 3, 4].findSome? fun length =>
    let suffix := path.drop (path.length - length)
    let owner := path.take (path.length - length)
    if suffix ∈ LICENSE_SUFFIXES ∧ (pending.get owner).isSome then some (owner, suffix) else none

/-! ### Values -/

/-- `_text` -/
def textOf : Option (Scalar δ) → Except Error (Option Str)
  | none | some .null => .ok none
  | some (.string s) =>
    if MAX_TEXT < s.length then .error (.limit "CycloneDX component text exceeds the analysis limit") else .ok (some s)
  | some _ => .error (.malformed "CycloneDX component text must be a string" none)

/-- `package_url`, where `parse` is that of the package. -/
def packageUrl (parse : Str → Option PackageUrl) : Option (Scalar δ) → Option PackageUrl
  | some (.string s) => if s = [] then none else parse s
  | _ => none

/-- The first text that is not empty: `or` of texts. -/
def orText (a b : Option Str) : Option Str := if a.getD [] = [] then b else a

/-! ### Licenses -/

/-- `Walk._choice` -/
def Component.choose (c : Component δ) (event : JsonEvent (Scalar δ)) : Except Error (Component δ) :=
  match event with
  | .startMap => .ok { c with choice := some ⟨none, false, none, none⟩ }
  | _ => do
    let choice ← demand c.choice .lookup
    raiseIf (choice.license = choice.expression.isSome)
      (.malformed "CycloneDX license choice must be a license or an expression" none)
    let text := (orText (orText (choice.expression.getD none) (choice.id.getD none)) (choice.name.getD none)).getD []
    let declaration := (text, choice.expression.isSome)
    let declarations := c.licenses.getD []
    if text = [] ∨ declaration ∈ declarations then
      return { c with choice := none, licenses := some declarations }
    else do
      raiseIf (MAX_LICENSES < (declarations ++ [declaration]).length)
        (.limit "Component exceeds the 100 license declaration analysis limit")
      return { c with choice := none, licenses := some (declarations ++ [declaration]) }

/-- A text of a license choice. -/
def Choice.setText (choice : Choice) (suffix : Position) (text : Option Str) : Choice :=
  if suffix = expressionSuffix then { choice with expression := some text }
  else if suffix = idSuffix then { choice with id := some text }
  else { choice with name := some text }

/-- `Walk._license` -/
def Component.license (c : Component δ) (suffix : Position) (event : JsonEvent (Scalar δ)) :
    Except Error (Component δ) := do
  raiseIf (licenseEvent suffix event = false)
    (.malformed "CycloneDX component licenses must be an array of license or expression objects" none)
  if suffix.length = 2 then c.choose event
  else
    match event with
    | .startMap => do
      let choice ← demand c.choice .lookup
      return { c with choice := some { choice with license := true } }
    | .scalar value => do
      let text ← textOf (some value)
      let choice ← demand c.choice .lookup
      return { c with choice := some (choice.setText suffix text) }
    | _ => return c

/-! ### Components -/

/-- `Walk._retain` -/
def Tally.retain (t : Tally) (c : Component δ) (purl : Option PackageUrl) : Except Error Tally :=
  let declarations := c.licenses.getD []
  if declarations = [] then .ok t
  else do
    let identity := purl.map (·.text)
    let nameText ← textOf (c.fields.get "name".toList)
    let name := (orText (orText nameText (purl.map (·.name))) (some "Unnamed component".toList)).getD []
    let versionText ← textOf (c.fields.get "version".toList)
    let version := orText versionText (purl.bind (·.version))
    let key := (identity, name, version)
    let found := t.licensed.get key
    let retained := found.getD ⟨name, version, identity, []⟩
    raiseIf (found = none ∧ MAX_IDENTITIES < t.licensed.entries.length + 1)
      (.limit "SBOM exceeds the 10,000 licensed component analysis limit")
    let new := declarations.filter (· ∉ retained.licenses)
    raiseIf (MAX_IDENTITIES < t.licenses + new.length)
      (.limit "SBOM exceeds the 10,000 license declaration analysis limit")
    return { t with
      licensed := t.licensed.set key { retained with licenses := retained.licenses ++ new }
      licenses := t.licenses + new.length }

/-- `Walk._record` -/
def Tally.record (parse : Str → Option PackageUrl) (t : Tally) (c : Component δ) : Except Error Tally := do
  let t := { t with components := t.components + 1 }
  raiseIf (MAX_COMPONENTS < t.components) (.limit "SBOM exceeds the component analysis limit")
  if c.fields.get "type".toList matches some (.string ['f', 'i', 'l', 'e']) then
    return { t with files := t.files + 1 }
  else do
    let purl := packageUrl parse (c.fields.get "purl".toList)
    let t ← t.retain c purl
    match purl with
    | none => return { t with unidentified := t.unidentified + 1 }
    | some purl => do
      raiseIf (MAX_TEXT < purl.text.length) (.limit "Package identity exceeds the analysis limit")
      let purls := t.purls.insert purl.text
      raiseIf (MAX_IDENTITIES < purls.length) (.limit "SBOM exceeds the 10,000 package identity analysis limit")
      return { t with purls := purls }

namespace Walk

variable (parse : Str → Option PackageUrl)

/-- `Walk._component` -/
def component (w : Walk δ) (position : Position) (event : JsonEvent (Scalar δ)) : Except Error (Walk δ) :=
  match event with
  | .startMap => .ok { w with pending := w.pending.set position ⟨∅, none, none⟩ }
  | .endMap => do
    let c ← demand (w.pending.get position) .lookup
    let tally ← w.tally.record parse c
    return { w with pending := w.pending.pop position, tally := tally }
  | _ => .error (.malformed "CycloneDX components must be objects" none)

/-- `Walk._declare` -/
def declare (w : Walk δ) (name : Option Str) (value : Scalar δ) : Except Error (Walk δ) :=
  match value with
  | .string s => do
    raiseIf (name = some "spdxVersion".toList ∧ s ≠ []) (.unsupported "SPDX JSON is not a CycloneDX SBOM" none)
    raiseIf (name = some "bomFormat".toList ∧ s ≠ "CycloneDX".toList)
      (.unsupported "Unsupported bomFormat %r" (some (s.take 80)))
    return { w with declared := setDeclared w.declared }
  | _ => .ok { w with declared := setDeclared w.declared }
where
  setDeclared (declared : Dict Str (Scalar δ)) : Dict Str (Scalar δ) :=
    match name with
    | some name =>
      if name = "bomFormat".toList ∨ name = "specVersion".toList then declared.set name value else declared
    | none => declared

/-- The names of `_COMPONENT_FIELDS`. -/
def COMPONENT_FIELDS : List Str := ["name".toList, "purl".toList, "type".toList, "version".toList]

/-- `Walk._value` -/
def value (w : Walk δ) (position : Position) (event : JsonEvent (Scalar δ)) : Except Error (Walk δ) :=
  if componentArrayPath position then
    if isArrayEvent event then .ok w else .error (.malformed "CycloneDX components must be an array" none)
  else if componentPath position then w.component parse position event
  else
    match findLicenseSuffix position w.pending with
    | some (owner, suffix) => do
      let c ← demand (w.pending.get owner) .lookup
      let c ← c.license suffix event
      return { w with pending := w.pending.set owner c }
    | none =>
      match event with
      | .scalar value =>
        if position.length = 1 then w.declare (position.head?.bind id) value
        else
          match w.pending.get position.dropLast, position.getLast?.bind id with
          | some c, some name =>
            if name ∈ COMPONENT_FIELDS then
              .ok { w with pending := w.pending.set position.dropLast { c with fields := c.fields.set name value } }
            else .ok w
          | _, _ => .ok w
      | _ => .ok w

/-- `Walk.feed`, at the position that the cursor gives. -/
def feed (w : Walk δ) (position : Position) (event : JsonEvent (Scalar δ)) : Except Error (Walk δ) :=
  match event with
  | .mapKey _ => .ok w
  | event =>
    if position = [] then
      if isMapEvent event then .ok w else .error (.malformed "Expected a JSON object" none)
    else w.value parse position event

/-- `Walk.finish` -/
def finish (w : Walk δ) : Except Error Inventory := do
  raiseIf ((w.declared.get "bomFormat".toList matches some (.string
    ['C', 'y', 'c', 'l', 'o', 'n', 'e', 'D', 'X'])) = false) (.malformed "Missing CycloneDX bomFormat" none)
  raiseIf ((w.declared.get "specVersion".toList matches some (.string (_ :: _))) = false)
    (.malformed "Missing CycloneDX specVersion" none)
  return ⟨w.tally.components, w.tally.files, w.tally.unidentified, sorted w.tally.purls,
    w.tally.licensed.values⟩

end Walk

/-- The inventory of a document, from its events. -/
def sbom (parse : Str → Option PackageUrl) (events : List (JsonEvent (Scalar δ))) : Except Error Inventory := do
  let (_, w) ← events.foldlM (follow (Walk.feed parse)) ([], ⟨∅, ∅, ⟨0, 0, 0, [], .empty, 0⟩⟩)
  w.finish

end Streaming

end TrustedReleases
