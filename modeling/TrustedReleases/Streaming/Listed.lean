import TrustedReleases.Streaming.Walk

/-!
# The inventory of a document as a tree

What a document says of its components, read from its tree.  Components are reached from the document through arrays
of components alone, and the inventory lists the licences of those that are of one identity in the order in which the
components are taken (`inventoryOf`).
-/

namespace TrustedReleases

open Lib JsonTree

namespace Streaming

variable {δ : Type}

/-! ### Parts of a document -/

/-- The value of a member of an object. -/
def member (name : Str) : JsonTree (Scalar δ) → Option (JsonTree (Scalar δ))
  | .object members => members.lookup name
  | _ => none

def itemsOf : JsonTree (Scalar δ) → List (JsonTree (Scalar δ))
  | .array items => items
  | _ => []

def scalarOf : JsonTree (Scalar δ) → Option (Scalar δ)
  | .scalar value => some value
  | _ => none

def stringOf : Scalar δ → Option Str
  | .string s => some s
  | _ => none

def isObject : JsonTree (Scalar δ) → Bool
  | .object _ => true
  | _ => false

def isArray : JsonTree (Scalar δ) → Bool
  | .array _ => true
  | _ => false

/-- A string or `null`. -/
def isText : Scalar δ → Bool
  | .null | .string _ => true
  | _ => false

/-- The scalar that a member of an object is. -/
def scalarAt (name : Str) (t : JsonTree (Scalar δ)) : Option (Scalar δ) := (member name t).bind scalarOf

/-- The string that a member of an object is. -/
def textAt (name : Str) (t : JsonTree (Scalar δ)) : Option Str := (scalarAt name t).bind stringOf

/-! ### License choices -/

/-- The member is there and is neither a string nor `null`. -/
def badText (name : Str) (t : JsonTree (Scalar δ)) : Bool :=
  (member name t).any fun u => !(scalarOf u).any isText

def badLicense (t : JsonTree (Scalar δ)) : Bool :=
  !isObject t || badText "id".toList t || badText "name".toList t

def badChoice (t : JsonTree (Scalar δ)) : Bool :=
  !isObject t || badText "expression".toList t || (member "license".toList t).any badLicense ||
    (member "license".toList t).isSome == (member "expression".toList t).isSome

/-- The texts of a license choice, the first of which that is not empty is declared. -/
def choiceTexts (t : JsonTree (Scalar δ)) : List (Option Str) :=
  [textAt "expression".toList t, (member "license".toList t).bind (textAt "id".toList),
    (member "license".toList t).bind (textAt "name".toList)]

def declarationOf (t : JsonTree (Scalar δ)) : Option Declaration :=
  let text := ((choiceTexts t).foldl orText none).getD []
  if text = [] then none else some (text, (member "expression".toList t).isSome)

/-! ### Components -/

/-- The license choices of a component. -/
def choicesOf (c : JsonTree (Scalar δ)) : List (JsonTree (Scalar δ)) := ((member "licenses".toList c).map itemsOf).getD []

/-- The distinct license declarations of a component. -/
def declarationsOf (c : JsonTree (Scalar δ)) : List Declaration := ((choicesOf c).filterMap declarationOf).eraseDups

def isFile (c : JsonTree (Scalar δ)) : Bool := decide (textAt "type".toList c = some "file".toList)

/-- A component whose licenses are retained. -/
def isLicensed (c : JsonTree (Scalar δ)) : Bool := !isFile c && !(declarationsOf c).isEmpty

def badName (name : Str) (c : JsonTree (Scalar δ)) : Bool := (scalarAt name c).any fun value => !isText value

/-- What a component is rejected for, apart from the components that are nested in it. -/
def badComponent (c : JsonTree (Scalar δ)) : Bool :=
  !isObject c || (member "components".toList c).any (fun t => !isArray t) ||
    (member "licenses".toList c).any (fun t => !isArray t || (itemsOf t).any badChoice) ||
    isLicensed c && (badName "name".toList c || badName "version".toList c)

section

variable (parse : Str → Option PackageUrl)

def purlOf (c : JsonTree (Scalar δ)) : Option PackageUrl := packageUrl parse (scalarAt "purl".toList c)

/-- The package URL of a component, its name and its version. -/
def identityOf (c : JsonTree (Scalar δ)) : Option Str × Str × Option Str :=
  let purl := purlOf parse c
  (purl.map (·.text),
    (orText (orText (textAt "name".toList c) (purl.map (·.name))) (some "Unnamed component".toList)).getD [],
    orText (textAt "version".toList c) (purl.bind (·.version)))

/-- The package URL under which a component is recorded. -/
def identified (c : JsonTree (Scalar δ)) : Option Str := if isFile c then none else (purlOf parse c).map (·.text)

/-- The license declarations of the components of one identity. -/
def licensesOf (cs : List (JsonTree (Scalar δ))) (key : Option Str × Str × Option Str) : List Declaration :=
  ((cs.filter fun c => isLicensed c && decide (identityOf parse c = key)).flatMap declarationsOf).eraseDups

/-- The identities of the licensed components. -/
def identitiesOf (cs : List (JsonTree (Scalar δ))) : List (Option Str × Str × Option Str) :=
  ((cs.filter isLicensed).map (identityOf parse)).eraseDups

/-- The inventory of components, taken one after the other. -/
def inventoryOf (cs : List (JsonTree (Scalar δ))) : Inventory where
  components := cs.length
  files := cs.countP isFile
  unidentified := cs.countP fun c => !isFile c && (purlOf parse c).isNone
  purls := sorted (cs.filterMap (identified parse)).eraseDups
  licensedComponents := (identitiesOf parse cs).map fun key => ⟨key.2.1, key.2.2, key.1, licensesOf parse cs key⟩

/-- Components within the limits of an analysis. -/
structure Within (cs : List (JsonTree (Scalar δ))) : Prop where
  components : cs.length ≤ MAX_COMPONENTS
  choices : ∀ c ∈ cs, ∀ choice ∈ choicesOf c, ∀ text ∈ (choiceTexts choice).reduceOption, text.length ≤ MAX_TEXT
  declarations : ∀ c ∈ cs, (declarationsOf c).length ≤ MAX_LICENSES
  names : ∀ c ∈ cs, isLicensed c = true →
    ∀ text ∈ [textAt "name".toList c, textAt "version".toList c].reduceOption, text.length ≤ MAX_TEXT
  purls : ∀ purl ∈ cs.filterMap (identified parse), purl.length ≤ MAX_TEXT
  identities : (cs.filterMap (identified parse)).eraseDups.length ≤ MAX_IDENTITIES
  licensed : (identitiesOf parse cs).length ≤ MAX_IDENTITIES
  licenses : ((identitiesOf parse cs).map fun key => (licensesOf parse cs key).length).sum ≤ MAX_IDENTITIES

end

/-! ### The components of a document -/

/-- Whether a component is taken before those that are nested in it or after them. -/
inductive Order where
  | starting
  | ending

mutual

/-- The components in the array of components of an object, with those nested in them. -/
def componentsBelow (order : Order) : JsonTree (Scalar δ) → List (JsonTree (Scalar δ))
  | .object members => componentsOfMembers order members
  | _ => []

/-- The components in an array. -/
def componentsIn (order : Order) : JsonTree (Scalar δ) → List (JsonTree (Scalar δ))
  | .array items => componentsOfItems order items
  | _ => []

def componentsOfMembers (order : Order) : List (Str × JsonTree (Scalar δ)) → List (JsonTree (Scalar δ))
  | [] => []
  | (name, t) :: members =>
    if name = "components".toList then componentsIn order t ++ componentsOfMembers order members
    else componentsOfMembers order members

def componentsOfItems (order : Order) : List (JsonTree (Scalar δ)) → List (JsonTree (Scalar δ))
  | [] => []
  | t :: items =>
    match order with
    | .starting => t :: componentsBelow order t ++ componentsOfItems order items
    | .ending => componentsBelow order t ++ t :: componentsOfItems order items

end

/-- What a document is rejected for. -/
def rejected (doc : JsonTree (Scalar δ)) : Bool :=
  !isObject doc || (member "components".toList doc).any (fun t => !isArray t) ||
    (componentsBelow .ending doc).any badComponent || decide (textAt "bomFormat".toList doc ≠ some "CycloneDX".toList) ||
    decide ((textAt "specVersion".toList doc).getD [] = []) || decide ((textAt "spdxVersion".toList doc).getD [] ≠ [])

end Streaming

end TrustedReleases
