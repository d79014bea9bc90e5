import TrustedReleases.Lib.Except
import TrustedReleases.Lib.JsonPatch

/-!
# Patches of an SBOM

The operations that bring a CycloneDX document into line (`ntia_2021_patch` of `atr/sbom/conformance.py`, `vuln_patch` of
`atr/sbom/osv.py`) and what a task records with them (`apply_patch` of `atr/sbom/utilities.py`).  All of them are made
from the original document and are carried out one after the other.  The suppliers that are found, what is written for
a vulnerability, the version of the tool and the time are parameters.
-/

namespace TrustedReleases

open Lib JsonTree

namespace Sbom

variable {δ : Type}

/-- A document of a BOM. -/
abbrev Doc (δ : Type) := JsonTree (Scalar δ)

abbrev Op (δ : Type) := PatchOp (Scalar δ)

inductive Error where
  | metadataComponentRequired
  | notApplicable
  | notAnObject
  deriving DecidableEq, Repr

def Error.message : Error → Option String
  | metadataComponentRequired => some "metadata.component is required"
  | notApplicable => none
  | notAnObject => some "Patched SBOM document must be a JSON object"

def text (s : String) : Doc δ := .scalar (.string s.toList)

/-! ### Pointers -/

def metadataPath : List Str := ["metadata".toList]

def supplierPath : List Str := ["metadata".toList, "supplier".toList]

def timestampPath : List Str := ["metadata".toList, "timestamp".toList]

def toolsPath : List Str := ["metadata".toList, "tools".toList]

def servicesPath : List Str := ["metadata".toList, "tools".toList, "services".toList]

def propertiesPath : List Str := ["properties".toList]

def versionPath : List Str := ["version".toList]

def vulnerabilitiesPath : List Str := ["vulnerabilities".toList]

def componentSupplierPath (index : Nat) : List Str := ["components".toList, indexToken index, "supplier".toList]

/-- `get_pointer`, where `null` is as good as nothing. -/
def getPointer (doc : Doc δ) (path : List Str) : Option (Doc δ) :=
  match resolve path doc with
  | some (.scalar .null) => none
  | found => found

/-! ### Operations of the checks -/

/-- `ASF_ENTITY` -/
def ASF_ENTITY : Doc δ :=
  .object [("name".toList, text "The Apache Software Foundation"),
    ("url".toList, .array [text "https://apache.org/"])]

/-- An operation that adds the metadata. -/
def addsMetadata : Op δ → Bool
  | .add path _ => decide (path = metadataPath)
  | _ => false

/-- `ensure_metadata` -/
def ensureMetadata (doc : Doc δ) (ops : List (Op δ)) : List (Op δ) :=
  if (getPointer doc metadataPath).isSome then ops
  else if ops.any addsMetadata then ops
  else ops ++ [.add metadataPath (.object [])]

inductive Property where
  | metadata
  | metadataComponent
  | metadataAuthorOrManufacturer
  | metadataSupplier
  | metadataTimestamp
  | dependencies
  deriving DecidableEq, Repr

inductive ComponentProperty where
  | supplier
  | name
  | version
  | identifier
  deriving DecidableEq, Repr

inductive Missing where
  | property (property : Property)
  | componentProperty (property : ComponentProperty) (index : Option Nat)
  deriving DecidableEq, Repr

/-- What the functions take from elsewhere: the supplier that is found for a component, by its name and URL, the time
and the version of the tool. -/
structure Surroundings where
  supplier : Nat → Option (Str × Str)
  now : Str
  toolVersion : Str

/-- `assemble_metadata_supplier` -/
def assembleMetadataSupplier (doc : Doc δ) (ops : List (Op δ)) : List (Op δ) :=
  ensureMetadata doc ops ++ [.add supplierPath ASF_ENTITY]

/-- `assemble_metadata_timestamp` -/
def assembleMetadataTimestamp (s : Surroundings) (doc : Doc δ) (ops : List (Op δ)) : List (Op δ) :=
  if (getPointer doc timestampPath).isSome then ensureMetadata doc ops
  else ensureMetadata doc ops ++ [.add timestampPath (.scalar (.string s.now))]

/-- `assemble_component_supplier` -/
def assembleComponentSupplier (s : Surroundings) (ops : List (Op δ)) (index : Nat) : List (Op δ) :=
  match s.supplier index with
  | none => ops
  | some (name, url) =>
    ops ++ [.add (componentSupplierPath index)
      (.object [("name".toList, .scalar (.string name)), ("url".toList, .array [.scalar (.string url)])])]

/-- The operations for one finding. -/
def assemble (s : Surroundings) (doc : Doc δ) (ops : List (Op δ)) : Missing → Except Error (List (Op δ))
  | .property .metadataSupplier => .ok (assembleMetadataSupplier doc ops)
  | .property .metadata => .ok (ensureMetadata doc ops)
  | .property .metadataComponent => .error .metadataComponentRequired
  | .property .metadataTimestamp => .ok (assembleMetadataTimestamp s doc ops)
  | .property .metadataAuthorOrManufacturer | .property .dependencies => .ok ops
  | .componentProperty .supplier (some index) => .ok (assembleComponentSupplier s ops index)
  | .componentProperty _ _ => .ok ops

/-- `ntia_2021_patch` -/
def ntia2021Patch (s : Surroundings) (doc : Doc δ) (errors : List Missing) : Except Error (List (Op δ)) :=
  errors.foldlM (assemble s doc) []

/-- `_assemble_vulnerabilities` -/
def assembleVulnerabilities (doc : Doc δ) : List (Op δ) :=
  (if (getPointer doc vulnerabilitiesPath).isSome then [.remove vulnerabilitiesPath] else []) ++
    [.add vulnerabilitiesPath (.array [])]

/-- The operations of `vuln_patch` for the vulnerabilities from an index on. -/
def assembleVulnerabilitiesFrom : Nat → List (Doc δ) → List (Op δ)
  | _, [] => []
  | index, value :: values =>
    .add (vulnerabilitiesPath ++ [indexToken index]) value :: assembleVulnerabilitiesFrom (index + 1) values

/-- `vuln_patch`, with what is written for each vulnerability of the components. -/
def vulnPatch (doc : Doc δ) (values : List (Doc δ)) : List (Op δ) :=
  assembleVulnerabilities doc ++ assembleVulnerabilitiesFrom 0 values

/-! ### What a task records -/

def TOOL_REF : Str := "tool:asf:atr".toList

/-- `_TOOL_METADATA` -/
def toolMetadata (s : Surroundings) : Doc δ :=
  .object [("bom-ref".toList, .scalar (.string TOOL_REF)), ("provider".toList, ASF_ENTITY),
    ("name".toList, text "Apache Trusted Releases"), ("authenticated".toList, .scalar (.boolean true)),
    ("version".toList, .scalar (.string s.toolVersion))]

/-- The service is the tool itself. -/
def isTool (service : Doc δ) : Bool :=
  match child "bom-ref".toList service with
  | some (.scalar (.string ref)) => decide (ref = TOOL_REF)
  | _ => false

/-- The items of an array. -/
def itemsOf : Option (Doc δ) → List (Doc δ)
  | some (.array items) => items
  | _ => []

/-- `record_atr_tool` -/
def recordAtrTool (s : Surroundings) (doc : Doc δ) (ops : List (Op δ)) : List (Op δ) :=
  let services := itemsOf (getPointer doc servicesPath)
  let ops := ensureMetadata doc ops
  let ops := if (getPointer doc toolsPath).isNone then ops ++ [.add toolsPath (.object [])] else ops
  let ops := if (getPointer doc servicesPath).isNone then ops ++ [.add servicesPath (.array [])] else ops
  match services.findIdx? isTool with
  | none => ops ++ [.add (servicesPath ++ [indexToken services.length]) (toolMetadata s)]
  | some index => ops ++ [.replace (servicesPath ++ [indexToken index]) (toolMetadata s)]

/-- The property with which a task is recorded. -/
def taskRecord (task revision : Str) : Doc δ :=
  .object [("name".toList, .scalar (.string ("asf:atr:".toList ++ task))), ("value".toList, .scalar (.string revision))]

/-- `_record_task` -/
def recordTask (s : Surroundings) (task revision : Str) (doc : Doc δ) (ops : List (Op δ)) : List (Op δ) :=
  recordAtrTool s doc (ops ++ [match getPointer doc propertiesPath with
    | none => .add propertiesPath (.array [taskRecord task revision])
    | some properties => .replace propertiesPath (.array (itemsOf (some properties) ++ [taskRecord task revision]))])

/-- The number of a version, if it is one. -/
def integerOf : Option (Doc δ) → Option Int
  | some (.scalar (.integer n)) => some n
  | _ => none

/-- `_increment_version` -/
def incrementVersion (doc : Doc δ) (ops : List (Op δ)) : Int × List (Op δ) :=
  match integerOf (getPointer doc versionPath) with
  | some version => (version + 1, ops ++ [.replace versionPath (.scalar (.integer (version + 1)))])
  | none => (1, ops ++ [.add versionPath (.scalar (.integer 1))])

/-- `patch_document` -/
def patchDocument (doc : Doc δ) (ops : List (Op δ)) : Except Error (Doc δ) := do
  match ← demand (Lib.applyPatch ops doc) .notApplicable with
  | .object members => return .object members
  | _ => .error .notAnObject

/-- `apply_patch` -/
def applyPatch (s : Surroundings) (reason revision : Str) (bomVersion : Int) (doc : Doc δ) (ops : List (Op δ)) :
    Except Error (Int × Doc δ) :=
  if ops.isEmpty then .ok (bomVersion, doc)
  else do
    let (version, ops) := incrementVersion doc (recordTask s reason revision doc ops)
    let patched ← patchDocument doc ops
    return (version, patched)

end Sbom

end TrustedReleases
