import TrustedReleases.Lib.Run
import TrustedReleases.Pgp.History

/-!
# Stored certificates

The table of signing certificates and the log that says how each came to be (`atr/storage/writers/keys.py`).  An upload
merges a block into the history of its certificate, and brings a deleted certificate back; a deletion only marks it.
Every change is a row of the log with what it deletes and adds.  Operations run in transactions, which leave no trace if
one of them fails or anything after them.
-/

namespace TrustedReleases

open Lib Pgp

namespace Keys

/-! ### Tables -/

inductive KeyOperation where
  | delete
  | restore
  | revise
  deriving DecidableEq, Repr

inductive KeyRole where
  | admin
  | service
  | user
  deriving DecidableEq, Repr

structure KeyAttestable where
  fingerprint : Str
  seq : Nat
  operation : KeyOperation
  source : Str
  input : Option Bytes
  deletions : Option Bytes
  additions : Option Bytes
  updated : Nat
  actor : Str
  role : KeyRole
  deriving DecidableEq, Repr

structure SigningCertificate where
  fingerprint : Str
  asciiArmoredKey : Str
  deleted : Option Nat
  deriving DecidableEq, Repr

structure Database where
  rows : List KeyAttestable
  certificates : Dict Str SigningCertificate

/-- The rows of one certificate in the order in which they came in. -/
def Database.log (db : Database) (fingerprint : Str) : List KeyAttestable :=
  db.rows.filter fun row => decide (row.fingerprint = fingerprint)

/-- What the deltas of rows are. -/
def deltas (rows : List KeyAttestable) : List (Option Bytes × Option Bytes) :=
  rows.map fun row => (row.deletions, row.additions)

/-- A parsed upload. -/
structure Key where
  fingerprint : Str
  asciiArmoredKey : Str
  input : Option Bytes
  deriving DecidableEq, Repr

structure KeyStatus where
  inserted : Bool
  refreshed : Bool
  restored : Bool
  deriving DecidableEq, Repr

/-- Who asks and when, and the order in which sets are iterated meanwhile. -/
structure Call where
  order : Iteration
  now : Nat
  asfUid : Str
  role : KeyRole

/-! ### Errors -/

inductive Error where
  | pgp (e : Pgp.Error)
  | notContiguous (fingerprint : Str)
  | noLog (fingerprint : Str)
  | notMatching (fingerprint : Str)
  | notReproduced (fingerprint : Str)
  | tooLarge (fingerprint : Str)
  | keyNotFound (fingerprint : Str)
  | integrity
  deriving DecidableEq, Repr

/-- The texts of the errors that the module raises itself. -/
def Error.message : Error → Option String
  | notContiguous fingerprint => some s!"The log for {String.ofList fingerprint} is not contiguous"
  | noLog fingerprint => some s!"The cached head for {String.ofList fingerprint} has no log"
  | notMatching fingerprint => some s!"The cached head for {String.ofList fingerprint} does not match its log"
  | notReproduced fingerprint => some s!"The delta for {String.ofList fingerprint} does not reproduce its result"
  | tooLarge fingerprint => some s!"Key {String.ofList fingerprint} would exceed the size admitted for a certificate"
  | keyNotFound fingerprint => some s!"Key not found: {String.ofList fingerprint}"
  | pgp _ | integrity => none

/-- A step of `atr/pgp.py`. -/
def lifted {α : Type} (x : Except Pgp.Error α) : Except Error α := x.mapError Error.pgp

/-! ### The log -/

def MAX_CERTIFICATE_BYTES : Nat := 4 * 1024 * 1024

def MAX_CERTIFICATE_PLACEMENTS : Nat := 16384

def POINTER_SOURCE_SCHEMES : List Str := ["archive".toList, "svn".toList]

/-- `__certificate_chain`. -/
def certificateChain (order : Iteration) (db : Database) (fingerprint : Str)
    (certificate : Option SigningCertificate) : Except Error (Nat × Finset Placement) := do
  let rows := orderBy (·.seq) (db.log fingerprint)
  raiseIf (rows.map (·.seq) ≠ List.range' 1 rows.length) (.notContiguous fingerprint)
  let state ← lifted (foldDeltas order (deltas rows))
  match certificate with
  | none => return (rows.length, state)
  | some certificate => do
    raiseIf (rows = []) (.noLog fingerprint)
    let placements ← lifted (certificatePlacements certificate.asciiArmoredKey)
    raiseIf (state ≠ placements) (.notMatching fingerprint)
    return (rows.length, state)

/-- `_append_certificate_row`.  A number of a certificate is taken once. -/
def appendCertificateRow (pgp : OpenPgp) (call : Call) (db : Database) (fingerprint : Str) (seq : Nat)
    (operation : KeyOperation) (source : Str) (raw : Option Bytes) (previous result : Finset Placement) :
    Except Error Database := do
  let delta ← lifted (deltaFragments pgp call.order previous result)
  let applied ← lifted (applyDelta call.order previous delta.1 delta.2)
  raiseIf (applied ≠ result) (.notReproduced fingerprint)
  raiseIf (∃ row ∈ db.log fingerprint, row.seq = seq) .integrity
  return { db with
    rows := db.rows ++ [
      { fingerprint := fingerprint
        seq := seq
        operation := operation
        source := source
        input := raw
        deletions := delta.1
        additions := delta.2
        updated := call.now
        actor := call.asfUid
        role := call.role }] }

/-- What a row keeps of the upload: nothing where the source says where to find it. -/
def rawInput (source : Str) (key : Key) : Option Bytes :=
  if source.takeWhile (· ≠ ':') ∈ POINTER_SOURCE_SCHEMES then none else key.input

/-- The row of an upload that changes its certificate, and the number of the last row then. -/
def appendRevision (pgp : OpenPgp) (call : Call) (db : Database) (key : Key) (source : Str) (seq : Nat)
    (previous result : Finset Placement) : Except Error (Nat × Database) :=
  if result ≠ previous then do
    let db ← appendCertificateRow pgp call db key.fingerprint (seq + 1) .revise source (rawInput source key) previous
      result
    return (seq + 1, db)
  else .ok (seq, db)

/-- The certificate with the merged block, as it was found otherwise. -/
def revisedHead (existing : Option SigningCertificate) (fingerprint block : Str) (changed : Bool) :
    SigningCertificate :=
  match existing with
  | none => ⟨fingerprint, block, none⟩
  | some certificate => if changed then { certificate with asciiArmoredKey := block } else certificate

/-- The row that brings a deleted certificate back. -/
def appendRestoration (pgp : OpenPgp) (call : Call) (db : Database) (key : Key) (deleted : Option Nat) (source : Str)
    (seq : Nat) (result : Finset Placement) : Except Error Database :=
  match deleted with
  | none => .ok db
  | some _ => appendCertificateRow pgp call db key.fingerprint (seq + 1) .restore source none result result

/-- `_revise_certificate`. -/
def reviseCertificate (pgp : OpenPgp) (armor : Armor) (call : Call) (db : Database) (key : Key) (source : Str) :
    Except Error (KeyStatus × Database) := do
  let existing := db.certificates.get key.fingerprint
  let chain ← certificateChain call.order db key.fingerprint existing
  let block ← lifted (mergedInto pgp armor call.order chain.2 key.asciiArmoredKey)
  let result ← lifted (certificatePlacements block)
  let changed := decide (result ≠ chain.2)
  raiseIf (changed = true ∧ (MAX_CERTIFICATE_BYTES < block.length ∨ MAX_CERTIFICATE_PLACEMENTS < result.card))
    (.tooLarge key.fingerprint)
  let revised ← appendRevision pgp call db key source chain.1 chain.2 result
  let head := revisedHead existing key.fingerprint block changed
  let db ← appendRestoration pgp call revised.2 key head.deleted source revised.1 result
  let status : KeyStatus :=
    if head.deleted.isSome then ⟨true, false, true⟩
    else if existing = none then ⟨true, false, false⟩
    else ⟨false, changed, false⟩
  return (status, { db with certificates := db.certificates.set key.fingerprint { head with deleted := none } })

/-- `_delete_certificate`, on the certificate that is found, as the callers do. -/
def deleteCertificate (pgp : OpenPgp) (call : Call) (db : Database) (fingerprint source : Str) :
    Except Error Database := do
  let found := (db.certificates.get fingerprint).filter fun certificate => certificate.deleted.isNone
  let certificate ← demand found (.keyNotFound fingerprint)
  let chain ← certificateChain call.order db fingerprint (some certificate)
  let db ← appendCertificateRow pgp call db fingerprint (chain.1 + 1) .delete source none chain.2 chain.2
  return { db with certificates := db.certificates.set fingerprint { certificate with deleted := some call.now } }

/-! ### Transactions -/

inductive Operation where
  | upload (key : Key) (source : Str)
  | delete (fingerprint source : Str)
  deriving DecidableEq, Repr

def Operation.run (pgp : OpenPgp) (armor : Armor) (call : Call) (db : Database) : Operation → Except Error Database
  | .upload key source => do
    let stored ← reviseCertificate pgp armor call db key source
    return stored.2
  | .delete fingerprint source => deleteCertificate pgp call db fingerprint source

/-- Operations that are committed together, unless something else of the transaction fails. -/
structure Transaction where
  call : Call
  operations : List Operation
  fails : Bool

/-- What the operations of a transaction lead to, if it is committed. -/
def Transaction.outcome (pgp : OpenPgp) (armor : Armor) (db : Database) (t : Transaction) : Option Database :=
  if t.fails then none else (t.operations.foldlM (Operation.run pgp armor t.call) db).toOption

/-- A transaction that is not committed is rolled back. -/
def Transaction.run (pgp : OpenPgp) (armor : Armor) (db : Database) (t : Transaction) : Database :=
  (t.outcome pgp armor db).getD db

/-- The database after transactions. -/
def run (pgp : OpenPgp) (armor : Armor) (db : Database) (ts : List Transaction) : Database :=
  ts.foldl (Transaction.run pgp armor) db

/-- The operations that transactions committed. -/
def committed (pgp : OpenPgp) (armor : Armor) : Database → List Transaction → List Operation
  | _, [] => []
  | db, t :: ts =>
    (if (t.outcome pgp armor db).isSome then t.operations else []) ++
      committed pgp armor (t.run pgp armor db) ts

/-- The blocks among the operations that were uploaded for a certificate. -/
def uploaded (fingerprint : Str) (operations : List Operation) : List Str :=
  operations.filterMap fun
    | .upload key _ => if key.fingerprint = fingerprint then some key.asciiArmoredKey else none
    | .delete _ _ => none

def empty : Database := ⟨[], ∅⟩

end Keys

end TrustedReleases
