import TrustedReleases.DayLog.Directory

/-!
# The chain of seals

The seals of the audit day log (`atr/sealing.py`).  Each closed day is sealed with the key that the seal of the day
before names, the first one with the key whose public part is `root.der`, and each seal names the key of the next.
Keys, signatures and digests are a `Scheme`; that no key is generated twice is all that is asked of it.  The temporary
files of `publish`, which no operation looks at, are not modelled.
-/

namespace TrustedReleases

open Lib

namespace Sealing

open DayLog (Directory dayRange)

/-- What is signed: the fields of a seal but for its signature and its version. -/
structure Record (π δ : Type) where
  datetime : Str
  next : π
  sha3_512 : δ
  deriving DecidableEq

/-- A seal. -/
structure Seal (π σ δ : Type) where
  record : Record π δ
  signature : σ
  deriving DecidableEq

/-- Private and public keys, signatures and digests.  `generate n` is the `n`-th private key that is generated. -/
structure Scheme (κ π σ δ : Type) where
  generate : Nat → κ
  fresh : Function.Injective generate
  publicOf : κ → π
  sign : κ → Record π δ → σ
  verify : π → Record π δ → σ → Bool
  digest : Bytes → δ

/-- A key file, which has no key until it is written. -/
abbrev KeyFile (κ : Type) := Option κ

/-- The key directory, with `current.pem` and `next.pem`. -/
structure KeyDirectory (κ : Type) where
  current : Option (KeyFile κ)
  next : Option (KeyFile κ)
  deriving DecidableEq

/-- The daily log with its seals and `root.der`, and the key directory. -/
structure Disk (κ π σ δ : Type) where
  files : Dict Day Bytes
  closed : Option Day
  seals : Dict Day (Seal π σ δ)
  root : Option π
  keys : Option (KeyDirectory κ)

/-- A file or directory that an error names. -/
inductive Path where
  | day (day : Day)
  | seal (day : Day)
  | root
  | keys
  | current
  | next
  deriving DecidableEq, Repr

/-- The errors of sealing. -/
inductive Error where
  | fileExists (path : Path)
  | fileNotFound (path : Path)
  | openssl
  | keyFiles
  | keyMismatch
  | digestMismatch (day : Day)
  | missingDay
  | notPrefix
  deriving DecidableEq, Repr

/-- The texts of the errors that the program raises itself, for a directory. -/
def Error.message (directory : String) : Error → Option String
  | keyFiles => some "Expected only current.pem in the sealing key directory"
  | keyMismatch => some "Current sealing key does not match the audit chain"
  | digestMismatch day => some s!"Digest mismatch: {directory}/{String.ofList (dateText day)}.jsonl"
  | missingDay => some "Missing closed audit day"
  | notPrefix => some "Audit seals must form a consecutive prefix of the daily logs"
  | fileExists _ | fileNotFound _ | openssl => none

variable {κ π σ δ : Type}

namespace Disk

/-- The directory of the daily log. -/
def log (d : Disk κ π σ δ) : Directory := ⟨d.files, d.closed, d.seals.keys⟩

/-! ### The key directory -/

/-- `key_dir.mkdir` -/
def makeKeys (d : Disk κ π σ δ) : Except Error (Disk κ π σ δ) := do
  raiseIf (d.keys.isSome) (.fileExists .keys)
  return { d with keys := some ⟨none, none⟩ }

/-- `os.open` of `_generate`, of `current.pem`. -/
def createCurrent (d : Disk κ π σ δ) : Except Error (Disk κ π σ δ) := do
  let keys ← demand d.keys (.fileNotFound .keys)
  raiseIf (keys.current.isSome) (.fileExists .current)
  return { d with keys := some { keys with current := some none } }

/-- `os.open` of `_generate`, of `next.pem`. -/
def createNext (d : Disk κ π σ δ) : Except Error (Disk κ π σ δ) := do
  let keys ← demand d.keys (.fileNotFound .keys)
  raiseIf (keys.next.isSome) (.fileExists .next)
  return { d with keys := some { keys with next := some none } }

/-- The write of `_generate`, to `current.pem`. -/
def writeCurrent (d : Disk κ π σ δ) (key : κ) : Disk κ π σ δ :=
  { d with keys := d.keys.map fun keys => { keys with current := some (some key) } }

/-- The write of `_generate`, to `next.pem`. -/
def writeNext (d : Disk κ π σ δ) (key : κ) : Disk κ π σ δ :=
  { d with keys := d.keys.map fun keys => { keys with next := some (some key) } }

/-- The key in `current.pem`. -/
def currentKey (d : Disk κ π σ δ) : Except Error κ := do
  let keys ← demand d.keys (.fileNotFound .keys)
  let file ← demand keys.current (.fileNotFound .current)
  demand file .openssl

/-- `os.replace(successor, current)` -/
def replaceKey (d : Disk κ π σ δ) : Except Error (Disk κ π σ δ) := do
  let keys ← demand d.keys (.fileNotFound .keys)
  let file ← demand keys.next (.fileNotFound .next)
  return { d with keys := some ⟨some file, none⟩ }

/-! ### Publishing -/

/-- `publish` of `root.der`. -/
def publishRoot (d : Disk κ π σ δ) (publicKey : π) : Except Error (Disk κ π σ δ) := do
  raiseIf (d.root.isSome) (.fileExists .root)
  return { d with root := some publicKey }

/-- `publish` of the seal of a day. -/
def publishSeal (d : Disk κ π σ δ) (day : Day) (s : Seal π σ δ) : Except Error (Disk κ π σ δ) := do
  raiseIf ((d.seals.get day).isSome) (.fileExists (.seal day))
  return { d with seals := d.seals.set day s }

/-! ### Preparing -/

/-- The key that `prepare` expects, where `previous` is the last sealed day. -/
def expectedKey (d : Disk κ π σ δ) (root : π) : Option Day → Except Error π
  | none => .ok root
  | some day => do
    let s ← demand (d.seals.get day) (.fileNotFound (.seal day))
    return s.record.next

/-- The part of `prepare` after the root is there. -/
def checkKeys [DecidableEq π] (publicOf : κ → π) (d : Disk κ π σ δ) (previous : Option Day) : Except Error Unit := do
  let root ← demand d.root (.fileNotFound .root)
  let keys ← demand d.keys (.fileNotFound .keys)
  raiseIf (keys.current = none ∨ keys.next.isSome) .keyFiles
  let expected ← d.expectedKey root previous
  let key ← d.currentKey
  raiseIf (publicOf key ≠ expected) .keyMismatch

variable (S : Scheme κ π σ δ)

/-- `initialise`, which generates the `n`-th key. -/
def initialise (n : Nat) (d : Disk κ π σ δ) : Except Error (Disk κ π σ δ × π) := do
  let d ← d.makeKeys
  let d ← d.createCurrent
  return (d.writeCurrent (S.generate n), S.publicOf (S.generate n))

/-- `prepare`, which generates the `n`-th key if there is no root. -/
def prepare [DecidableEq π] (n : Nat) (d : Disk κ π σ δ) (previous : Option Day) : Except Error (Disk κ π σ δ) :=
  if d.root.isSome then do
    d.checkKeys S.publicOf previous
    return d
  else do
    raiseIf (previous.isSome) (.fileNotFound .root)
    let (d, publicKey) ← d.initialise S n
    let d ← d.publishRoot publicKey
    d.checkKeys S.publicOf previous
    return d

/-! ### Verifying -/

/-- `verify` -/
def verify [DecidableEq δ] (d : Disk κ π σ δ) (publicKey : π) (day : Day) : Except Error π := do
  let s ← demand (d.seals.get day) (.fileNotFound (.seal day))
  raiseIf (S.verify publicKey s.record s.signature = false) .openssl
  let content ← demand (d.files.get day) (.fileNotFound (.day day))
  raiseIf (S.digest content ≠ s.record.sha3_512) (.digestMismatch day)
  return s.record.next

/-- `verify` of one day after the other, each with the key that the day before names. -/
def verifyAll [DecidableEq δ] (d : Disk κ π σ δ) (days : List Day) (publicKey : π) : Except Error π :=
  days.foldlM (d.verify S) publicKey

/-! ### The days -/

/-- The days of the log up to a day, in their order. -/
def daysThrough (d : Disk κ π σ δ) (through : Day) : List Day :=
  orderBy id (d.files.keys.filter (· ≤ through))

/-- The days that have a seal, in their order. -/
def sealedDays (d : Disk κ π σ δ) : List Day := orderBy id d.seals.keys

/-- The days of `_seal_day`, which are the days from the first to the last. -/
def listDays (d : Disk κ π σ δ) (through : Day) : Except Error (List Day) := do
  let days := d.daysThrough through
  match days.head? with
  | none => return days
  | some first => do
    raiseIf (days ≠ dayRange first through) .missingDay
    return days

/-- The seals of `_seal_day`, by their days. -/
def listSeals (d : Disk κ π σ δ) (days : List Day) : Except Error (List Day) := do
  raiseIf (d.sealedDays ≠ days.take d.sealedDays.length) .notPrefix
  return d.sealedDays

end Disk

end Sealing

end TrustedReleases
