import Mathlib.Data.Finset.SDiff
import TrustedReleases.Keys.Log

/-!
# Reflecting a KEYS file

A committee that keeps its keys in Subversion has them reflected here (`reflect_from_svn`): the text is cut into blocks,
the certificates of the blocks are stored and linked one after the other, each in a transaction of its own, and the links
of the others are removed or marked.  Where something fails in a run is a parameter of the run.
-/

namespace TrustedReleases

open Lib Pgp

namespace Keys

/-! ### The state of a committee -/

/-- What a reflection reads and writes: the certificates and their log, the links of the committee with the time at which
each was marked as removed, the signing keys with their certificates, the keys that artifacts are attributed to, and the
hints of signatures that no certificate is known for. -/
structure Committee where
  keys : Database
  links : Dict Str (Option Nat)
  signingKeys : Dict Str Str
  artifacts : List Str
  hints : List Str
  historicUse : List Str

/-- A certificate of a block as it is parsed, with the ids of its keys. -/
structure ParsedKey where
  key : Key
  memberIds : List Str
  deriving DecidableEq

/-- A certificate of a block, and whether it fails to be parsed. -/
structure Part where
  parsed : ParsedKey
  fails : Bool

/-- A block of the file, and whether it fails to be read. -/
structure Block where
  parts : List Part
  fails : Bool

/-- A run: the text, the blocks of it that fail to be read and the certificates of a block that do, by their places, the
certificates that fail to be stored, and what fails beyond them. -/
structure Reflection where
  call : Call
  source : Str
  text : Str
  blockFails : Nat → Bool
  partFails : Nat → Nat → Bool
  storeFails : Str → Bool
  unreadable : Bool
  failsBefore : Bool
  failsAfter : Bool

/-- The package and what is derived from a block: the certificates that it holds, and the fingerprints of the signing keys
of a certificate, if they can be told. -/
structure Tools where
  pgp : OpenPgp
  armor : Armor
  certificates : Str → List ParsedKey
  signingKeyRows : Str → Str → Option (List Str)

variable (tools : Tools)

/-! ### Parsing -/

/-- The loop of `parse_key_blocks`, with the lines of the block that is open. -/
def parseKeyBlocksFrom : Option (List Str) → List Str → List Str
  | _, [] => []
  | current, line :: rest =>
    if strip line = armorBegin then parseKeyBlocksFrom (some [line]) rest
    else
      match current with
      | none => parseKeyBlocksFrom none rest
      | some lines =>
        if strip line = armorEnd then ['\n'].intercalate (lines ++ [line]) :: parseKeyBlocksFrom none rest
        else parseKeyBlocksFrom (some (lines ++ [line])) rest

/-- `parse_key_blocks` -/
def parseKeyBlocks (text : Str) : List Str := parseKeyBlocksFrom none (splitLines text)

/-- The blocks of the text, with what fails of them. -/
def Reflection.blocks (r : Reflection) : List Block :=
  (parseKeyBlocks r.text).zipIdx.map fun block =>
    ⟨(tools.certificates block.1).zipIdx.map fun parsed => ⟨parsed.1, r.partFails block.2 parsed.2⟩, r.blockFails block.2⟩

/-- The certificates of a block, or the errors in their places. -/
def Block.roes (block : Block) : List (Option ParsedKey) :=
  if block.fails = true ∨ block.parts = [] then [none]
  else block.parts.map fun part => if part.fails then none else some part.parsed

/-- `_merged_key` -/
def mergedKey (keys : List ParsedKey) : Option ParsedKey :=
  match keys, mergeCertificateBlocks tools.pgp tools.armor (keys.map (·.key.asciiArmoredKey)) with
  | first :: _, .ok block =>
    let input := (keys.filterMap (·.key.input)).flatten
    some ⟨⟨first.key.fingerprint, block, if input = [] then none else some input⟩,
      sorted (keys.flatMap (·.memberIds)).dedup⟩
  | _, _ => none

/-- The certificates with a fingerprint among the parsed ones. -/
def group (roes : List (Option ParsedKey)) (fingerprint : Str) : List ParsedKey :=
  roes.reduceOption.filter fun k => decide (k.key.fingerprint = fingerprint)

/-- The second loop of `_deduplicate_keys`. -/
def deduplicateFrom (roes : List (Option ParsedKey)) : List Str → List (Option ParsedKey) → List (Option ParsedKey)
  | _, [] => []
  | seen, none :: rest => none :: deduplicateFrom roes seen rest
  | seen, some k :: rest =>
    if k.key.fingerprint ∈ seen then deduplicateFrom roes seen rest
    else
      let keys := group roes k.key.fingerprint
      (if keys.length = 1 then some k else mergedKey tools keys) ::
        deduplicateFrom roes (k.key.fingerprint :: seen) rest

/-- `_deduplicate_keys` -/
def deduplicateKeys (roes : List (Option ParsedKey)) : List (Option ParsedKey) := deduplicateFrom tools roes [] roes

/-- `__block_models` -/
def blockModels (blocks : List Block) : List (Option ParsedKey) := deduplicateKeys tools (blocks.flatMap Block.roes)

/-! ### Storing -/

namespace Committee

/-- The signing keys of a certificate that has changed are brought into line with it. -/
def syncSigningKeys (c : Committee) (before : Database) (fingerprint : Str) : Committee :=
  -- a certificate has changed if it is new or has a new row for a revision
  let changed := (before.certificates.get fingerprint).isNone ||
    (c.keys.rows.drop before.rows.length).any fun row => decide (row.operation = .revise)
  match c.keys.certificates.get fingerprint with
  | some certificate =>
    if changed then
      let rows := (tools.signingKeyRows fingerprint certificate.asciiArmoredKey).getD []
      { c with signingKeys := rows.foldl (fun signingKeys row => signingKeys.set row fingerprint) c.signingKeys }
    else c
  | none => c

/-- `__signature_hints_consume`, of one certificate. -/
def consumeHints (c : Committee) (k : ParsedKey) : Committee :=
  let matched := c.hints.filter (· ∈ k.memberIds)
  if matched = [] then c
  else { c with
    hints := c.hints.filter (· ∉ matched)
    historicUse := if k.key.fingerprint ∈ c.historicUse then c.historicUse
      else c.historicUse ++ [k.key.fingerprint] }

/-- `__link_certificate` -/
def link (c : Committee) (fingerprint : Str) : Committee :=
  if fingerprint ∈ c.links.keys then c else { c with links := c.links.set fingerprint none }

/-- The transaction of one certificate, if it is committed. -/
def store (r : Reflection) (c : Committee) (k : ParsedKey) : Option Committee :=
  if r.storeFails k.key.fingerprint then none
  else
    (reviseCertificate tools.pgp tools.armor r.call c.keys k.key r.source).toOption.map fun revised =>
      ((({ c with keys := revised.2 } : Committee).syncSigningKeys tools c.keys k.key.fingerprint).consumeHints k).link
        k.key.fingerprint

/-- The loop of `__database_add_models_core`, with the fingerprints that are stored. -/
def storeAll (r : Reflection) : Committee → List ParsedKey → Committee × List Str
  | c, [] => (c, [])
  | c, k :: ks =>
    match c.store tools r k with
    | none => storeAll r c ks
    | some stored => ((storeAll r stored ks).1, k.key.fingerprint :: (storeAll r stored ks).2)

/-- The outcomes of `ensure_associated`: the fingerprints of the results and the number of errors. -/
structure Outcomes where
  present : List Str
  errors : Nat

/-- `ensure_associated`, up to the file that is generated. -/
def ensureAssociated (r : Reflection) (c : Committee) : Committee × Outcomes :=
  if r.unreadable then (c, ⟨[], 1⟩)
  else
    let roes := blockModels tools (r.blocks tools)
    if r.failsBefore then (c, ⟨[], roes.length⟩)
    else
      let stored := storeAll tools r c roes.reduceOption
      if r.failsAfter then (stored.1, ⟨[], roes.length⟩)
      else (stored.1, ⟨stored.2, roes.length - stored.2.length⟩)

/-! ### The reflection -/

/-- `_ReflectionPlan` -/
structure Plan where
  toFlag : Finset Str
  toRemove : Finset Str
  toClear : Finset Str

/-- `_reflection_plan` -/
def reflectionPlan (present linked inUse flagged : Finset Str) : Plan where
  toFlag := ((linked \ present) ∩ inUse) \ flagged
  toRemove := (linked \ present) \ inUse
  toClear := flagged ∩ present

/-- The fingerprints with a link to the committee. -/
def linked (c : Committee) : Finset Str := c.links.keys.toFinset

/-- The links that are marked. -/
def flagged (c : Committee) : Finset Str := c.linked.filter fun f => ((c.links.get f).bind id).isSome

/-- The certificate has signed an artifact of the catalogue, by the key that the artifact is attributed to. -/
def signed (c : Committee) (fingerprint : Str) : Bool :=
  c.artifacts.any fun key => decide (c.signingKeys.get key = some fingerprint)

/-- `dissociate_fingerprints` -/
def dissociate (c : Committee) (fingerprints : Finset Str) : Committee :=
  { c with links := c.links.filterMap fun f flag => if f ∈ fingerprints then none else some flag }

/-- The marks of some links are set to a value. -/
def mark (c : Committee) (fingerprints : Finset Str) (flag : Option Nat) : Committee :=
  { c with links := c.links.filterMap fun f old => some (if f ∈ fingerprints then flag else old) }

/-- `KeysReflection` -/
structure KeysReflection where
  added : Nat
  removed : Nat
  flagged : Nat
  cleared : Nat
  reliable : Bool
  errors : Nat

/-- `reflect_from_svn` -/
def reflectFromSvn (r : Reflection) (c : Committee) : Committee × KeysReflection :=
  let linked := c.linked
  let flagged := c.flagged
  let (c, outcomes) := c.ensureAssociated tools r
  let present := outcomes.present.toFinset
  let reliable := decide (present.Nonempty ∨ (parseKeyBlocks r.text).length = 0)
  let inUse := linked.filter fun f => c.signed f
  let plan := reflectionPlan present linked inUse flagged
  let toRemove := if reliable then plan.toRemove else ∅
  let toFlag := if reliable then plan.toFlag else ∅
  let c := if toRemove.Nonempty then c.dissociate toRemove else c
  let c := if toFlag.Nonempty then c.mark toFlag (some r.call.now) else c
  let c := if plan.toClear.Nonempty then c.mark plan.toClear none else c
  (c, ⟨(present \ linked).card, toRemove.card, toFlag.card, plan.toClear.card, reliable, outcomes.errors⟩)

end Committee

end Keys

end TrustedReleases
