import TrustedReleases.Lib.Dict
import TrustedReleases.Lib.Query
import TrustedReleases.Lib.Str
import TrustedReleases.Pgp.Packets

/-!
# Placements

A certificate as the set of its placements: each section head by itself, and each frame with the head that it is
attached to.  `fragmentBytes` writes placements in a canonical order, which uses what openpgp says about single
packets (`OpenPgp`), and `fragmentPlacements` reads them.
-/

namespace TrustedReleases

open Lib

namespace Pgp

/-! ### What openpgp says about packets -/

structure Signature where
  created : Option Nat
  typ : Option Str
  issuerFingerprint : List Str
  issuerKeyId : List Str
  exportableCertification : Option Bool
  deriving DecidableEq, Repr

inductive Packet where
  | publicKey (fingerprint keyId : Str)
  | publicSubkey (createdAt : Nat)
  | signature (s : Signature)
  | other
  deriving DecidableEq, Repr

/-- The package openpgp: the value of one packet, where parsing does not raise, and whether it accepts a certificate. -/
structure OpenPgp where
  packet : Bytes → Option Packet
  certificate : Bytes → Bool

/-! ### Tags and types -/

def primaryKeyTag : Fin 64 := 6

def publicSubkeyTag : Fin 64 := 14

def signatureTag : Fin 64 := 2

def userAttributeTag : Fin 64 := 17

def userIdTag : Fin 64 := 13

def skippablePacketTags : List (Fin 64) := [10, 12, 21]

/-- The tags of section heads other than the primary, in the order in which they are written. -/
def sectionTags : List (Fin 64) := [userIdTag, userAttributeTag, publicSubkeyTag]

def certificationSignatureTypes : List Str :=
  ["cert-generic".toList, "cert-persona".toList, "cert-casual".toList, "cert-positive".toList]

def keyRevocationSignatureType : Str := "key-revocation".toList

/-- `str.lower`, of hexadecimal digits. -/
def lower (s : Str) : Str := s.map Char.toLower

/-- A head by itself, or a frame attached to a head. -/
abbrev Placement := Frame × Option Frame

/-! ### The canonical order -/

/-- `_parsed_signature`, of a frame that may be a signature. -/
def parsedSignature (pgp : OpenPgp) (f : Frame) : Option Signature :=
  if f.tag = signatureTag then
    match pgp.packet (framed f) with
    | some (.signature s) => some s
    | _ => none
  else none

/-- `_signature_order`. -/
def signatureOrder (pair : Frame × Signature) : Nat ×ₗ Str ×ₗ Bytes :=
  toLex (pair.2.created.getD 0, toLex (pair.2.typ.getD [], pair.1.body))

/-- The order of the frames that are no signatures. -/
def opaqueOrder (f : Frame) : Fin 64 ×ₗ Bytes := toLex (f.tag, f.body)

/-- `_ordered_attachments`. -/
def orderedAttachments (pgp : OpenPgp) (head : Frame) (attached : List Frame) : List Frame :=
  let signatures := attached.filterMap fun f => (parsedSignature pgp f).map fun s => (f, s)
  let opaques := attached.filter fun f => (parsedSignature pgp f).isNone
  let ordered :=
    if head.tag = primaryKeyTag then
      orderBy signatureOrder (signatures.filter fun p => decide (p.2.typ = some keyRevocationSignatureType)) ++
        orderBy signatureOrder (signatures.filter fun p => decide (p.2.typ ≠ some keyRevocationSignatureType))
    else orderBy signatureOrder signatures
  ordered.map (·.1) ++ orderBy opaqueOrder opaques

/-- `_signature_is_self`. -/
def signatureIsSelf (s : Signature) (selfFingerprint selfKeyId : Str) : Bool :=
  decide (selfFingerprint ∈ s.issuerFingerprint.map lower ∨ selfKeyId ∈ s.issuerKeyId.map lower)

/-- `_earliest_self_certification`, where no certification counts as infinity. -/
def earliestSelfCertification (pgp : OpenPgp) (attached : List Frame) (fingerprint keyId : Str) : WithTop Nat :=
  let created := attached.filterMap fun f => (parsedSignature pgp f).bind fun s =>
    if s.typ.any (fun typ => decide (typ ∈ certificationSignatureTypes)) ∧ signatureIsSelf s fingerprint keyId then
      some (s.created.getD 0)
    else none
  match created.min? with
  | some earliest => (earliest : WithTop Nat)
  | none => ⊤

/-- `_section_order`. -/
def sectionOrder (pgp : OpenPgp) (head : Frame) (attached : List Frame) (fingerprint keyId : Str) :
    WithTop Nat ×ₗ Bytes :=
  if head.tag ≠ publicSubkeyTag then toLex (earliestSelfCertification pgp attached fingerprint keyId, head.body)
  else
    match pgp.packet (framed head) with
    | some (.publicSubkey createdAt) => toLex ((createdAt : WithTop Nat), head.body)
    | _ => toLex (⊤, head.body)

/-! ### Writing -/

/-- Section heads with the frames attached to each. -/
abbrev Sections := Dict Frame (List Frame)

/-- The frames attached to a head. -/
def Sections.attached (sections : Sections) (head : Frame) : List Frame := (Dict.get sections head).getD []

/-- `_emitted_section`. -/
def emittedSection (pgp : OpenPgp) (head : Frame) (attached : List Frame) : Bytes :=
  (head :: orderedAttachments pgp head attached).flatMap framed

/-- The heads of a tag in their order. -/
def sectionHeads (pgp : OpenPgp) (sections : Sections) (fingerprint keyId : Str) (tag : Fin 64) : List Frame :=
  orderBy (fun head => sectionOrder pgp head (sections.attached head) fingerprint keyId)
    (sections.keys.filter fun head => decide (head.tag = tag))

/-- `_emitted_sections`. -/
def emittedSections (pgp : OpenPgp) (sections : Sections) (primary : Frame) (fingerprint keyId : Str)
    (withPrimary : Bool) : Bytes :=
  ((if withPrimary then [primary] else []) ++ orderedAttachments pgp primary (sections.attached primary)).flatMap framed ++
    sectionTags.flatMap fun tag => (sectionHeads pgp sections fingerprint keyId tag).flatMap fun head =>
      emittedSection pgp head (sections.attached head)

/-- The order in which a set is iterated, which is not specified. -/
structure Iteration where
  list : Finset Placement → List Placement
  mem : ∀ s x, x ∈ list s ↔ x ∈ s
  nodup : ∀ s, (list s).Nodup

/-- The sections of placements, collected one after the other. -/
def sectionsOf (placements : List Placement) : Sections :=
  placements.foldl (fun sections x => Dict.set sections x.1 (sections.attached x.1 ++ x.2.toList)) ∅

/-- `fragment_bytes`. -/
def fragmentBytes (pgp : OpenPgp) (order : Iteration) (placements : Finset Placement) (primary : Option Frame) :
    Except Error Bytes := do
  let sections := sectionsOf (order.list placements)
  let primaries := sections.keys.filter fun head => decide (head.tag = primaryKeyTag)
  let primary ← match primary, primaries with
    | some primary, _ => .ok primary
    | none, [primary] => .ok primary
    | none, _ => .error .onePrimary
  raiseIf (∃ head ∈ primaries, head ≠ primary) .anotherPrimary
  match pgp.packet (framed primary) with
  | some (.publicKey fingerprint keyId) =>
    return emittedSections pgp sections primary (lower fingerprint) (lower keyId) (decide ((primary, none) ∈ placements))
  | some _ => .error .notPublicKey
  | none => .error .openpgp

/-! ### Reading -/

/-- The placements of frames after a head. -/
def placeFrames : Frame → List Frame → List Placement
  | _, [] => []
  | head, f :: fs => if f.tag ∈ sectionTags then (f, none) :: placeFrames f fs else (head, some f) :: placeFrames head fs

/-- `fragment_placements`. -/
def fragmentPlacements (data : Bytes) (primary : Option Frame) : Except Error (Finset Placement) := do
  let fs ← frames data
  raiseIf (∃ f ∈ fs, f.tag ∈ skippablePacketTags) .neverCarried
  match primary, fs with
  | some primary, fs => do
    raiseIf (∃ f ∈ fs, f.tag = primaryKeyTag) .extraPrimary
    return (placeFrames primary fs).toFinset
  | none, [] => .error .noPrimary
  | none, f :: fs => do
    raiseIf (f.tag ≠ primaryKeyTag) .noPrimary
    raiseIf (∃ f ∈ fs, f.tag = primaryKeyTag) .extraPrimary
    return ((f, none) :: placeFrames f fs).toFinset

end Pgp

end TrustedReleases
