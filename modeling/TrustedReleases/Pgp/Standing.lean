import Mathlib.Data.List.ReduceOption
import TrustedReleases.Pgp.Merge

/-!
# The standing of the keys of a certificate

What a certificate says about its primary key and its subkeys: whether each is revoked, when it expires and whether it
may sign (`atr/pgp.py`).  Signatures are as openpgp reads them, and whether one verifies is left to it (`Verifier`).
Revocations count only if they verify.  Self-certifications and subkey bindings are told by what they claim, and the
latest of them decides.
-/

namespace TrustedReleases

open Lib

namespace Pgp

/-! ### Certificates -/

structure KeyFlags where
  certify : Bool
  sign : Bool
  encryptCommunications : Bool
  encryptStorage : Bool
  authenticate : Bool
  timestamping : Bool
  deriving DecidableEq, Repr

/-- A signature packet, with its bytes. -/
structure SignaturePacket extends Signature where
  bytes : Bytes
  signatureExpirationTime : Option Nat
  keyExpirationTime : Option Nat
  keyFlags : KeyFlags
  deriving DecidableEq, Repr

structure PublicParams where
  rsaBits : Option Nat
  dsaBits : Option Nat
  curveBits : Option Nat
  deriving DecidableEq, Repr

structure PublicKey where
  version : Nat
  fingerprint : Str
  keyId : Str
  publicKeyAlgorithm : Str
  canSign : Bool
  publicParams : PublicParams
  createdAt : Nat
  deriving DecidableEq, Repr

structure SignedUser where
  id : Bytes
  signatures : List SignaturePacket
  deriving DecidableEq, Repr

structure SignedPublicSubKey where
  key : PublicKey
  signatures : List SignaturePacket
  deriving DecidableEq, Repr

structure SignedPublicKey where
  primaryKey : PublicKey
  directSignatures : List SignaturePacket
  revocationSignatures : List SignaturePacket
  users : List SignedUser
  publicSubkeys : List SignedPublicSubKey
  deriving DecidableEq, Repr

/-- The package openpgp: which signatures verify under a primary key, on the key itself, a user id or a subkey, and which
users are marked as primary ones. -/
structure Verifier where
  key : SignaturePacket → PublicKey → Bool
  certification : SignaturePacket → PublicKey → Bytes → Bool
  subkeyBinding : SignaturePacket → PublicKey → PublicKey → Bool
  isPrimary : SignedUser → Bool

def subkeyBindingSignatureType : Str := "subkey-binding".toList

def subkeyRevocationSignatureType : Str := "subkey-revocation".toList

/-! ### Revocations -/

/-- `_revocation_verifies`. -/
def revocationVerifies (v : Verifier) (s : SignaturePacket) (primary : PublicKey) : Bool := v.key s primary

/-- `_primary_is_revoked`. -/
def primaryIsRevoked (v : Verifier) (key : SignedPublicKey) : Bool :=
  key.revocationSignatures.any fun s =>
    decide (s.typ = some keyRevocationSignatureType) && revocationVerifies v s key.primaryKey

/-- `_subkey_is_revoked`. -/
def subkeyIsRevoked (v : Verifier) (primary : PublicKey) (subkey : SignedPublicSubKey) : Bool :=
  subkey.signatures.any fun s =>
    decide (s.typ = some subkeyRevocationSignatureType) && v.subkeyBinding s primary subkey.key

/-! ### The signatures that decide -/

/-- `_signature_active`. -/
def signatureActive (timestamp : ℚ) (s : SignaturePacket) : Bool :=
  let created := s.created.getD 0
  if timestamp < created then false
  else
    match s.signatureExpirationTime with
    | none | some 0 => true
    | some expiration => decide (timestamp < created + expiration)

/-- The key of `_latest_signature`. -/
def signatureRecency (s : SignaturePacket) : Nat ×ₗ Bytes := toLex (s.created.getD 0, s.bytes)

/-- `_latest_signature`. -/
def latestSignature (signatures : List SignaturePacket) (timestamp : ℚ) : Option SignaturePacket :=
  latestBy signatureRecency (signatures.filter (signatureActive timestamp))

/-- `_revocation_preferring_order`. -/
def revocationPreferringOrder (s : SignaturePacket) : Nat ×ₗ Bool ×ₗ Bytes :=
  toLex (s.created.getD 0, toLex (decide (s.typ = some certificationRevocationSignatureType), s.bytes))

/-- The packet claims to be a certification. -/
def isCertification (s : SignaturePacket) : Bool :=
  s.typ.any fun typ => decide (typ ∈ certificationSignatureTypes)

/-- `_binding_revoked`. -/
def bindingRevoked (signatures : List SignaturePacket) (fingerprint keyId : Str) (timestamp : ℚ) : Bool :=
  let candidates := signatures.filter fun s =>
    signatureIsSelf s.toSignature fingerprint keyId &&
      (isCertification s || decide (s.typ = some certificationRevocationSignatureType))
  match latestBy revocationPreferringOrder (candidates.filter (signatureActive timestamp)) with
  | none => false
  | some latest => decide (latest.typ = some certificationRevocationSignatureType)

/-- The packet claims to be made by the primary key itself. -/
def SignedPublicKey.isSelf (key : SignedPublicKey) (s : SignaturePacket) : Bool :=
  signatureIsSelf s.toSignature (lower key.primaryKey.fingerprint) (lower key.primaryKey.keyId)

/-- `_binding_self_signatures`. -/
def bindingSelfSignatures (v : Verifier) (key : SignedPublicKey) (timestamp : ℚ) : List SignaturePacket :=
  let activeUsers := key.users.filter fun user =>
    !bindingRevoked user.signatures (lower key.primaryKey.fingerprint) (lower key.primaryKey.keyId) timestamp
  let primaryUsers := activeUsers.filter v.isPrimary
  let chosenUsers := if primaryUsers = [] then activeUsers else primaryUsers
  chosenUsers.flatMap fun user => user.signatures.filter fun s => key.isSelf s && isCertification s

/-- `_direct_self_signatures`. -/
def directSelfSignatures (key : SignedPublicKey) : List SignaturePacket := key.directSignatures.filter key.isSelf

/-- `_effective_self_signature`. -/
def effectiveSelfSignature (v : Verifier) (key : SignedPublicKey) (timestamp : ℚ) : Option SignaturePacket :=
  let direct := latestSignature (directSelfSignatures key) timestamp
  if 6 ≤ key.primaryKey.version then direct
  else (latestSignature (bindingSelfSignatures v key timestamp) timestamp).or direct

/-- `_latest_binding_signature`. -/
def latestBindingSignature (subkey : SignedPublicSubKey) (timestamp : ℚ) : Option SignaturePacket :=
  latestSignature (subkey.signatures.filter fun s => decide (s.typ = some subkeyBindingSignatureType)) timestamp

/-! ### What they decide -/

/-- `_declares_signing`. -/
def declaresSigning : Option SignaturePacket → Bool
  | none => false
  | some s =>
    let flags := s.keyFlags
    let declaresAny := flags.certify || flags.sign || flags.encryptCommunications || flags.encryptStorage ||
      flags.authenticate || flags.timestamping
    if declaresAny then flags.sign else true

/-- When a key ends by the signature that decides: `_subkey_expires_at`, and the end of `key_expires_at`. -/
def expiresAt (key : PublicKey) (signature : Option SignaturePacket) : Option Nat :=
  match signature.bind (·.keyExpirationTime) with
  | none | some 0 => none
  | some seconds => some (key.createdAt + seconds)

/-- `key_expires_at`. -/
def keyExpiresAt (v : Verifier) (key : SignedPublicKey) (timestamp : ℚ) : Option Nat :=
  expiresAt key.primaryKey (effectiveSelfSignature v key timestamp)

/-- The least of the expirations that there are. -/
def earliest (expirations : List (Option Nat)) : Option Nat := expirations.reduceOption.min?

/-- `public_params_bits`. -/
def publicParamsBits (params : PublicParams) : Option Nat := (params.rsaBits.or params.dsaBits).or params.curveBits

/-! ### Facts and status -/

structure SigningKeyFacts where
  fingerprint : Str
  keyId : Str
  isPrimary : Bool
  algorithm : Str
  lengthBits : Option Nat
  created : Nat
  expires : Option Nat
  revoked : Bool
  canSign : Bool
  deriving DecidableEq, Repr

/-- The facts that `signing_key_facts` appends for a subkey. -/
def subkeyFacts (v : Verifier) (key : SignedPublicKey) (timestamp : ℚ) (subkey : SignedPublicSubKey) :
    SigningKeyFacts where
  fingerprint := lower subkey.key.fingerprint
  keyId := lower subkey.key.keyId
  isPrimary := false
  algorithm := subkey.key.publicKeyAlgorithm
  lengthBits := publicParamsBits subkey.key.publicParams
  created := subkey.key.createdAt
  expires := earliest [keyExpiresAt v key timestamp,
    expiresAt subkey.key (latestBindingSignature subkey timestamp)]
  revoked := primaryIsRevoked v key || subkeyIsRevoked v key.primaryKey subkey
  canSign := subkey.key.canSign && declaresSigning (latestBindingSignature subkey timestamp)

/-- `signing_key_facts`. -/
def signingKeyFacts (v : Verifier) (key : SignedPublicKey) (timestamp : ℚ) : List SigningKeyFacts :=
  { fingerprint := lower key.primaryKey.fingerprint
    keyId := lower key.primaryKey.keyId
    isPrimary := true
    algorithm := key.primaryKey.publicKeyAlgorithm
    lengthBits := publicParamsBits key.primaryKey.publicParams
    created := key.primaryKey.createdAt
    expires := keyExpiresAt v key timestamp
    revoked := primaryIsRevoked v key
    canSign := key.primaryKey.canSign && declaresSigning (effectiveSelfSignature v key timestamp) } ::
  key.publicSubkeys.map (subkeyFacts v key timestamp)

structure SigningKeyStatus where
  identified : Bool
  fingerprint : Option Str
  expires : Option Nat
  canSign : Bool
  revoked : Bool
  algorithm : Option Str
  lengthBits : Option Nat
  deriving DecidableEq, Repr

/-- The key is one of the named issuers. -/
def namedIssuer (issuerFingerprints issuerKeyIds : List Str) (key : PublicKey) : Bool :=
  decide (lower key.fingerprint ∈ issuerFingerprints ∨ lower key.keyId ∈ issuerKeyIds)

/-- `_issuing_subkey`. -/
def issuingSubkey (key : SignedPublicKey) (issuerFingerprints issuerKeyIds : List Str) : Option SignedPublicSubKey :=
  key.publicSubkeys.find? fun subkey => namedIssuer issuerFingerprints issuerKeyIds subkey.key

/-- `_issuer_is_primary`. -/
def issuerIsPrimary (key : SignedPublicKey) (issuerFingerprints issuerKeyIds : List Str) : Bool :=
  namedIssuer issuerFingerprints issuerKeyIds key.primaryKey

/-- `signing_key_status`. -/
def signingKeyStatus (v : Verifier) (key : SignedPublicKey) (issuerFingerprints issuerKeyIds : List Str)
    (timestamp : ℚ) : SigningKeyStatus :=
  match issuingSubkey key issuerFingerprints issuerKeyIds with
  | some subkey =>
    { identified := true
      fingerprint := some (lower subkey.key.fingerprint)
      expires := earliest [keyExpiresAt v key timestamp,
        expiresAt subkey.key (latestBindingSignature subkey timestamp)]
      canSign := subkey.key.canSign && declaresSigning (latestBindingSignature subkey timestamp)
      revoked := primaryIsRevoked v key || subkeyIsRevoked v key.primaryKey subkey
      algorithm := some subkey.key.publicKeyAlgorithm
      lengthBits := publicParamsBits subkey.key.publicParams }
  | none =>
    if issuerIsPrimary key issuerFingerprints issuerKeyIds then
      { identified := true
        fingerprint := some (lower key.primaryKey.fingerprint)
        expires := keyExpiresAt v key timestamp
        canSign := key.primaryKey.canSign && declaresSigning (effectiveSelfSignature v key timestamp)
        revoked := primaryIsRevoked v key
        algorithm := some key.primaryKey.publicKeyAlgorithm
        lengthBits := publicParamsBits key.primaryKey.publicParams }
    else
      { identified := false
        fingerprint := none
        expires := none
        canSign := false
        revoked := false
        algorithm := none
        lengthBits := none }

end Pgp

end TrustedReleases
