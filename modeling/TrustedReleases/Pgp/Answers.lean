import TrustedReleases.Pgp.Standing

/-!
# The two answers about a key

`signing_key_facts` answers for every key of a certificate, and `signing_key_status` for the key that made a signature.
They agree about every key that issuers can name (`signingKeyStatus_agrees`).
-/

namespace TrustedReleases

open Lib

namespace Pgp

variable {v : Verifier} {key : SignedPublicKey} {timestamp : ℚ} {issuerFingerprints issuerKeyIds : List Str}

/-- The key is named by its fingerprint or by its id. -/
def SigningKeyFacts.isNamed (issuerFingerprints issuerKeyIds : List Str) (f : SigningKeyFacts) : Bool :=
  decide (f.fingerprint ∈ issuerFingerprints ∨ f.keyId ∈ issuerKeyIds)

/-- The status that reports the facts of a key. -/
def SigningKeyFacts.status (f : SigningKeyFacts) : SigningKeyStatus where
  identified := true
  fingerprint := some f.fingerprint
  expires := f.expires
  canSign := f.canSign
  revoked := f.revoked
  algorithm := some f.algorithm
  lengthBits := f.lengthBits

/-- The facts of the primary key. -/
def primaryFacts (v : Verifier) (key : SignedPublicKey) (timestamp : ℚ) : SigningKeyFacts where
  fingerprint := lower key.primaryKey.fingerprint
  keyId := lower key.primaryKey.keyId
  isPrimary := true
  algorithm := key.primaryKey.publicKeyAlgorithm
  lengthBits := publicParamsBits key.primaryKey.publicParams
  created := key.primaryKey.createdAt
  expires := keyExpiresAt v key timestamp
  revoked := primaryIsRevoked v key
  canSign := key.primaryKey.canSign && declaresSigning (effectiveSelfSignature v key timestamp)

private theorem signingKeyFacts_eq : signingKeyFacts v key timestamp =
    primaryFacts v key timestamp :: key.publicSubkeys.map (subkeyFacts v key timestamp) := rfl

private theorem isNamed_primaryFacts : (primaryFacts v key timestamp).isNamed issuerFingerprints issuerKeyIds =
    issuerIsPrimary key issuerFingerprints issuerKeyIds := rfl

private theorem isNamed_subkeyFacts (subkey : SignedPublicSubKey) :
    (subkeyFacts v key timestamp subkey).isNamed issuerFingerprints issuerKeyIds =
      namedIssuer issuerFingerprints issuerKeyIds subkey.key := rfl

/-- A status that identifies a key reports the facts of a key that is named. -/
private theorem signingKeyStatus_cases :
    (∃ f ∈ signingKeyFacts v key timestamp, f.isNamed issuerFingerprints issuerKeyIds = true ∧
      signingKeyStatus v key issuerFingerprints issuerKeyIds timestamp = f.status) ∨
    ((∀ f ∈ signingKeyFacts v key timestamp, f.isNamed issuerFingerprints issuerKeyIds = false) ∧
      (signingKeyStatus v key issuerFingerprints issuerKeyIds timestamp).identified = false) := by
  rw [signingKeyFacts_eq, List.forall_mem_cons]
  unfold signingKeyStatus
  cases hsubkey : issuingSubkey key issuerFingerprints issuerKeyIds with
  | some subkey =>
    left
    have hnamed := List.find?_some hsubkey
    have hmem := List.mem_of_find?_eq_some hsubkey
    refine ⟨subkeyFacts v key timestamp subkey, List.mem_cons_of_mem _ (List.mem_map_of_mem hmem), ?_, rfl⟩
    rw [isNamed_subkeyFacts]
    exact hnamed
  | none =>
    by_cases hprimary : issuerIsPrimary key issuerFingerprints issuerKeyIds = true
    · left
      refine ⟨primaryFacts v key timestamp, List.mem_cons_self, ?_, ?_⟩
      · rw [isNamed_primaryFacts]
        exact hprimary
      · simp only [hprimary, if_true]
        rfl
    · right
      rw [Bool.not_eq_true] at hprimary
      refine ⟨⟨?_, ?_⟩, ?_⟩
      · rw [isNamed_primaryFacts]
        exact hprimary
      · intro f hf
        obtain ⟨subkey, hmem, rfl⟩ := List.mem_map.1 hf
        have hnot := List.find?_eq_none.1 hsubkey subkey hmem
        rw [isNamed_subkeyFacts]
        simpa using hnot
      · simp only [hprimary, Bool.false_eq_true, if_false]

/-- Issuers that name exactly one key of a certificate get the facts of that key, and issuers that name none get no
key. -/
theorem signingKeyStatus_agrees (v : Verifier) (key : SignedPublicKey) (timestamp : ℚ)
    (issuerFingerprints issuerKeyIds : List Str) :
    (∀ f, (signingKeyFacts v key timestamp).filter (·.isNamed issuerFingerprints issuerKeyIds) = [f] →
      signingKeyStatus v key issuerFingerprints issuerKeyIds timestamp = f.status) ∧
    ((signingKeyFacts v key timestamp).filter (·.isNamed issuerFingerprints issuerKeyIds) = [] →
      (signingKeyStatus v key issuerFingerprints issuerKeyIds timestamp).identified = false) := by
  rcases @signingKeyStatus_cases v key timestamp issuerFingerprints issuerKeyIds with ⟨g, hg, hnamed, hstatus⟩ |
    ⟨hnone, hstatus⟩
  · have hmem : g ∈ (signingKeyFacts v key timestamp).filter (·.isNamed issuerFingerprints issuerKeyIds) :=
      List.mem_filter.2 ⟨hg, hnamed⟩
    constructor
    · intro f hone
      rw [hone, List.mem_singleton] at hmem
      rw [hstatus, hmem]
    · intro hempty
      rw [hempty] at hmem
      cases hmem
  · constructor
    · intro f hone
      have hf : f ∈ (signingKeyFacts v key timestamp).filter (·.isNamed issuerFingerprints issuerKeyIds) := by
        rw [hone]
        exact List.mem_singleton_self f
      obtain ⟨hf, hnamed⟩ := List.mem_filter.1 hf
      rw [hnone f hf] at hnamed
      cases hnamed
    · intro _
      exact hstatus

/-! ### A certificate with a revoked subkey -/

/-- A signature packet of the key `aa`. -/
def selfMade (typ : Str) (created : Nat) (keyExpirationTime : Option Nat) : SignaturePacket where
  created := some created
  typ := some typ
  issuerFingerprint := [['a', 'a']]
  issuerKeyId := []
  exportableCertification := none
  bytes := [1]
  signatureExpirationTime := none
  keyExpirationTime := keyExpirationTime
  keyFlags := ⟨false, true, false, false, false, false⟩

/-- A primary key that expires, and a subkey that expires before it and is revoked. -/
def withSubkey : SignedPublicKey where
  primaryKey := ⟨4, ['A', 'A'], ['A'], "rsa".toList, true, ⟨some 4096, none, none⟩, 1000⟩
  directSignatures := []
  revocationSignatures := []
  users := [⟨[100], [selfMade "cert-positive".toList 1000 (some 5000)]⟩]
  publicSubkeys := [⟨⟨4, ['B', 'B'], ['B'], "rsa".toList, true, ⟨some 2048, none, none⟩, 1500⟩,
    [selfMade subkeyBindingSignatureType 1500 (some 2000), selfMade subkeyRevocationSignatureType 1800 none]⟩]

/-- What the key itself made verifies. -/
def verifiesSelfMade : Verifier where
  key s _ := decide (s.bytes = [1])
  certification s _ _ := decide (s.bytes = [1])
  subkeyBinding s _ _ := decide (s.bytes = [1])
  isPrimary _ := false

theorem signingKeyStatus_agrees_revokedSubkey :
    signingKeyStatus verifiesSelfMade withSubkey [['a', 'a']] [] 2000 =
        ⟨true, some ['a', 'a'], some 6000, true, false, some "rsa".toList, some 4096⟩ ∧
      signingKeyStatus verifiesSelfMade withSubkey [['b', 'b']] [] 2000 =
        ⟨true, some ['b', 'b'], some 3500, true, true, some "rsa".toList, some 2048⟩ ∧
      (signingKeyStatus verifiesSelfMade withSubkey [['c', 'c']] [] 2000).identified = false := by
  have hprimary : (signingKeyFacts verifiesSelfMade withSubkey 2000).filter (·.isNamed [['a', 'a']] []) =
      [⟨['a', 'a'], ['a'], true, "rsa".toList, some 4096, 1000, some 6000, false, true⟩] := by
    decide +kernel
  have hsubkey : (signingKeyFacts verifiesSelfMade withSubkey 2000).filter (·.isNamed [['b', 'b']] []) =
      [⟨['b', 'b'], ['b'], false, "rsa".toList, some 2048, 1500, some 3500, true, true⟩] := by
    decide +kernel
  have hnone : (signingKeyFacts verifiesSelfMade withSubkey 2000).filter (·.isNamed [['c', 'c']] []) = [] := by
    decide +kernel
  exact ⟨(signingKeyStatus_agrees verifiesSelfMade withSubkey 2000 [['a', 'a']] []).1 _ hprimary,
    (signingKeyStatus_agrees verifiesSelfMade withSubkey 2000 [['b', 'b']] []).1 _ hsubkey,
    (signingKeyStatus_agrees verifiesSelfMade withSubkey 2000 [['c', 'c']] []).2 hnone⟩

end Pgp

end TrustedReleases
