import Mathlib.Data.List.Forall2
import TrustedReleases.Lib.Graft
import TrustedReleases.Pgp.Standing

/-!
# Forged packets

Signature packets that the primary key did not make, placed anywhere on a certificate.  Revocations among them change
nothing, as they do not verify.  The latest-wins selections do not verify what they select from, and the standing of the
keys stays exactly as long as what decides says the same (`sameStandings_iff_decidedAlike`).
-/

namespace TrustedReleases

open Lib

namespace Pgp

/-! ### Certificates with further packets -/

/-- A certificate with further packets that do not verify under its primary key: on the key itself, on user ids and on
subkeys. -/
structure Grafted (v : Verifier) (key key' : SignedPublicKey) : Prop where
  primaryKey : key'.primaryKey = key.primaryKey
  direct : Graft (fun s => v.key s key.primaryKey = false) key.directSignatures key'.directSignatures
  revocations : Graft (fun s => v.key s key.primaryKey = false) key.revocationSignatures key'.revocationSignatures
  users : List.Forall₂ (fun user user' => user'.id = user.id ∧
    Graft (fun s => v.certification s key.primaryKey user.id = false) user.signatures user'.signatures)
    key.users key'.users
  subkeys : List.Forall₂ (fun subkey subkey' => subkey'.key = subkey.key ∧
    Graft (fun s => v.subkeyBinding s key.primaryKey subkey.key = false) subkey.signatures subkey'.signatures)
    key.publicSubkeys key'.publicSubkeys

/-! ### Standings -/

/-- The standing of one key. -/
structure Standing where
  revoked : Bool
  expires : Option Nat
  canSign : Bool
  deriving DecidableEq, Repr

def SigningKeyFacts.standing (f : SigningKeyFacts) : Standing := ⟨f.revoked, f.expires, f.canSign⟩

def SigningKeyStatus.standing (s : SigningKeyStatus) : Standing := ⟨s.revoked, s.expires, s.canSign⟩

/-- Both certificates report the same standing for every key, among the facts and for every issuer that is named. -/
def SameStandings (v : Verifier) (key key' : SignedPublicKey) (timestamp : ℚ) : Prop :=
  (signingKeyFacts v key' timestamp).map (fun f => (f.fingerprint, f.standing)) =
      (signingKeyFacts v key timestamp).map (fun f => (f.fingerprint, f.standing)) ∧
    ∀ issuerFingerprints issuerKeyIds,
      let status' := signingKeyStatus v key' issuerFingerprints issuerKeyIds timestamp
      let status := signingKeyStatus v key issuerFingerprints issuerKeyIds timestamp
      (status'.fingerprint, status'.standing) = (status.fingerprint, status.standing)

/-- What a signature says of a key: its end, at most that of the primary key, and whether it may sign. -/
def verdict (key : PublicKey) (primaryExpires : Option Nat) (signature : Option SignaturePacket) : Option Nat × Bool :=
  (earliest [primaryExpires, expiresAt key signature], key.canSign && declaresSigning signature)

/-- For the primary key and for each subkey, what decides with the packets says the same as what decides without them. -/
structure DecidedAlike (v : Verifier) (key key' : SignedPublicKey) (timestamp : ℚ) : Prop where
  primary : verdict key.primaryKey none (effectiveSelfSignature v key' timestamp) =
    verdict key.primaryKey none (effectiveSelfSignature v key timestamp)
  subkeys : List.Forall₂ (fun subkey subkey' =>
    verdict subkey.key (keyExpiresAt v key timestamp) (latestBindingSignature subkey' timestamp) =
      verdict subkey.key (keyExpiresAt v key timestamp) (latestBindingSignature subkey timestamp))
    key.publicSubkeys key'.publicSubkeys

variable {v : Verifier} {key key' : SignedPublicKey} {timestamp : ℚ}

/-! ### Revocations -/

private theorem primaryIsRevoked_grafted (h : Grafted v key key') :
    primaryIsRevoked v key' = primaryIsRevoked v key := by
  unfold primaryIsRevoked revocationVerifies
  rw [h.primaryKey]
  refine h.revocations.any_eq fun s hs => ?_
  rw [hs, Bool.and_false]

private theorem subkeyIsRevoked_grafted {primary : PublicKey} {subkey subkey' : SignedPublicSubKey}
    (hkey : subkey'.key = subkey.key)
    (h : Graft (fun s => v.subkeyBinding s primary subkey.key = false) subkey.signatures subkey'.signatures) :
    subkeyIsRevoked v primary subkey' = subkeyIsRevoked v primary subkey := by
  unfold subkeyIsRevoked
  rw [hkey]
  refine h.any_eq fun s hs => ?_
  rw [hs, Bool.and_false]

/-! ### Reports -/

/-- The primary key and its standing. -/
def primaryReport (v : Verifier) (key : SignedPublicKey) (timestamp : ℚ) : Str × Standing :=
  (lower key.primaryKey.fingerprint, ⟨primaryIsRevoked v key, keyExpiresAt v key timestamp,
    key.primaryKey.canSign && declaresSigning (effectiveSelfSignature v key timestamp)⟩)

/-- A subkey and its standing. -/
def subkeyReport (v : Verifier) (key : SignedPublicKey) (timestamp : ℚ) (subkey : SignedPublicSubKey) :
    Str × Standing :=
  ((subkeyFacts v key timestamp subkey).fingerprint, (subkeyFacts v key timestamp subkey).standing)

private theorem signingKeyFacts_report :
    (signingKeyFacts v key timestamp).map (fun f => (f.fingerprint, f.standing)) =
      primaryReport v key timestamp :: key.publicSubkeys.map (subkeyReport v key timestamp) := by
  unfold signingKeyFacts
  rw [List.map_cons, List.map_map]
  rfl

/-- What `signingKeyStatus` reports on, if anything. -/
def issuerReport (v : Verifier) (key : SignedPublicKey) (timestamp : ℚ) (issuerFingerprints issuerKeyIds : List Str) :
    Option (Str × Standing) :=
  match issuingSubkey key issuerFingerprints issuerKeyIds with
  | some subkey => some (subkeyReport v key timestamp subkey)
  | none => if issuerIsPrimary key issuerFingerprints issuerKeyIds then some (primaryReport v key timestamp) else none

private theorem signingKeyStatus_report (issuerFingerprints issuerKeyIds : List Str) :
    let status := signingKeyStatus v key issuerFingerprints issuerKeyIds timestamp
    let report := issuerReport v key timestamp issuerFingerprints issuerKeyIds
    (status.fingerprint, status.standing) = (report.map (·.1), (report.map (·.2)).getD ⟨false, none, false⟩) := by
  unfold signingKeyStatus issuerReport
  cases issuingSubkey key issuerFingerprints issuerKeyIds with
  | some subkey => rfl
  | none =>
    by_cases hprimary : issuerIsPrimary key issuerFingerprints issuerKeyIds = true
    · rw [if_pos hprimary, if_pos hprimary]
      rfl
    · rw [if_neg hprimary, if_neg hprimary]
      rfl

/-- The first elements that meet matching conditions match. -/
private theorem forall₂_find? {α β γ : Type} {f : α → γ} {g : β → γ} {p : α → Bool} {q : β → Bool} {as : List α}
    {bs : List β}
    (h : List.Forall₂ (fun a b => f a = g b ∧ p a = q b) as bs) : (as.find? p).map f = (bs.find? q).map g := by
  induction h with
  | nil => rfl
  | @cons a b as bs hab _ ih =>
    obtain ⟨hvalue, hmeets⟩ := hab
    rw [List.find?_cons, List.find?_cons, hmeets]
    cases q b with
    | true => exact congrArg some hvalue
    | false => exact ih

/-! ### The exact condition -/

private theorem earliest_none (expiration : Option Nat) : earliest [none, expiration] = expiration := by
  cases expiration <;> rfl

/-- The primary key is reported alike exactly if what decides gives it the same verdict. -/
private theorem primaryReport_eq_iff (h : Grafted v key key') :
    primaryReport v key' timestamp = primaryReport v key timestamp ↔
      verdict key.primaryKey none (effectiveSelfSignature v key' timestamp) =
        verdict key.primaryKey none (effectiveSelfSignature v key timestamp) := by
  unfold primaryReport verdict keyExpiresAt
  rw [primaryIsRevoked_grafted h, h.primaryKey, earliest_none, earliest_none]
  simp only [Prod.mk.injEq, Standing.mk.injEq, true_and]

/-- The same verdict on the primary key gives it the same end. -/
private theorem keyExpiresAt_of_verdict (h : Grafted v key key')
    (hverdict : verdict key.primaryKey none (effectiveSelfSignature v key' timestamp) =
      verdict key.primaryKey none (effectiveSelfSignature v key timestamp)) :
    keyExpiresAt v key' timestamp = keyExpiresAt v key timestamp := by
  have hfst := congrArg Prod.fst hverdict
  unfold verdict at hfst
  rw [earliest_none, earliest_none] at hfst
  unfold keyExpiresAt
  rw [h.primaryKey]
  exact hfst

private theorem subkeyReport_eq_iff (h : Grafted v key key')
    (hexpires : keyExpiresAt v key' timestamp = keyExpiresAt v key timestamp) {subkey subkey' : SignedPublicSubKey}
    (hkey : subkey'.key = subkey.key)
    (hgraft : Graft (fun s => v.subkeyBinding s key.primaryKey subkey.key = false) subkey.signatures
      subkey'.signatures) :
    subkeyReport v key' timestamp subkey' = subkeyReport v key timestamp subkey ↔
      verdict subkey.key (keyExpiresAt v key timestamp) (latestBindingSignature subkey' timestamp) =
        verdict subkey.key (keyExpiresAt v key timestamp) (latestBindingSignature subkey timestamp) := by
  have hrevoked := subkeyIsRevoked_grafted hkey hgraft
  unfold subkeyReport subkeyFacts verdict SigningKeyFacts.standing
  simp only [h.primaryKey, primaryIsRevoked_grafted h, hrevoked, hkey, hexpires, Prod.mk.injEq, Standing.mk.injEq,
    true_and]

private theorem forall₂_iff {α β : Type} {r s t : α → β → Prop} {as : List α} {bs : List β} (h : List.Forall₂ r as bs)
    (hst : ∀ a b, r a b → (s a b ↔ t a b)) : List.Forall₂ s as bs ↔ List.Forall₂ t as bs :=
  ⟨List.Forall₂.mp (fun {a b} hr => (hst a b hr).1) h, List.Forall₂.mp (fun {a b} hr => (hst a b hr).2) h⟩

/-- The reports on the keys are the same exactly if what decides says the same. -/
private theorem reports_iff (h : Grafted v key key') :
    (primaryReport v key' timestamp = primaryReport v key timestamp ∧
      List.Forall₂ (fun subkey subkey' => subkeyReport v key' timestamp subkey' = subkeyReport v key timestamp subkey)
        key.publicSubkeys key'.publicSubkeys) ↔ DecidedAlike v key key' timestamp := by
  constructor
  · rintro ⟨hprimary, hsubkeys⟩
    have hverdict := (primaryReport_eq_iff h).1 hprimary
    refine ⟨hverdict, (forall₂_iff h.subkeys fun subkey subkey' ⟨hkey, hgraft⟩ => ?_).1 hsubkeys⟩
    exact subkeyReport_eq_iff h (keyExpiresAt_of_verdict h hverdict) hkey hgraft
  · rintro ⟨hverdict, hsubkeys⟩
    refine ⟨(primaryReport_eq_iff h).2 hverdict, (forall₂_iff h.subkeys fun subkey subkey' ⟨hkey, hgraft⟩ => ?_).2 hsubkeys⟩
    exact subkeyReport_eq_iff h (keyExpiresAt_of_verdict h hverdict) hkey hgraft

private theorem issuerReport_eq (h : Grafted v key key')
    (hprimary : primaryReport v key' timestamp = primaryReport v key timestamp)
    (hsubkeys : List.Forall₂
      (fun subkey subkey' => subkeyReport v key' timestamp subkey' = subkeyReport v key timestamp subkey)
      key.publicSubkeys key'.publicSubkeys) (issuerFingerprints issuerKeyIds : List Str) :
    issuerReport v key' timestamp issuerFingerprints issuerKeyIds =
      issuerReport v key timestamp issuerFingerprints issuerKeyIds := by
  have hissuer : (issuingSubkey key issuerFingerprints issuerKeyIds).map (subkeyReport v key timestamp) =
      (issuingSubkey key' issuerFingerprints issuerKeyIds).map (subkeyReport v key' timestamp) := by
    refine forall₂_find? (h.subkeys.mp ?_ hsubkeys)
    intro subkey subkey' ⟨hkey, _⟩ hreport
    exact ⟨hreport.symm, by rw [hkey]⟩
  have hnamed : issuerIsPrimary key' issuerFingerprints issuerKeyIds =
      issuerIsPrimary key issuerFingerprints issuerKeyIds := by
    unfold issuerIsPrimary
    rw [h.primaryKey]
  unfold issuerReport
  rw [hnamed, hprimary]
  cases hfound : issuingSubkey key issuerFingerprints issuerKeyIds with
  | none =>
    rw [hfound] at hissuer
    rw [Option.map_eq_none_iff.1 hissuer.symm]
  | some subkey =>
    rw [hfound] at hissuer
    obtain ⟨subkey', hfound', hreport⟩ := Option.map_eq_some_iff.1 hissuer.symm
    rw [hfound']
    exact congrArg some hreport

/-- The standing of every key is reported as without the packets exactly if what decides says the same. -/
theorem sameStandings_iff_decidedAlike (h : Grafted v key key') :
    SameStandings v key key' timestamp ↔ DecidedAlike v key key' timestamp := by
  rw [← reports_iff h]
  unfold SameStandings
  rw [signingKeyFacts_report, signingKeyFacts_report, List.cons.injEq]
  constructor
  · intro ⟨⟨hprimary, hsubkeys⟩, _⟩
    refine ⟨hprimary, ?_⟩
    have hmaps : List.Forall₂ Eq (key.publicSubkeys.map (subkeyReport v key timestamp))
        (key'.publicSubkeys.map (subkeyReport v key' timestamp)) := by
      rw [hsubkeys]
      exact List.forall₂_refl _
    rw [List.forall₂_map_left_iff, List.forall₂_map_right_iff] at hmaps
    exact hmaps.imp fun _ _ heq => heq.symm
  · intro ⟨hprimary, hsubkeys⟩
    have hmaps : List.Forall₂ Eq (key'.publicSubkeys.map (subkeyReport v key' timestamp))
        (key.publicSubkeys.map (subkeyReport v key timestamp)) := by
      rw [List.forall₂_map_left_iff, List.forall₂_map_right_iff]
      exact hsubkeys.flip
    rw [List.forall₂_eq_eq_eq] at hmaps
    refine ⟨⟨hprimary, hmaps⟩, fun issuerFingerprints issuerKeyIds => ?_⟩
    have hstatus := @signingKeyStatus_report v key timestamp issuerFingerprints issuerKeyIds
    have hstatus' := @signingKeyStatus_report v key' timestamp issuerFingerprints issuerKeyIds
    rw [issuerReport_eq h hprimary hsubkeys] at hstatus'
    exact hstatus'.trans hstatus.symm

end Pgp

end TrustedReleases
