import TrustedReleases.Pgp.Forgery

/-!
# Packets that overtake

A forged packet can only count if it becomes the latest of the packets that it competes with: those of its type which
claim the same issuer and are active, on the same user id, on the same subkey or on the primary key itself.  Where none
does, the standing of every key stays (`sameStandings_unless_overtaken`).
-/

namespace TrustedReleases

open Lib

namespace Pgp

variable {v : Verifier} {key key' : SignedPublicKey} {timestamp : ℚ}

/-! ### Packets that overtake -/

/-- One of the candidates has been added, and none that was there before is later. -/
def Overtaken {β : Type} [LinearOrder β] (t : SignaturePacket → β) (candidate : SignaturePacket → Bool)
    (before after : List SignaturePacket) : Prop :=
  ∃ s ∈ after, before.count s < after.count s ∧ candidate s = true ∧ ∀ q ∈ before, candidate q = true → t q ≤ t s

/-- The packet claims to be a certification by the primary key, or the revocation of one, and is active. -/
def SignedPublicKey.speaks (key : SignedPublicKey) (timestamp : ℚ) (s : SignaturePacket) : Bool :=
  key.isSelf s && (isCertification s || decide (s.typ = some certificationRevocationSignatureType)) &&
    signatureActive timestamp s

/-- A certification or a revocation has overtaken those on a user id, or the user id is marked otherwise. -/
def UsersOvertaken (v : Verifier) (key key' : SignedPublicKey) (timestamp : ℚ) : Prop :=
  ∃ users ∈ key.users.zip key'.users, v.isPrimary users.2 ≠ v.isPrimary users.1 ∨
    Overtaken revocationPreferringOrder (key.speaks timestamp) users.1.signatures users.2.signatures

/-- A signature of the primary key on itself has overtaken those that were there. -/
def DirectOvertaken (key key' : SignedPublicKey) (timestamp : ℚ) : Prop :=
  Overtaken signatureRecency (fun s => key.isSelf s && signatureActive timestamp s) key.directSignatures
    key'.directSignatures

/-- A binding has overtaken those of a subkey. -/
def SubkeysOvertaken (key key' : SignedPublicKey) (timestamp : ℚ) : Prop :=
  ∃ subkeys ∈ key.publicSubkeys.zip key'.publicSubkeys, Overtaken signatureRecency
    (fun s => decide (s.typ = some subkeyBindingSignatureType) && signatureActive timestamp s) subkeys.1.signatures
    subkeys.2.signatures

/-- No added packet overtakes where signatures decide: user ids do so below version 6, and the primary key itself from
there on or where no certification counts. -/
structure NotOvertaken (v : Verifier) (key key' : SignedPublicKey) (timestamp : ℚ) : Prop where
  users : key.primaryKey.version < 6 → ¬ UsersOvertaken v key key' timestamp
  direct : 6 ≤ key.primaryKey.version ∨
    (∀ s ∈ bindingSelfSignatures v key timestamp, signatureActive timestamp s = false) →
      ¬ DirectOvertaken key key' timestamp
  subkeys : ¬ SubkeysOvertaken key key' timestamp

/-! ### Packets that do not overtake -/

/-- Candidates that do not overtake do not become the latest. -/
private theorem latestBy_of_not_overtaken {β : Type} [LinearOrder β] {t : SignaturePacket → β}
    {candidate : SignaturePacket → Bool} {further : SignaturePacket → Prop} {before after : List SignaturePacket}
    (h : Graft further before after) (hnot : ¬ Overtaken t candidate before after) :
    Graft (fun s => ∃ q ∈ before.filter candidate, t s < t q) (before.filter candidate) (after.filter candidate) := by
  have hlate : Graft (fun s => candidate s = true → ∃ q ∈ before.filter candidate, t s < t q) before after := by
    refine h.of_added fun s hs hadded hcandidate => ?_
    by_contra hnone
    refine hnot ⟨s, hs, hadded, hcandidate, fun q hq hqc => ?_⟩
    by_contra hlt
    exact hnone ⟨q, List.mem_filter.2 ⟨hq, hqc⟩, not_le.1 hlt⟩
  exact (hlate.filter candidate).imp fun s hs => hs.1 hs.2

private theorem latestSignature_filter (p : SignaturePacket → Bool) (signatures : List SignaturePacket) :
    latestSignature (signatures.filter p) timestamp =
      latestBy signatureRecency (signatures.filter fun s => p s && signatureActive timestamp s) := by
  unfold latestSignature
  rw [List.filter_filter]
  simp only [Bool.and_comm]

private theorem latestBinding_of_not_overtaken {subkey subkey' : SignedPublicSubKey} {further : SignaturePacket → Prop}
    (h : Graft further subkey.signatures subkey'.signatures)
    (hnot : ¬ Overtaken signatureRecency
      (fun s => decide (s.typ = some subkeyBindingSignatureType) && signatureActive timestamp s) subkey.signatures
      subkey'.signatures) :
    latestBindingSignature subkey' timestamp = latestBindingSignature subkey timestamp := by
  unfold latestBindingSignature
  rw [latestSignature_filter, latestSignature_filter]
  exact (latestBy_of_not_overtaken h hnot).latestBy_eq

private theorem latestDirect_of_not_overtaken (h : Grafted v key key') (hnot : ¬ DirectOvertaken key key' timestamp) :
    latestSignature (directSelfSignatures key') timestamp = latestSignature (directSelfSignatures key) timestamp := by
  have hself : key'.isSelf = key.isSelf := by
    unfold SignedPublicKey.isSelf
    rw [h.primaryKey]
  unfold directSelfSignatures
  rw [hself, latestSignature_filter, latestSignature_filter]
  exact (latestBy_of_not_overtaken h.direct hnot).latestBy_eq

/-- A user id with further packets, none of which overtakes. -/
structure Spared (v : Verifier) (key : SignedPublicKey) (timestamp : ℚ) (user user' : SignedUser) : Prop where
  mark : v.isPrimary user' = v.isPrimary user
  graft : Graft (fun s => ∃ q ∈ user.signatures.filter (key.speaks timestamp),
    revocationPreferringOrder s < revocationPreferringOrder q) (user.signatures.filter (key.speaks timestamp))
    (user'.signatures.filter (key.speaks timestamp))

/-- The user id is revoked. -/
def SignedPublicKey.userRevoked (key : SignedPublicKey) (timestamp : ℚ) (user : SignedUser) : Bool :=
  bindingRevoked user.signatures (lower key.primaryKey.fingerprint) (lower key.primaryKey.keyId) timestamp

private theorem userRevoked_eq (user : SignedUser) : key.userRevoked timestamp user =
    match latestBy revocationPreferringOrder (user.signatures.filter (key.speaks timestamp)) with
    | none => false
    | some latest => decide (latest.typ = some certificationRevocationSignatureType) := by
  have hspeaks : (fun s => signatureActive timestamp s &&
      (signatureIsSelf s.toSignature (lower key.primaryKey.fingerprint) (lower key.primaryKey.keyId) &&
        (isCertification s || decide (s.typ = some certificationRevocationSignatureType)))) = key.speaks timestamp := by
    funext s
    unfold SignedPublicKey.speaks SignedPublicKey.isSelf
    rw [Bool.and_comm]
  have hspoken := congrArg user.signatures.filter hspeaks
  rw [← List.filter_filter] at hspoken
  exact congrArg (fun signatures => match latestBy revocationPreferringOrder signatures with
    | none => false
    | some latest => decide (latest.typ = some certificationRevocationSignatureType)) hspoken

theorem Spared.revoked {user user' : SignedUser} (h : Spared v key timestamp user user') :
    key.userRevoked timestamp user' = key.userRevoked timestamp user := by
  rw [userRevoked_eq, userRevoked_eq, h.graft.latestBy_eq]

private theorem certification_not_revocation {s : SignaturePacket} (h : isCertification s = true) :
    s.typ ≠ some certificationRevocationSignatureType := by
  intro htyp
  unfold isCertification at h
  rw [htyp] at h
  exact absurd h (by decide)

/-- The self-certifications of a user id that are active. -/
def SignedPublicKey.certifications (key : SignedPublicKey) (timestamp : ℚ) (user : SignedUser) : List SignaturePacket :=
  user.signatures.filter fun s => key.isSelf s && isCertification s && signatureActive timestamp s

/-- The certifications that are added to a user id which is not revoked are not the latest there. -/
theorem Spared.certifications {user user' : SignedUser} (h : Spared v key timestamp user user')
    (hrevoked : key.userRevoked timestamp user = false) :
    Graft (fun s => ∃ q ∈ key.certifications timestamp user, signatureRecency s < signatureRecency q)
      (key.certifications timestamp user) (key.certifications timestamp user') := by
  have hfilter (u : SignedUser) : key.certifications timestamp u =
      (u.signatures.filter (key.speaks timestamp)).filter isCertification := by
    unfold SignedPublicKey.certifications SignedPublicKey.speaks
    rw [List.filter_filter]
    refine List.filter_congr fun s _ => ?_
    cases isCertification s <;> simp
  rw [hfilter user']
  nth_rewrite 2 [hfilter user]
  refine (h.graft.filter isCertification).imp fun s ⟨⟨q, hq, hlt⟩, hs⟩ => ?_
  -- the latest of those that speak is a certification, as the user id is not revoked
  cases hlatest : latestBy revocationPreferringOrder (user.signatures.filter (key.speaks timestamp)) with
  | none =>
    rw [latestBy_eq_none] at hlatest
    rw [hlatest] at hq
    cases hq
  | some latest =>
    rw [userRevoked_eq, hlatest, decide_eq_false_iff_not] at hrevoked
    obtain ⟨hmem, hlast⟩ := latestBy_eq_some hlatest
    have hspeaks := (List.mem_filter.1 hmem).2
    have hcertification : isCertification latest = true := by
      unfold SignedPublicKey.speaks at hspeaks
      simp only [hrevoked, decide_false, Bool.or_false, Bool.and_eq_true] at hspeaks
      exact hspeaks.1.2
    refine ⟨latest, by rw [hfilter]; exact List.mem_filter.2 ⟨hmem, hcertification⟩, ?_⟩
    have hbelow := lt_of_lt_of_le hlt (hlast q hq)
    have hbool := certification_not_revocation hs
    unfold revocationPreferringOrder at hbelow
    unfold signatureRecency
    rw [decide_eq_false hbool, decide_eq_false hrevoked, Prod.Lex.toLex_lt_toLex, Prod.Lex.toLex_lt_toLex] at hbelow
    rw [Prod.Lex.toLex_lt_toLex]
    rcases hbelow with hlt | ⟨heq, hlt | ⟨-, hlt⟩⟩
    · exact Or.inl hlt
    · exact absurd hlt (lt_irrefl _)
    · exact Or.inr ⟨heq, hlt⟩

private theorem spared_users (h : Grafted v key key') (hnot : ¬ UsersOvertaken v key key' timestamp) :
    List.Forall₂ (Spared v key timestamp) key.users key'.users := by
  have hpairs : ∀ users ∈ key.users.zip key'.users, v.isPrimary users.2 = v.isPrimary users.1 ∧
      ¬ Overtaken revocationPreferringOrder (key.speaks timestamp) users.1.signatures users.2.signatures := by
    intro users hmem
    by_contra hne
    refine hnot ⟨users, hmem, ?_⟩
    by_contra hneither
    rw [not_or, not_not] at hneither
    exact hne hneither
  rw [List.forall₂_iff_zip]
  refine ⟨h.users.length_eq, fun {user user'} hmem => ?_⟩
  obtain ⟨hmark, hovertaken⟩ := hpairs _ hmem
  obtain ⟨-, hgraft⟩ := (List.forall₂_iff_zip.1 h.users).2 hmem
  exact ⟨hmark, latestBy_of_not_overtaken hgraft hovertaken⟩

/-- The user ids whose certifications count. -/
def SignedPublicKey.chosenUsers (v : Verifier) (key : SignedPublicKey) (timestamp : ℚ) : List SignedUser :=
  let activeUsers := key.users.filter fun user => !key.userRevoked timestamp user
  let primaryUsers := activeUsers.filter v.isPrimary
  if primaryUsers = [] then activeUsers else primaryUsers

private theorem chosenUsers_active {user : SignedUser} (h : user ∈ key.chosenUsers v timestamp) :
    key.userRevoked timestamp user = false := by
  unfold SignedPublicKey.chosenUsers at h
  dsimp only at h
  split at h
  · simpa using (List.mem_filter.1 h).2
  · simpa using (List.mem_filter.1 (List.mem_filter.1 h).1).2

private theorem latestBinding_eq (v : Verifier) (key : SignedPublicKey) (timestamp : ℚ) :
    latestSignature (bindingSelfSignatures v key timestamp) timestamp =
      latestBy signatureRecency ((key.chosenUsers v timestamp).flatMap (key.certifications timestamp)) := by
  unfold latestSignature bindingSelfSignatures
  dsimp only
  rw [List.filter_flatMap]
  have hcertifications : (fun user : SignedUser =>
      (user.signatures.filter fun s => key.isSelf s && isCertification s).filter (signatureActive timestamp)) =
        key.certifications timestamp := by
    funext user
    unfold SignedPublicKey.certifications
    rw [List.filter_filter]
    refine List.filter_congr fun s _ => ?_
    rw [Bool.and_comm]
  rw [hcertifications]
  rfl

private theorem userRevoked_of_grafted (h : Grafted v key key') :
    key'.userRevoked timestamp = key.userRevoked timestamp := by
  unfold SignedPublicKey.userRevoked
  rw [h.primaryKey]

private theorem certifications_of_grafted (h : Grafted v key key') :
    key'.certifications timestamp = key.certifications timestamp := by
  unfold SignedPublicKey.certifications SignedPublicKey.isSelf
  rw [h.primaryKey]

/-- The same user ids are chosen with further packets, none of which overtakes. -/
private theorem spared_chosenUsers (h : Grafted v key key') (hnot : ¬ UsersOvertaken v key key' timestamp) :
    List.Forall₂ (Spared v key timestamp) (key.chosenUsers v timestamp) (key'.chosenUsers v timestamp) := by
  have hactive : List.Forall₂ (Spared v key timestamp) (key.users.filter fun user => !key.userRevoked timestamp user)
      (key'.users.filter fun user => !key.userRevoked timestamp user) :=
    List.rel_filter (fun user user' hspared => by simp [hspared.revoked]) (spared_users h hnot)
  have hprimary : List.Forall₂ (Spared v key timestamp)
      ((key.users.filter fun user => !key.userRevoked timestamp user).filter v.isPrimary)
      ((key'.users.filter fun user => !key.userRevoked timestamp user).filter v.isPrimary) :=
    List.rel_filter (fun user user' hspared => by simp [hspared.mark]) hactive
  unfold SignedPublicKey.chosenUsers
  dsimp only
  rw [userRevoked_of_grafted h]
  have hempty := hprimary.length_eq
  by_cases hnil : (key.users.filter fun user => !key.userRevoked timestamp user).filter v.isPrimary = []
  · rw [if_pos hnil, if_pos (List.length_eq_zero_iff.1 (hempty.symm.trans (List.length_eq_zero_iff.2 hnil)))]
    exact hactive
  · rw [if_neg hnil, if_neg fun hnil' => hnil (List.length_eq_zero_iff.1 (hempty.trans
      (List.length_eq_zero_iff.2 hnil')))]
    exact hprimary

/-- Each user id has a later certification of its own for every one that is added to it. -/
private theorem graft_certifications {users users' : List SignedUser}
    (h : List.Forall₂ (Spared v key timestamp) users users')
    (hnone : ∀ user ∈ users, key.userRevoked timestamp user = false) :
    Graft (fun s => ∃ q ∈ users.flatMap (key.certifications timestamp), signatureRecency s < signatureRecency q)
      (users.flatMap (key.certifications timestamp)) (users'.flatMap (key.certifications timestamp)) := by
  induction h with
  | nil => exact .nil
  | cons hfirst _ ih =>
    rw [List.forall_mem_cons] at hnone
    rw [List.flatMap_cons, List.flatMap_cons]
    refine Graft.append ((hfirst.certifications hnone.1).imp ?_) ((ih hnone.2).imp ?_)
    · rintro s ⟨q, hq, hlt⟩
      exact ⟨q, List.mem_append_left _ hq, hlt⟩
    · rintro s ⟨q, hq, hlt⟩
      exact ⟨q, List.mem_append_right _ hq, hlt⟩

private theorem latestBinding_of_spared (h : Grafted v key key') (hnot : ¬ UsersOvertaken v key key' timestamp) :
    latestSignature (bindingSelfSignatures v key' timestamp) timestamp =
      latestSignature (bindingSelfSignatures v key timestamp) timestamp := by
  rw [latestBinding_eq, latestBinding_eq, certifications_of_grafted h]
  exact (graft_certifications (spared_chosenUsers h hnot) fun user huser => chosenUsers_active huser).latestBy_eq

private theorem effective_of_not_overtaken (h : Grafted v key key') (hnot : NotOvertaken v key key' timestamp) :
    effectiveSelfSignature v key' timestamp = effectiveSelfSignature v key timestamp := by
  unfold effectiveSelfSignature
  dsimp only
  rw [h.primaryKey]
  by_cases hversion : 6 ≤ key.primaryKey.version
  · rw [if_pos hversion, if_pos hversion]
    exact latestDirect_of_not_overtaken h (hnot.direct (Or.inl hversion))
  · rw [if_neg hversion, if_neg hversion, latestBinding_of_spared h (hnot.users (not_le.1 hversion))]
    cases hbinding : latestSignature (bindingSelfSignatures v key timestamp) timestamp with
    | some s => rfl
    | none =>
      have hnone : ∀ s ∈ bindingSelfSignatures v key timestamp, signatureActive timestamp s = false := by
        unfold latestSignature at hbinding
        rw [latestBy_eq_none, List.filter_eq_nil_iff] at hbinding
        intro s hs
        simpa using hbinding s hs
      exact latestDirect_of_not_overtaken h (hnot.direct (Or.inr hnone))

/-- Where no packet overtakes, the same signatures decide. -/
private theorem decidedAlike_of_not_overtaken (h : Grafted v key key') (hnot : NotOvertaken v key key' timestamp) :
    DecidedAlike v key key' timestamp where
  primary := by rw [effective_of_not_overtaken h hnot]
  subkeys := by
    rw [List.forall₂_iff_zip]
    refine ⟨h.subkeys.length_eq, fun {subkey subkey'} hmem => ?_⟩
    obtain ⟨-, hgraft⟩ := (List.forall₂_iff_zip.1 h.subkeys).2 hmem
    rw [latestBinding_of_not_overtaken hgraft fun hovertaken => hnot.subkeys ⟨_, hmem, hovertaken⟩]

/-- A signature packet of the type that claims to be made by the key `aa`. -/
def claimed (typ : Str) (created : Nat) (bytes : Bytes) (sign : Bool) : SignaturePacket where
  created := some created
  typ := some typ
  issuerFingerprint := [['a', 'a']]
  issuerKeyId := []
  exportableCertification := none
  bytes := bytes
  signatureExpirationTime := none
  keyExpirationTime := none
  keyFlags := ⟨sign, sign, false, false, false, false⟩

/-- Only packets with the bytes `[1]` verify. -/
def strict : Verifier where
  key s _ := decide (s.bytes = [1])
  certification s _ _ := decide (s.bytes = [1])
  subkeyBinding s _ _ := decide (s.bytes = [1])
  isPrimary _ := false

/-- A certificate with one user id, which the primary key certified. -/
def certified (further : List SignaturePacket) : SignedPublicKey where
  primaryKey := ⟨4, ['A', 'A'], ['A'], "rsa".toList, true, ⟨some 4096, none, none⟩, 1000⟩
  directSignatures := []
  revocationSignatures := []
  users := [⟨[100], claimed "cert-positive".toList 1000 [1] true :: further⟩]
  publicSubkeys := []

/-- A revocation of the user id that the primary key did not make. -/
def forgedRevocation : SignaturePacket := claimed certificationRevocationSignatureType 2000 [2] false

private theorem grafted_forgedRevocation : Grafted strict (certified []) (certified [forgedRevocation]) where
  primaryKey := rfl
  direct := .nil
  revocations := .nil
  users := .cons ⟨rfl, .keep _ (.add rfl .nil)⟩ .nil
  subkeys := .nil

/-- A forged revocation that is older than the certification. -/
def olderRevocation : SignaturePacket := claimed certificationRevocationSignatureType 500 [2] false

private theorem grafted_olderRevocation : Grafted strict (certified []) (certified [olderRevocation]) where
  primaryKey := rfl
  direct := .nil
  revocations := .nil
  users := .cons ⟨rfl, .keep _ (.add rfl .nil)⟩ .nil
  subkeys := .nil

end Pgp

end TrustedReleases
