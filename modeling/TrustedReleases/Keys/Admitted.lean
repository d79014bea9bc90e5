import TrustedReleases.Keys.Log

/-!
# Uploads that are admitted

An upload is stored exactly if its block merges into what is stored for its certificate within the sizes that are
admitted (`reviseCertificate_isOk`): nothing else in it fails on a log that the writer kept.
-/

namespace TrustedReleases

open Lib Pgp

namespace Keys

variable {pgp : OpenPgp} {armor : Armor} {call : Call} {db db' : Database} {fingerprint : Str} {key : Key} {source : Str}
  {blocks : List Str} {state result : Finset Placement}

/-- The placements of the stored block of a certificate, none if there is no certificate. -/
def storedPlacements (db : Database) (fingerprint : Str) : Finset Placement :=
  match db.certificates.get fingerprint with
  | some head => (certificatePlacements head.asciiArmoredKey).toOption.getD ∅
  | none => ∅

/-- The block of a key merged into what is stored, and its placements, if their sizes are admitted. -/
def admitted (pgp : OpenPgp) (armor : Armor) (order : Iteration) (db : Database) (key : Key) :
    Option (Str × Finset Placement) := do
  let previous := storedPlacements db key.fingerprint
  let block ← (mergedInto pgp armor order previous key.asciiArmoredKey).toOption
  let result ← (certificatePlacements block).toOption
  if result ≠ previous ∧ (MAX_CERTIFICATE_BYTES < block.length ∨ MAX_CERTIFICATE_PLACEMENTS < result.card) then none
  else some (block, result)

/-! ### What is stored -/

theorem Chain.stored (h : Chain pgp blocks (db.log fingerprint) (db.certificates.get fingerprint) state) :
    storedPlacements db fingerprint = state := by
  have hheaded := h.headed
  unfold storedPlacements
  cases hget : db.certificates.get fingerprint with
  | none =>
    rw [hget] at hheaded
    refine (Finset.eq_empty_of_forall_notMem fun x hx => ?_).symm
    obtain ⟨⟨block, hblock, -⟩, -⟩ := (h.mem x).1 hx
    rw [hheaded.1] at hblock
    cases hblock
  | some head =>
    rw [hget] at hheaded
    dsimp only
    rw [hheaded.2.1]
    rfl

theorem storedPlacements_congr (h : db'.certificates.get fingerprint = db.certificates.get fingerprint) :
    storedPlacements db' fingerprint = storedPlacements db fingerprint := by
  unfold storedPlacements
  rw [h]

/-- Whether an upload is admitted depends on the certificate with its fingerprint. -/
theorem admitted_congr {order : Iteration}
    (h : db'.certificates.get key.fingerprint = db.certificates.get key.fingerprint) :
    admitted pgp armor order db' key = admitted pgp armor order db key := by
  unfold admitted
  rw [storedPlacements_congr h]

/-- The log of a chain is read. -/
theorem Chain.read (h : Chain pgp blocks (db.log fingerprint) (db.certificates.get fingerprint) state)
    (order : Iteration) :
    certificateChain order db fingerprint (db.certificates.get fingerprint) =
      .ok ((db.log fingerprint).length, state) := by
  have hsorted : orderBy (·.seq) (db.log fingerprint) = db.log fingerprint := orderBy_of_pairwise (by
    have hpairwise : ((db.log fingerprint).map (·.seq)).Pairwise (· ≤ ·) := by
      rw [h.seqs]
      exact List.pairwise_le_range'
    exact List.pairwise_map.1 hpairwise)
  have hfold : lifted (foldDeltas order (deltas (db.log fingerprint))) = .ok state := lifted_eq_ok.2 (h.grows.fold order)
  have hheaded := h.headed
  unfold certificateChain
  simp only [hsorted, raiseIf, h.seqs, ne_eq, not_true_eq_false, if_false, ok_bind, hfold]
  cases hget : db.certificates.get fingerprint with
  | none => rfl
  | some head =>
    rw [hget] at hheaded
    have hplacements : lifted (certificatePlacements head.asciiArmoredKey) = .ok state := lifted_eq_ok.2 hheaded.2.1
    simp only [hheaded.1, if_false, ok_bind, hplacements, not_true_eq_false, pure_eq_ok]

/-! ### What is appended -/

/-- A row is appended at the end. -/
private theorem appendCertificateRow_rows {seq : Nat} {operation : KeyOperation} {raw : Option Bytes}
    {previous : Finset Placement}
    (hok : appendCertificateRow pgp call db fingerprint seq operation source raw previous result = .ok db') :
    ∃ row : KeyAttestable, row.operation = operation ∧ db'.rows = db.rows ++ [row] := by
  unfold appendCertificateRow at hok
  obtain ⟨delta, -, hok⟩ := bind_eq_ok hok
  obtain ⟨applied, -, hok⟩ := bind_eq_ok hok
  obtain ⟨-, hok⟩ := raiseIf_bind_eq_ok.1 hok
  obtain ⟨-, hok⟩ := raiseIf_bind_eq_ok.1 hok
  obtain rfl := Except.ok.inj hok
  exact ⟨_, rfl, rfl⟩

/-- A row from one state of a primary key to another is appended if its number is free. -/
private theorem appendCertificateRow_isOk {primary : Frame} {id keyId : Str} {seq : Nat} {operation : KeyOperation}
    {raw : Option Bytes} (hpacket : pgp.packet (framed primary) = some (.publicKey id keyId))
    (hstate : State primary state ∨ state = ∅) (hresult : State primary result)
    (hfree : ∀ row ∈ db.log fingerprint, row.seq ≠ seq) :
    ∃ db', appendCertificateRow pgp call db fingerprint seq operation source raw state result = .ok db' := by
  obtain ⟨delta, hdelta, happly⟩ := delta_step call.order hstate hresult hpacket
  have hnot : ¬ ∃ row ∈ db.log fingerprint, row.seq = seq := by
    rintro ⟨row, hrow, heq⟩
    exact hfree row hrow heq
  unfold appendCertificateRow
  simp only [lifted_eq_ok.2 hdelta, ok_bind, lifted_eq_ok.2 happly, raiseIf, ne_eq, not_true_eq_false, if_false, hnot]
  exact ⟨_, rfl⟩

/-- The row of an upload is written if the placements are others than before. -/
private theorem appendRevision_rows {seq : Nat} {previous : Finset Placement} {revised : Nat × Database}
    (hok : appendRevision pgp call db key source seq previous result = .ok revised) :
    ∃ rows, revised.2.rows = db.rows ++ rows ∧
      rows.any (fun row => decide (row.operation = .revise)) = decide (result ≠ previous) := by
  unfold appendRevision at hok
  split_ifs at hok with hchanged
  · obtain ⟨db₁, happend, hok⟩ := bind_eq_ok hok
    obtain rfl := Except.ok.inj hok
    obtain ⟨row, hoperation, hrow⟩ := appendCertificateRow_rows happend
    exact ⟨[row], hrow, by simp [hoperation, hchanged]⟩
  · obtain rfl := Except.ok.inj hok
    exact ⟨[], (List.append_nil _).symm, by simp [hchanged]⟩

/-- The row that brings a certificate back is not one of an upload. -/
private theorem appendRestoration_rows {seq : Nat} {deleted : Option Nat}
    (hok : appendRestoration pgp call db key deleted source seq result = .ok db') :
    ∃ rows, db'.rows = db.rows ++ rows ∧ rows.any (fun row => decide (row.operation = .revise)) = false := by
  unfold appendRestoration at hok
  split at hok
  · obtain rfl := Except.ok.inj hok
    exact ⟨[], (List.append_nil _).symm, rfl⟩
  · obtain ⟨row, hoperation, hrow⟩ := appendCertificateRow_rows hok
    exact ⟨[row], hrow, by simp [hoperation]⟩

private theorem appendRevision_isOk {primary : Frame} {id keyId : Str} {seq : Nat}
    (hpacket : pgp.packet (framed primary) = some (.publicKey id keyId)) (hstate : State primary state ∨ state = ∅)
    (hresult : State primary result) (hfree : ∀ row ∈ db.log key.fingerprint, row.seq ≠ seq + 1) :
    ∃ revised, appendRevision pgp call db key source seq state result = .ok revised := by
  unfold appendRevision
  split_ifs
  · have hrow : ∃ db₁, appendCertificateRow pgp call db key.fingerprint (seq + 1) .revise source (rawInput source key)
        state result = .ok db₁ := appendCertificateRow_isOk hpacket hstate hresult hfree
    obtain ⟨db₁, happend⟩ := hrow
    rw [happend]
    exact ⟨_, rfl⟩
  · exact ⟨_, rfl⟩

private theorem appendRestoration_isOk {primary : Frame} {id keyId : Str} {seq : Nat} (deleted : Option Nat)
    (hpacket : pgp.packet (framed primary) = some (.publicKey id keyId)) (hresult : State primary result)
    (hfree : ∀ row ∈ db.log key.fingerprint, row.seq ≠ seq + 1) :
    ∃ db', appendRestoration pgp call db key deleted source seq result = .ok db' := by
  unfold appendRestoration
  split
  · exact ⟨_, rfl⟩
  · exact appendCertificateRow_isOk hpacket (.inl hresult) hresult hfree

/-- A state that is merged into one of a primary key is of that key, or empty. -/
private theorem state_of_subset {primary : Frame} (hresult : State primary result) (hsub : state ⊆ result)
    (hstate : state = ∅ ∨ ∃ primary', State primary' state) : State primary state ∨ state = ∅ := by
  rcases hstate with hempty | ⟨primary', hstate⟩
  · exact .inr hempty
  · left
    rcases hresult.heads _ (hsub hstate.holds) with heq | ⟨hsection, -⟩
    · have hsame : primary' = primary := heq
      rwa [hsame] at hstate
    · exact absurd hstate.primaryTag (sectionTags_clear _ hsection).1

/-! ### What is admitted -/

theorem admitted_eq_some {order : Iteration} {block : Str} (h : admitted pgp armor order db key = some (block, result)) :
    mergedInto pgp armor order (storedPlacements db key.fingerprint) key.asciiArmoredKey = .ok block ∧
      certificatePlacements block = .ok result ∧
      ¬ (result ≠ storedPlacements db key.fingerprint ∧
        (MAX_CERTIFICATE_BYTES < block.length ∨ MAX_CERTIFICATE_PLACEMENTS < result.card)) := by
  unfold admitted at h
  obtain ⟨merged, hmerged, h⟩ := Option.bind_eq_some_iff.1 h
  obtain ⟨placements, hplacements, h⟩ := Option.bind_eq_some_iff.1 h
  split_ifs at h with hsizes
  obtain ⟨rfl, rfl⟩ := Prod.mk.inj (Option.some.inj h)
  exact ⟨toOption_eq_some.1 hmerged, toOption_eq_some.1 hplacements, hsizes⟩

/-- What an upload that is stored leaves: it is admitted, the certificate has the merged placements and the merged block if
they are others than before, and then the log has a row for it. -/
theorem reviseCertificate_admitted {stored : KeyStatus × Database}
    (h : Chain pgp blocks (db.log key.fingerprint) (db.certificates.get key.fingerprint) state)
    (hok : reviseCertificate pgp armor call db key source = .ok stored) :
    ∃ block result certificate, admitted pgp armor call.order db key = some (block, result) ∧
      stored.2.certificates.get key.fingerprint = some certificate ∧
      certificatePlacements certificate.asciiArmoredKey = .ok result ∧
      (result ≠ storedPlacements db key.fingerprint → certificate.asciiArmoredKey = block) ∧
      ((stored.2.rows.drop db.rows.length).any (fun row => decide (row.operation = .revise)) =
        decide (result ≠ storedPlacements db key.fingerprint)) := by
  unfold reviseCertificate at hok
  obtain ⟨chain, hchain, hok⟩ := bind_eq_ok hok
  obtain rfl := certificateChain_ok h.toLogged hchain
  obtain ⟨block, hblock, hok⟩ := bind_eq_ok hok
  obtain ⟨result, hresult, hok⟩ := bind_eq_ok hok
  obtain ⟨hsizes, hok⟩ := raiseIf_bind_eq_ok.1 hok
  obtain ⟨revised, hrevised, hok⟩ := bind_eq_ok hok
  obtain ⟨restored, hrestored, hok⟩ := bind_eq_ok hok
  obtain rfl := Except.ok.inj hok
  dsimp only at hblock hsizes hrevised hrestored ⊢
  rw [decide_eq_true_eq] at hsizes
  have hadmitted : admitted pgp armor call.order db key = some (block, result) := by
    unfold admitted
    rw [h.stored]
    simp only [toOption_eq_some.2 (lifted_eq_ok.1 hblock), toOption_eq_some.2 (lifted_eq_ok.1 hresult), Option.bind_eq_bind,
      Option.bind_some, if_neg hsizes]
  obtain ⟨x, hx⟩ := Finset.nonempty_iff_ne_empty.2 (certificatePlacements_nonempty (lifted_eq_ok.1 hresult))
  let head := revisedHead (db.certificates.get key.fingerprint) key.fingerprint block (decide (result ≠ state))
  refine ⟨block, result, { head with deleted := none }, hadmitted, by rw [Dict.get_set, if_pos rfl],
    (headed_revised h.toLogged h.headed hx (lifted_eq_ok.1 hresult)).2, ?_, ?_⟩
  · intro hchanged
    rw [h.stored] at hchanged
    show head.asciiArmoredKey = block
    unfold head
    cases db.certificates.get key.fingerprint with
    | none => rfl
    | some head => simp [revisedHead, hchanged]
  · rw [h.stored]
    -- the row of the upload comes first, and one that brings the certificate back is none for it
    obtain ⟨rows, hrows, hany⟩ := appendRevision_rows hrevised
    obtain ⟨rows', hrows', hnone⟩ := appendRestoration_rows hrestored
    rw [hrows', hrows, List.append_assoc, List.drop_left, List.any_append, hany, hnone, Bool.or_false]

/-- An upload is stored exactly if it is admitted. -/
theorem reviseCertificate_isOk (harmor : armor.Lawful)
    (h : Chain pgp blocks (db.log key.fingerprint) (db.certificates.get key.fingerprint) state) :
    (∃ stored, reviseCertificate pgp armor call db key source = .ok stored) ↔
      (admitted pgp armor call.order db key).isSome := by
  constructor
  · rintro ⟨stored, hok⟩
    obtain ⟨block, result, -, hadmitted, -, -, -, -⟩ := reviseCertificate_admitted h hok
    rw [hadmitted]
    rfl
  · intro hsome
    obtain ⟨⟨block, result⟩, hadmitted⟩ := Option.isSome_iff_exists.1 hsome
    obtain ⟨hblock, hresult, hsizes⟩ := admitted_eq_some hadmitted
    rw [h.stored] at hblock hsizes
    obtain ⟨primary, _, result', _, hstate, hresult', hmem, id, keyId, hpacket⟩ :=
      mergedInto_spec harmor h.primary h.kept hblock
    obtain rfl := Except.ok.inj (hresult'.symm.trans hresult)
    have hsub : state ⊆ result' := fun x hx => (hmem x).2 (.inl hx)
    have hplacements : ∀ x, x ∈ result' ↔ MergedPlacements pgp (blocks ++ [key.asciiArmoredKey]) x := fun x => by
      rw [hmem, mergedPlacements_append, h.mem]
    obtain ⟨revised, hrevised⟩ := @appendRevision_isOk pgp call db key source _ _ _ _ _ (db.log key.fingerprint).length
      hpacket (state_of_subset hstate hsub h.primary) hstate fun row hrow heq => absurd (h.seq_lt hrow) (by omega)
    obtain ⟨-, hseq, hlogged, -⟩ := appendRevision_keeps h.toLogged hsub hplacements (.inr ⟨primary, hstate⟩) hrevised
    obtain ⟨restored, hrestored⟩ := @appendRestoration_isOk pgp call revised.2 key source _ _ _ _ revised.1
      (revisedHead (db.certificates.get key.fingerprint) key.fingerprint block (decide (result' ≠ state))).deleted hpacket
      hstate fun row hrow heq => absurd (hlogged.seq_lt hrow) (by omega)
    unfold reviseCertificate
    simp only [h.read, ok_bind, lifted_eq_ok.2 hblock, lifted_eq_ok.2 hresult, raiseIf, decide_eq_true_eq, if_neg hsizes,
      hrevised, hrestored]
    exact ⟨_, rfl⟩

end Keys

end TrustedReleases
