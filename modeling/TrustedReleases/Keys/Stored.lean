import TrustedReleases.Keys.Admitted
import TrustedReleases.Keys.Reflect

/-!
# What a reflection stores

A certificate of the file is stored in a run that goes through if it is read, if what is read of it can be combined, and
if that is admitted to what the committee has (`Stores`).  The certificates that a run reports are these
(`mem_present`), and a signing key belongs to another certificate afterwards only if a stored one claims it
(`signed_iff`).
-/

namespace TrustedReleases

open Lib Pgp

namespace Keys

variable {tools : Tools} {r : Reflection} {c c' : Committee} {k : ParsedKey} {f : Str}

/-! ### Certificates of a text -/

/-- The blocks that are begun: those that are closed, and those that the next one cuts off or the end of the text. -/
def begunBlocksFrom : Option (List Str) → List Str → List Str
  | current, [] => (current.map ['\n'].intercalate).toList
  | current, line :: rest =>
    if strip line = armorBegin then (current.map ['\n'].intercalate).toList ++ begunBlocksFrom (some [line]) rest
    else
      match current with
      | none => begunBlocksFrom none rest
      | some lines =>
        if strip line = armorEnd then ['\n'].intercalate (lines ++ [line]) :: begunBlocksFrom none rest
        else begunBlocksFrom (some (lines ++ [line])) rest

def begunBlocks (text : Str) : List Str := begunBlocksFrom none (splitLines text)

/-- The fingerprints of the certificates of a text, whether they can be read or not. -/
def textCertificates (tools : Tools) (text : Str) : List Str :=
  ((begunBlocks text).flatMap tools.certificates).map (·.key.fingerprint)

/-- The certificates of a block, whether they can be read or not. -/
def Block.certificates (block : Block) : List ParsedKey := block.parts.map (·.parsed)

/-- The certificates of a block that are read. -/
def Block.read (block : Block) : List ParsedKey :=
  if block.fails then [] else (block.parts.filter fun part => !part.fails).map (·.parsed)

theorem blocks_certificates (tools : Tools) (r : Reflection) :
    (r.blocks tools).flatMap Block.certificates = (parseKeyBlocks r.text).flatMap tools.certificates := by
  have hcertificates (block : Str × Nat) : Block.certificates
      ⟨(tools.certificates block.1).zipIdx.map fun parsed => ⟨parsed.1, r.partFails block.2 parsed.2⟩,
        r.blockFails block.2⟩ = tools.certificates block.1 := by
    unfold Block.certificates
    rw [List.map_map]
    exact List.zipIdx_map_fst 0 _
  unfold Reflection.blocks
  rw [List.flatMap_map]
  simp only [hcertificates]
  rw [← List.flatMap_map, List.zipIdx_map_fst]

private theorem reduceOption_roes (block : Block) : block.roes.reduceOption = block.read := by
  unfold Block.roes Block.read
  by_cases hfails : block.fails = true
  · rw [if_pos (Or.inl hfails), if_pos hfails]
    rfl
  · by_cases hparts : block.parts = []
    · rw [if_pos (Or.inr hparts), if_neg hfails, hparts]
      rfl
    · rw [if_neg (by simp [hfails, hparts]), if_neg hfails]
      induction block.parts with
      | nil => rfl
      | cons part parts ih => cases hpart : part.fails <;> simp [hpart, ih]

private theorem reduceOption_flatMap_roes (blocks : List Block) :
    (blocks.flatMap Block.roes).reduceOption = blocks.flatMap Block.read := by
  induction blocks with
  | nil => rfl
  | cons block blocks ih =>
    rw [List.flatMap_cons, List.flatMap_cons, List.reduceOption_append, reduceOption_roes, ih]

/-! ### Certificates with one fingerprint -/

/-- A merged certificate has the fingerprint of what it is merged from. -/
private theorem mergedKey_fingerprint {keys : List ParsedKey} {merged : ParsedKey}
    (h : mergedKey tools keys = some merged)
    (hkeys : ∀ k ∈ keys, k.key.fingerprint = f) : merged.key.fingerprint = f := by
  unfold mergedKey at h
  split at h
  · rename_i first rest block hblock
    rw [← Option.some.inj h]
    exact hkeys first List.mem_cons_self
  · cases h

private theorem group_fingerprint {roes : List (Option ParsedKey)} {f : Str} :
    ∀ k ∈ group roes f, k.key.fingerprint = f :=
  fun _ hk => of_decide_eq_true (List.mem_filter.1 hk).2

/-- What stands for certificates with one fingerprint. -/
def combined (tools : Tools) : List ParsedKey → Option ParsedKey
  | [k] => some k
  | keys => mergedKey tools keys

private theorem combined_fingerprint {keys : List ParsedKey} (h : combined tools keys = some k)
    (hkeys : ∀ k ∈ keys, k.key.fingerprint = f) : k.key.fingerprint = f := by
  unfold combined at h
  split at h
  · rw [← Option.some.inj h]
    exact hkeys _ (List.mem_singleton_self _)
  · exact mergedKey_fingerprint h hkeys

/-- The certificate that stands for those with its fingerprint. -/
private theorem representative {roes : List (Option ParsedKey)} (hk : some k ∈ roes) :
    (if (group roes k.key.fingerprint).length = 1 then some k
      else mergedKey tools (group roes k.key.fingerprint)) = combined tools (group roes k.key.fingerprint) := by
  have hgroup : k ∈ group roes k.key.fingerprint :=
    List.mem_filter.2 ⟨List.reduceOption_mem_iff.2 hk, decide_eq_true rfl⟩
  by_cases hlength : (group roes k.key.fingerprint).length = 1
  · obtain ⟨k', hk'⟩ := List.length_eq_one_iff.1 hlength
    rw [hk', List.mem_singleton] at hgroup
    rw [if_pos hlength, hk', hgroup]
    rfl
  · rw [if_neg hlength]
    unfold combined
    split
    · rename_i k' hk'
      exact absurd (by rw [hk']; rfl) hlength
    · rfl

/-- The fingerprints of the certificates, of those that are not errors. -/
def fingerprints (roes : List (Option ParsedKey)) : List Str := roes.reduceOption.map (·.key.fingerprint)

@[simp] theorem fingerprints_none (roes : List (Option ParsedKey)) : fingerprints (none :: roes) = fingerprints roes :=
  rfl

@[simp] theorem fingerprints_some (k : ParsedKey) (roes : List (Option ParsedKey)) :
    fingerprints (some k :: roes) = k.key.fingerprint :: fingerprints roes := rfl

private theorem mem_fingerprints {roes : List (Option ParsedKey)} :
    f ∈ fingerprints roes ↔ ∃ k, some k ∈ roes ∧ k.key.fingerprint = f := by
  unfold fingerprints
  simp only [List.mem_map, List.reduceOption_mem_iff]

/-- Each fingerprint comes once. -/
private theorem deduplicateFrom_nodup {roes rest : List (Option ParsedKey)} {seen : List Str}
    (hrest : ∀ k, some k ∈ rest → some k ∈ roes) :
    (fingerprints (deduplicateFrom tools roes seen rest)).Nodup ∧
      ∀ k, some k ∈ deduplicateFrom tools roes seen rest ↔ k.key.fingerprint ∉ seen ∧
        k.key.fingerprint ∈ fingerprints rest ∧ combined tools (group roes k.key.fingerprint) = some k := by
  induction rest generalizing seen with
  | nil => exact ⟨List.nodup_nil, fun k => by simp [deduplicateFrom, fingerprints]⟩
  | cons roe rest ih =>
    have hrest' : ∀ k, some k ∈ rest → some k ∈ roes := fun k hk => hrest k (List.mem_cons_of_mem _ hk)
    cases roe with
    | none =>
      refine ⟨(@ih seen hrest').1, fun k => ?_⟩
      rw [deduplicateFrom, List.mem_cons, (@ih seen hrest').2]
      simp
    | some k₀ =>
      unfold deduplicateFrom
      by_cases hseen : k₀.key.fingerprint ∈ seen
      · rw [if_pos hseen]
        refine ⟨(@ih seen hrest').1, fun k => ?_⟩
        rw [(@ih seen hrest').2, fingerprints_some, List.mem_cons]
        constructor
        · rintro ⟨hnot, hmem, hk⟩
          exact ⟨hnot, Or.inr hmem, hk⟩
        · rintro ⟨hnot, heq | hmem, hk⟩
          · rw [heq] at hnot
            exact absurd hseen hnot
          · exact ⟨hnot, hmem, hk⟩
      · rw [if_neg hseen]
        dsimp only
        rw [representative (hrest k₀ List.mem_cons_self)]
        obtain ⟨hnodup, hmem⟩ := @ih (k₀.key.fingerprint :: seen) hrest'
        have hfirst : k₀.key.fingerprint ∉ fingerprints (deduplicateFrom tools roes (k₀.key.fingerprint :: seen) rest) := by
          intro hf
          obtain ⟨k, hk, heq⟩ := mem_fingerprints.1 hf
          exact ((hmem k).1 hk).1 (by rw [heq]; exact List.mem_cons_self)
        refine ⟨?_, fun k => ?_⟩
        · cases hmerged : combined tools (group roes k₀.key.fingerprint) with
          | none => exact hnodup
          | some merged =>
            rw [fingerprints_some, combined_fingerprint hmerged group_fingerprint]
            exact List.nodup_cons.2 ⟨hfirst, hnodup⟩
        · rw [List.mem_cons, hmem, fingerprints_some, List.mem_cons, List.mem_cons, not_or]
          by_cases hk : k.key.fingerprint = k₀.key.fingerprint
          · rw [hk]
            simp [hseen, eq_comm]
          · constructor
            · rintro (heq | ⟨⟨-, hnot⟩, hk', hcombined⟩)
              · exact absurd (combined_fingerprint heq.symm group_fingerprint) hk
              · exact ⟨hnot, Or.inr hk', hcombined⟩
            · rintro ⟨hnot, heq | hk', hcombined⟩
              · exact absurd heq hk
              · exact Or.inr ⟨⟨hk, hnot⟩, hk', hcombined⟩

/-- What is read of a certificate of the file. -/
def readings (tools : Tools) (r : Reflection) (f : Str) : List ParsedKey :=
  ((r.blocks tools).flatMap Block.read).filter fun k => decide (k.key.fingerprint = f)

private theorem group_roes (f : Str) : group ((r.blocks tools).flatMap Block.roes) f = readings tools r f := by
  unfold group readings
  rw [reduceOption_flatMap_roes]

theorem blockModels_nodup (tools : Tools) (r : Reflection) : (fingerprints (blockModels tools (r.blocks tools))).Nodup :=
  (deduplicateFrom_nodup fun _ => id).1

/-- The keys that are to be stored are those that stand for what is read of their certificates. -/
theorem mem_blockModels : k ∈ (blockModels tools (r.blocks tools)).reduceOption ↔
    combined tools (readings tools r k.key.fingerprint) = some k := by
  unfold blockModels deduplicateKeys
  rw [List.reduceOption_mem_iff, (deduplicateFrom_nodup fun _ => id).2, group_roes]
  constructor
  · rintro ⟨-, -, hk⟩
    exact hk
  · intro hk
    refine ⟨List.not_mem_nil, ?_, hk⟩
    cases hreadings : readings tools r k.key.fingerprint with
    | nil =>
      rw [hreadings] at hk
      cases hk
    | cons k' ks =>
      have hmem : k' ∈ group ((r.blocks tools).flatMap Block.roes) k.key.fingerprint := by
        rw [group_roes, hreadings]
        exact List.mem_cons_self
      obtain ⟨hroe, hfingerprint⟩ := List.mem_filter.1 hmem
      exact mem_fingerprints.2 ⟨k', List.reduceOption_mem_iff.1 hroe, of_decide_eq_true hfingerprint⟩

/-! ### A transaction -/

@[simp] theorem syncSigningKeys_links (before : Database) (f : Str) :
    (c.syncSigningKeys tools before f).links = c.links := by
  unfold Committee.syncSigningKeys
  dsimp only
  split
  · split <;> rfl
  · rfl

@[simp] theorem syncSigningKeys_artifacts (before : Database) (f : Str) :
    (c.syncSigningKeys tools before f).artifacts = c.artifacts := by
  unfold Committee.syncSigningKeys
  dsimp only
  split
  · split <;> rfl
  · rfl

@[simp] theorem syncSigningKeys_keys (before : Database) (f : Str) :
    (c.syncSigningKeys tools before f).keys = c.keys := by
  unfold Committee.syncSigningKeys
  dsimp only
  split
  · split <;> rfl
  · rfl

@[simp] theorem syncSigningKeys_hints (before : Database) (f : Str) :
    (c.syncSigningKeys tools before f).hints = c.hints := by
  unfold Committee.syncSigningKeys
  dsimp only
  split
  · split <;> rfl
  · rfl

/-- Only the hints and the certificates that they are for change. -/
theorem consumeHints_frame (c : Committee) (k : ParsedKey) : (c.consumeHints k).links = c.links ∧
    (c.consumeHints k).artifacts = c.artifacts ∧ (c.consumeHints k).keys = c.keys ∧
    (c.consumeHints k).signingKeys = c.signingKeys := by
  unfold Committee.consumeHints
  dsimp only
  split <;> exact ⟨rfl, rfl, rfl, rfl⟩

theorem link_frame (c : Committee) (f : Str) : (c.link f).artifacts = c.artifacts ∧ (c.link f).keys = c.keys ∧
    (c.link f).signingKeys = c.signingKeys ∧ (c.link f).hints = c.hints := by
  unfold Committee.link
  split <;> exact ⟨rfl, rfl, rfl, rfl⟩

/-- What the transaction of a certificate does, if it is committed. -/
theorem store_cases (h : c.store tools r k = some c') : ∃ revised,
    reviseCertificate tools.pgp tools.armor r.call c.keys k.key r.source = .ok revised ∧
      c' = ((({ c with keys := revised.2 } : Committee).syncSigningKeys tools c.keys k.key.fingerprint).consumeHints
        k).link k.key.fingerprint := by
  unfold Committee.store at h
  split at h
  · cases h
  · obtain ⟨revised, hrevised, rfl⟩ := Option.map_eq_some_iff.1 h
    exact ⟨revised, toOption_eq_some.1 hrevised, rfl⟩

/-- A certificate is stored in a run that comes to it. -/
def Takes (tools : Tools) (r : Reflection) (c : Committee) (k : ParsedKey) : Prop :=
  r.storeFails k.key.fingerprint = false ∧
    (admitted tools.pgp tools.armor r.call.order c.keys k.key).isSome

instance Takes.decidable (tools : Tools) (r : Reflection) (c : Committee) (k : ParsedKey) :
    Decidable (Takes tools r c k) := inferInstanceAs (Decidable (_ ∧ _))

/-- The signing keys that a stored certificate claims, none if it is as before. -/
def claimed (tools : Tools) (r : Reflection) (c : Committee) (k : ParsedKey) : List Str :=
  match admitted tools.pgp tools.armor r.call.order c.keys k.key with
  | some (block, result) =>
    if result = storedPlacements c.keys k.key.fingerprint then []
    else (tools.signingKeyRows k.key.fingerprint block).getD []
  | none => []

variable {operations : List Operation}

private theorem store_isSome (harmor : tools.armor.Lawful) (hholds : Holds tools.pgp operations c.keys) :
    (c.store tools r k).isSome ↔ Takes tools r c k := by
  obtain ⟨state, hchain⟩ := hholds k.key.fingerprint
  have hok : (∃ stored, reviseCertificate tools.pgp tools.armor r.call c.keys k.key r.source = .ok stored) ↔ _ :=
    reviseCertificate_isOk harmor hchain
  unfold Committee.store Takes
  rw [← hok]
  cases r.storeFails k.key.fingerprint with
  | true => simp
  | false =>
    cases hrevised : reviseCertificate tools.pgp tools.armor r.call c.keys k.key r.source with
    | ok revised => simp [Except.toOption]
    | error e => simp [Except.toOption]

/-- A transaction leaves the other certificates and keeps the chains. -/
theorem store_others (harmor : tools.armor.Lawful) (hholds : Holds tools.pgp operations c.keys)
    (h : c.store tools r k = some c') :
    Holds tools.pgp (operations ++ [.upload k.key r.source]) c'.keys ∧ ∀ f, f ≠ k.key.fingerprint →
      c'.keys.log f = c.keys.log f ∧ c'.keys.certificates.get f = c.keys.certificates.get f := by
  obtain ⟨revised, hrevised, rfl⟩ := store_cases h
  have hkeys : ((((({ c with keys := revised.2 } : Committee).syncSigningKeys tools c.keys
      k.key.fingerprint).consumeHints k).link k.key.fingerprint)).keys = revised.2 := by
    rw [(link_frame _ _).2.1, (consumeHints_frame _ _).2.2.1, syncSigningKeys_keys]
  have hrun : (Operation.upload k.key r.source).run tools.pgp tools.armor r.call c.keys = .ok revised.2 := by
    show (reviseCertificate tools.pgp tools.armor r.call c.keys k.key r.source >>= fun stored => .ok stored.2) = _
    rw [hrevised]
    rfl
  obtain ⟨state, hchain⟩ := hholds k.key.fingerprint
  rw [hkeys]
  exact ⟨Operation.run_keeps harmor hholds hrun, (reviseCertificate_keeps harmor hchain hrevised).2⟩

private theorem get_foldl_set (rows : List Str) (signingKeys : Dict Str Str) (f key : Str) :
    (rows.foldl (fun signingKeys row => signingKeys.set row f) signingKeys).get key =
      if key ∈ rows then some f else signingKeys.get key := by
  induction rows generalizing signingKeys with
  | nil => rfl
  | cons row rows ih =>
    rw [List.foldl_cons, ih, Dict.get_set]
    by_cases hrows : key ∈ rows
    · simp [hrows]
    · by_cases hrow : key = row
      · simp [hrow]
      · simp [hrows, hrow]

/-- A signing key is the stored certificate's after its transaction if that claims it, and otherwise whose it was. -/
private theorem store_signingKeys (hholds : Holds tools.pgp operations c.keys)
    (h : c.store tools r k = some c') (key : Str) : c'.signingKeys.get key =
      if key ∈ claimed tools r c k then some k.key.fingerprint else c.signingKeys.get key := by
  obtain ⟨revised, hrevised, rfl⟩ := store_cases h
  obtain ⟨state, hchain⟩ := hholds k.key.fingerprint
  obtain ⟨block, result, certificate, hadmitted, hget, hplacements, hblock, hrows⟩ :=
    reviseCertificate_admitted hchain hrevised
  rw [(link_frame _ _).2.2.1, (consumeHints_frame _ _).2.2.2]
  unfold claimed Committee.syncSigningKeys
  rw [hadmitted]
  dsimp only
  rw [hget, hrows]
  by_cases hsame : result = storedPlacements c.keys k.key.fingerprint
  · -- nothing has changed, so that the certificate was there
    have hexisted : (c.keys.certificates.get k.key.fingerprint).isNone = false := by
      cases hold : c.keys.certificates.get k.key.fingerprint with
      | some head => rfl
      | none =>
        unfold storedPlacements at hsame
        rw [hold] at hsame
        exact absurd hsame (certificatePlacements_nonempty hplacements)
    simp [hsame, hexisted]
  · have hblock' := hblock hsame
    simp only [hsame, if_false, ne_eq, not_false_eq_true, decide_true, Bool.or_true, if_true, hblock']
    exact get_foldl_set _ _ _ _

/-! ### The certificates that are stored -/

/-- Certificates that are all stored, one after the other. -/
inductive StoresAll (tools : Tools) (r : Reflection) : Committee → List ParsedKey → Committee → Prop
  | nil (c : Committee) : StoresAll tools r c [] c
  | cons {c c₁ c' : Committee} {k : ParsedKey} {ks : List ParsedKey} : c.store tools r k = some c₁ →
      StoresAll tools r c₁ ks c' → StoresAll tools r c (k :: ks) c'

/-- What is to be stored of a certificate does not depend on the transactions of others. -/
theorem Takes.congr (h : c'.keys.certificates.get k.key.fingerprint = c.keys.certificates.get k.key.fingerprint) :
    (Takes tools r c' k ↔ Takes tools r c k) ∧ claimed tools r c' k = claimed tools r c k := by
  unfold Takes claimed
  rw [admitted_congr h, storedPlacements_congr h]
  exact ⟨Iff.rfl, rfl⟩

/-- What the loop stores: the certificates that can be stored from the outset. -/
private theorem storeAll_present (harmor : tools.armor.Lawful) {ks : List ParsedKey}
    (hnodup : (ks.map (·.key.fingerprint)).Nodup) (hholds : Holds tools.pgp operations c.keys) :
    (c.storeAll tools r ks).2 = (ks.filter fun k => decide (Takes tools r c k)).map (·.key.fingerprint) := by
  induction ks generalizing c operations with
  | nil => rfl
  | cons k ks ih =>
    rw [List.map_cons, List.nodup_cons] at hnodup
    have htakes := @store_isSome tools r c k operations harmor hholds
    unfold Committee.storeAll
    cases hstore : c.store tools r k with
    | none =>
      have hnot : ¬ Takes tools r c k := fun htake => by
        have hsome := htakes.2 htake
        rw [hstore] at hsome
        cases hsome
      rw [List.filter_cons_of_neg (by simpa using hnot)]
      exact ih hnodup.2 hholds
    | some stored =>
      have htake : Takes tools r c k := htakes.1 (by rw [hstore]; rfl)
      obtain ⟨hholds', hothers⟩ := store_others harmor hholds hstore
      rw [List.filter_cons_of_pos (by simpa using htake), List.map_cons]
      dsimp only
      rw [ih hnodup.2 hholds']
      refine congrArg (k.key.fingerprint :: ·) (congrArg (List.map _) (List.filter_congr fun k' hk' => ?_))
      have hne : k'.key.fingerprint ≠ k.key.fingerprint := fun heq =>
        hnodup.1 (heq ▸ List.mem_map_of_mem hk')
      rw [decide_eq_decide]
      exact (Takes.congr (hothers _ hne).2).1

/-- If all can be stored then all are. -/
theorem storeAll_storesAll (harmor : tools.armor.Lawful) {ks : List ParsedKey}
    (hnodup : (ks.map (·.key.fingerprint)).Nodup) (hholds : Holds tools.pgp operations c.keys)
    (htakes : ∀ k ∈ ks, Takes tools r c k) : StoresAll tools r c ks (c.storeAll tools r ks).1 := by
  induction ks generalizing c operations with
  | nil => exact .nil c
  | cons k ks ih =>
    rw [List.map_cons, List.nodup_cons] at hnodup
    rw [List.forall_mem_cons] at htakes
    obtain ⟨stored, hstore⟩ := Option.isSome_iff_exists.1 ((store_isSome harmor hholds).2 htakes.1)
    obtain ⟨hholds', hothers⟩ := store_others harmor hholds hstore
    unfold Committee.storeAll
    rw [hstore]
    refine .cons hstore (ih hnodup.2 hholds' fun k' hk' => ?_)
    have hne : k'.key.fingerprint ≠ k.key.fingerprint := fun heq => hnodup.1 (heq ▸ List.mem_map_of_mem hk')
    exact (Takes.congr (hothers _ hne).2).1.2 (htakes.2 k' hk')

/-- The signing keys of a certificate that is not stored are those it had that no stored one claims. -/
private theorem storeAll_signingKeys (harmor : tools.armor.Lawful) {ks : List ParsedKey}
    (hnodup : (ks.map (·.key.fingerprint)).Nodup) (hholds : Holds tools.pgp operations c.keys)
    (hf : f ∉ (c.storeAll tools r ks).2) (key : Str) : (c.storeAll tools r ks).1.signingKeys.get key = some f ↔
      c.signingKeys.get key = some f ∧ ∀ k ∈ ks, Takes tools r c k → key ∉ claimed tools r c k := by
  induction ks generalizing c operations with
  | nil => simp [Committee.storeAll]
  | cons k ks ih =>
    rw [List.map_cons, List.nodup_cons] at hnodup
    have htakes := @store_isSome tools r c k operations harmor hholds
    unfold Committee.storeAll at hf ⊢
    cases hstore : c.store tools r k with
    | none =>
      rw [hstore] at hf
      have hnot : ¬ Takes tools r c k := fun htake => by
        have hsome := htakes.2 htake
        rw [hstore] at hsome
        cases hsome
      dsimp only at hf ⊢
      rw [ih hnodup.2 hholds hf, List.forall_mem_cons]
      simp [hnot]
    | some stored =>
      rw [hstore] at hf
      have htake : Takes tools r c k := htakes.1 (by rw [hstore]; rfl)
      obtain ⟨hholds', hothers⟩ := store_others harmor hholds hstore
      dsimp only at hf ⊢
      rw [List.mem_cons, not_or] at hf
      rw [ih hnodup.2 hholds' hf.2, store_signingKeys hholds hstore, List.forall_mem_cons]
      have hrest : (∀ k' ∈ ks, Takes tools r stored k' → key ∉ claimed tools r stored k') ↔
          ∀ k' ∈ ks, Takes tools r c k' → key ∉ claimed tools r c k' := by
        refine forall₂_congr fun k' hk' => ?_
        have hne : k'.key.fingerprint ≠ k.key.fingerprint := fun heq => hnodup.1 (heq ▸ List.mem_map_of_mem hk')
        have hcongr := @Takes.congr tools r c stored k' (hothers _ hne).2
        rw [hcongr.1, hcongr.2]
      rw [hrest]
      by_cases hclaimed : key ∈ claimed tools r c k
      · simp [hclaimed, htake, Ne.symm hf.1]
      · simp [hclaimed]

/-! ### The certificates of a run -/

/-- The certificate is stored in a run that goes through: it is read from the file, nothing fails in its transaction, and
what is read of it is admitted to what the committee has. -/
structure Stores (tools : Tools) (r : Reflection) (c : Committee) (k : ParsedKey) : Prop where
  unreadable : r.unreadable = false
  before : r.failsBefore = false
  after : r.failsAfter = false
  read : combined tools (readings tools r k.key.fingerprint) = some k
  takes : Takes tools r c k

private theorem mem_storeAll (harmor : tools.armor.Lawful) (hholds : Holds tools.pgp operations c.keys) :
    f ∈ (c.storeAll tools r (blockModels tools (r.blocks tools)).reduceOption).2 ↔ ∃ k, k.key.fingerprint = f ∧
      combined tools (readings tools r k.key.fingerprint) = some k ∧ Takes tools r c k := by
  rw [storeAll_present harmor (blockModels_nodup tools r) hholds, List.mem_map]
  refine exists_congr fun k => ?_
  rw [List.mem_filter, decide_eq_true_eq, mem_blockModels, and_comm]

/-- The certificates that a run reports are those that are stored. -/
theorem mem_present (harmor : tools.armor.Lawful) (hholds : Holds tools.pgp operations c.keys) :
    f ∈ (c.ensureAssociated tools r).2.present ↔ ∃ k, k.key.fingerprint = f ∧ Stores tools r c k := by
  have hcut (h : ∀ k, ¬ Stores tools r c k) : f ∈ ([] : List Str) ↔ ∃ k, k.key.fingerprint = f ∧ Stores tools r c k :=
    ⟨fun hmem => absurd hmem List.not_mem_nil, fun ⟨k, _, hk⟩ => absurd hk (h k)⟩
  unfold Committee.ensureAssociated
  dsimp only
  cases hunreadable : r.unreadable with
  | true => exact hcut fun k hk => Bool.noConfusion (hk.unreadable.symm.trans hunreadable)
  | false =>
    cases hbefore : r.failsBefore with
    | true => exact hcut fun k hk => Bool.noConfusion (hk.before.symm.trans hbefore)
    | false =>
      cases hafter : r.failsAfter with
      | true => exact hcut fun k hk => Bool.noConfusion (hk.after.symm.trans hafter)
      | false =>
        rw [if_neg Bool.false_ne_true, if_neg Bool.false_ne_true, if_neg Bool.false_ne_true]
        refine (mem_storeAll harmor hholds).trans (exists_congr fun k => and_congr_right fun _ => ?_)
        exact ⟨fun h => ⟨hunreadable, hbefore, hafter, h.1, h.2⟩, fun h => ⟨h.read, h.takes⟩⟩

/-- The certificate signed an artifact with a key that no stored certificate of the file claims. -/
def StillSigned (tools : Tools) (r : Reflection) (c : Committee) (f : Str) : Prop :=
  ∃ key ∈ c.artifacts, c.signingKeys.get key = some f ∧ ∀ k, Stores tools r c k → key ∉ claimed tools r c k

/-- A text without blocks stores nothing. -/
theorem blockModels_nil (h : parseKeyBlocks r.text = []) : blockModels tools (r.blocks tools) = [] := by
  unfold Reflection.blocks
  rw [h]
  rfl

theorem ensureAssociated_nil (h : parseKeyBlocks r.text = []) : (c.ensureAssociated tools r).1 = c := by
  unfold Committee.ensureAssociated
  dsimp only
  rw [blockModels_nil h]
  split_ifs <;> rfl

theorem not_stores_nil (h : parseKeyBlocks r.text = []) : ¬ Stores tools r c k := by
  intro hk
  have hread := mem_blockModels.2 hk.read
  rw [blockModels_nil h] at hread
  cases hread

/-- The signing keys of a certificate that is not stored, after a run that goes through. -/
theorem ensureAssociated_signingKeys (harmor : tools.armor.Lawful) (hholds : Holds tools.pgp operations c.keys)
    (hthrough : r.unreadable = false ∧ r.failsBefore = false ∧ r.failsAfter = false)
    (hf : ∀ k, k.key.fingerprint = f → ¬ Stores tools r c k) (key : Str) :
    (c.ensureAssociated tools r).1.signingKeys.get key = some f ↔
      c.signingKeys.get key = some f ∧ ∀ k, Stores tools r c k → key ∉ claimed tools r c k := by
  obtain ⟨hunreadable, hbefore, hafter⟩ := hthrough
  have hstores (k : ParsedKey) : Stores tools r c k ↔
      combined tools (readings tools r k.key.fingerprint) = some k ∧ Takes tools r c k :=
    ⟨fun h => ⟨h.read, h.takes⟩, fun h => ⟨hunreadable, hbefore, hafter, h.1, h.2⟩⟩
  have hnot : f ∉ (c.storeAll tools r (blockModels tools (r.blocks tools)).reduceOption).2 := by
    rw [mem_storeAll harmor hholds]
    rintro ⟨k, hk, hstored⟩
    exact hf k hk ((hstores k).2 hstored)
  unfold Committee.ensureAssociated
  dsimp only
  rw [hunreadable, hbefore, hafter, if_neg Bool.false_ne_true, if_neg Bool.false_ne_true, if_neg Bool.false_ne_true,
    storeAll_signingKeys harmor (blockModels_nodup tools r) hholds hnot]
  refine and_congr_right fun _ => forall_congr' fun k => ?_
  rw [mem_blockModels, hstores]
  exact ⟨fun h hk => h hk.1 hk.2, fun h hread htakes => h ⟨hread, htakes⟩⟩

end Keys

end TrustedReleases
