import TrustedReleases.Keys.Stored

/-!
# What a reflection leaves

After a reflection in which every block succeeds, the committee has the certificates of the file and those that are in
use, the latter marked if they are not in the file, and another reflection of the file changes nothing.  Where blocks
fail, no certificate of the file is unlinked as long as nothing of the file is stored, or each linked certificate of the
file is stored or has signed an artifact (`reflect_keeps_iff`).
-/

namespace TrustedReleases

open Lib Pgp

namespace Keys

variable {tools : Tools} {r : Reflection} {c c' : Committee} {k : ParsedKey} {f : Str} {operations : List Operation}

/-! ### Links -/

/-- Some certificates have been linked, without marks, and the links that were there are as before. -/
structure Links (c c' : Committee) (present : List Str) : Prop where
  mem : ∀ f, f ∈ c'.links.keys ↔ f ∈ c.links.keys ∨ f ∈ present
  old : ∀ f, f ∈ c.links.keys → c'.links.get f = c.links.get f
  new : ∀ f flag, f ∉ c.links.keys → c'.links.get f = some flag → flag = none
  artifacts : c'.artifacts = c.artifacts

theorem Links.refl (c : Committee) : Links c c [] where
  mem f := by simp
  old _ _ := rfl
  new f flag hf hget := absurd (Dict.mem_keys_of_get hget) hf
  artifacts := rfl

theorem Links.trans {c'' : Committee} {present present' : List Str} (h : Links c c' present)
    (h' : Links c' c'' present') : Links c c'' (present ++ present') where
  mem f := by rw [h'.mem, h.mem, List.mem_append, or_assoc]
  old f hf := (h'.old f ((h.mem f).2 (Or.inl hf))).trans (h.old f hf)
  new f flag hf hget := by
    by_cases hmem : f ∈ c'.links.keys
    · rw [h'.old f hmem] at hget
      exact h.new f flag hf hget
    · exact h'.new f flag hmem hget
  artifacts := h'.artifacts.trans h.artifacts

private theorem link_links (c : Committee) (f : Str) : Links c (c.link f) [f] := by
  unfold Committee.link
  split
  · rename_i hmem
    refine ⟨fun g => ?_, fun _ _ => rfl, fun g flag hg hget => absurd (Dict.mem_keys_of_get hget) hg, rfl⟩
    rw [List.mem_singleton]
    constructor
    · exact Or.inl
    · rintro (hg | rfl)
      · exact hg
      · exact hmem
  · rename_i hnot
    have hget (g : Str) : (c.links.set f none).get g = if g = f then some none else c.links.get g := Dict.get_set ..
    refine ⟨fun g => ?_, fun g hg => ?_, fun g flag hg hget' => ?_, rfl⟩
    · show g ∈ (c.links.set f none).keys ↔ _
      rw [Dict.mem_keys, hget, Dict.mem_keys, List.mem_singleton]
      by_cases hgf : g = f
      · simp [hgf]
      · simp [hgf]
    · show (c.links.set f none).get g = _
      have hne : g ≠ f := by
        rintro rfl
        exact hnot hg
      rw [hget, if_neg hne]
    · replace hget' : (c.links.set f none).get g = some flag := hget'
      rw [hget] at hget'
      split at hget'
      · exact (Option.some.inj hget').symm
      · exact absurd (Dict.mem_keys_of_get hget') hg

/-- The links from a state with the same links. -/
private theorem Links.of_same {d : Committee} {present : List Str} (hlinks : d.links = c.links)
    (hartifacts : d.artifacts = c.artifacts) (h : Links d c' present) : Links c c' present where
  mem f := by rw [← hlinks]; exact h.mem f
  old f hf := by
    rw [← hlinks] at hf ⊢
    exact h.old f hf
  new f flag hf := by
    rw [← hlinks] at hf
    exact h.new f flag hf
  artifacts := h.artifacts.trans hartifacts

private theorem store_links (h : c.store tools r k = some c') : Links c c' [k.key.fingerprint] := by
  obtain ⟨revised, -, rfl⟩ := store_cases h
  refine Links.of_same ?_ ?_ (link_links _ k.key.fingerprint)
  · rw [(consumeHints_frame _ k).1, syncSigningKeys_links]
  · rw [(consumeHints_frame _ k).2.1, syncSigningKeys_artifacts]

private theorem storeAll_links (ks : List ParsedKey) : Links c (c.storeAll tools r ks).1 (c.storeAll tools r ks).2 := by
  induction ks generalizing c with
  | nil => exact Links.refl c
  | cons k ks ih =>
    unfold Committee.storeAll
    cases hstore : c.store tools r k with
    | none => exact ih
    | some stored => exact (store_links hstore).trans ih

private theorem ensureAssociated_links : ∃ stored, Links c (c.ensureAssociated tools r).1 stored ∧
    ∀ f ∈ (c.ensureAssociated tools r).2.present, f ∈ stored := by
  unfold Committee.ensureAssociated
  dsimp only
  split
  · exact ⟨[], Links.refl c, fun f hf => hf⟩
  · split
    · exact ⟨[], Links.refl c, fun f hf => hf⟩
    · split
      · exact ⟨_, storeAll_links _, fun f hf => by cases hf⟩
      · exact ⟨_, storeAll_links _, fun f hf => hf⟩

/-! ### The links after a reflection -/

private theorem get_dissociate (c : Committee) (fs : Finset Str) (f : Str) :
    (if fs.Nonempty then c.dissociate fs else c).links.get f = if f ∈ fs then none else c.links.get f := by
  by_cases hfs : fs.Nonempty
  · rw [if_pos hfs]
    show (c.links.filterMap _).get f = _
    rw [Dict.get_filterMap]
    by_cases hf : f ∈ fs
    · simp [hf]
    · simp [hf]
  · rw [if_neg hfs, if_neg fun hf => hfs ⟨f, hf⟩]

private theorem get_mark (c : Committee) (fs : Finset Str) (flag : Option Nat) (f : Str) :
    (if fs.Nonempty then c.mark fs flag else c).links.get f =
      (c.links.get f).map fun old => if f ∈ fs then flag else old := by
  by_cases hfs : fs.Nonempty
  · rw [if_pos hfs]
    show (c.links.filterMap _).get f = _
    rw [Dict.get_filterMap]
    cases c.links.get f <;> rfl
  · rw [if_neg hfs]
    have hf : f ∉ fs := fun hf => hfs ⟨f, hf⟩
    simp [hf]

/-- The plan of a run. -/
def planOf (tools : Tools) (r : Reflection) (c : Committee) : Committee.Plan :=
  Committee.reflectionPlan (c.ensureAssociated tools r).2.present.toFinset c.linked
    (c.linked.filter fun f => (c.ensureAssociated tools r).1.signed f) c.flagged

/-- The removals of a run are carried out. -/
def Reliable (tools : Tools) (r : Reflection) (c : Committee) : Prop :=
  (c.ensureAssociated tools r).2.present.toFinset.Nonempty ∨ (parseKeyBlocks r.text).length = 0

instance Reliable.decidable (tools : Tools) (r : Reflection) (c : Committee) : Decidable (Reliable tools r c) :=
  inferInstanceAs (Decidable (_ ∨ _))

/-- The marks of the links that stay. -/
def marked (tools : Tools) (r : Reflection) (c : Committee) (f : Str) (flag : Option Nat) : Option Nat :=
  if f ∈ (planOf tools r c).toClear then none
  else if Reliable tools r c ∧ f ∈ (planOf tools r c).toFlag then some r.call.now
  else flag

private theorem reflect_get : (c.reflectFromSvn tools r).1.links.get f =
    if Reliable tools r c ∧ f ∈ (planOf tools r c).toRemove then none
    else ((c.ensureAssociated tools r).1.links.get f).map (marked tools r c f) := by
  unfold Committee.reflectFromSvn
  dsimp only
  rw [get_mark, get_mark, get_dissociate]
  unfold marked
  by_cases hreliable : Reliable tools r c
  · have hdecide : decide ((c.ensureAssociated tools r).2.present.toFinset.Nonempty ∨ (parseKeyBlocks r.text).length = 0) = true :=
      decide_eq_true hreliable
    simp only [hdecide, if_true, hreliable, true_and]
    show Option.map _ (Option.map _ (if f ∈ (planOf tools r c).toRemove then none else _)) = _
    by_cases hremove : f ∈ (planOf tools r c).toRemove
    · simp [hremove]
    · rw [if_neg hremove, if_neg hremove, Option.map_map]
      rfl
  · have hdecide : decide ((c.ensureAssociated tools r).2.present.toFinset.Nonempty ∨ (parseKeyBlocks r.text).length = 0) = false :=
      decide_eq_false hreliable
    simp only [hdecide, hreliable, false_and, if_false]
    simp only [Bool.false_eq_true, if_false, Finset.notMem_empty, Option.map_id']
    rfl

/-- A reflection changes nothing but links once the certificates are stored. -/
private theorem reflect_frame : (c.reflectFromSvn tools r).1 =
    { (c.ensureAssociated tools r).1 with links := (c.reflectFromSvn tools r).1.links } := by
  unfold Committee.reflectFromSvn Committee.dissociate Committee.mark
  dsimp only
  split_ifs <;> rfl

private theorem mem_linked : f ∈ c.linked ↔ f ∈ c.links.keys := List.mem_toFinset

private theorem mem_flagged : f ∈ c.flagged ↔ ∃ t, c.links.get f = some (some t) := by
  unfold Committee.flagged
  rw [Finset.mem_filter, mem_linked, Dict.mem_keys]
  cases hget : c.links.get f with
  | none => simp
  | some flag =>
    cases flag with
    | none => simp
    | some t => simp

private theorem reflect_signed : (c.reflectFromSvn tools r).1.signed f = (c.ensureAssociated tools r).1.signed f := by
  rw [reflect_frame]
  rfl

/-- A certificate is removed if the read is reliable and it was linked, was not stored and signed nothing. -/
private theorem mem_toRemove : f ∈ (planOf tools r c).toRemove ↔
    f ∈ c.linked ∧ f ∉ (c.ensureAssociated tools r).2.present ∧ (c.ensureAssociated tools r).1.signed f = false := by
  unfold planOf Committee.reflectionPlan
  simp only [Finset.mem_sdiff, Finset.mem_filter, List.mem_toFinset, not_and, Bool.not_eq_true]
  constructor
  · rintro ⟨⟨hlinked, hpresent⟩, hsigned⟩
    exact ⟨hlinked, hpresent, hsigned hlinked⟩
  · rintro ⟨hlinked, hpresent, hsigned⟩
    exact ⟨⟨hlinked, hpresent⟩, fun _ => hsigned⟩

private theorem mem_toFlag : f ∈ (planOf tools r c).toFlag ↔ f ∈ c.linked ∧ f ∉ (c.ensureAssociated tools r).2.present ∧
    (c.ensureAssociated tools r).1.signed f = true ∧ f ∉ c.flagged := by
  unfold planOf Committee.reflectionPlan
  simp only [Finset.mem_sdiff, Finset.mem_inter, Finset.mem_filter, List.mem_toFinset]
  constructor
  · rintro ⟨⟨⟨hlinked, hpresent⟩, -, hsigned⟩, hflagged⟩
    exact ⟨hlinked, hpresent, hsigned, hflagged⟩
  · rintro ⟨hlinked, hpresent, hsigned, hflagged⟩
    exact ⟨⟨⟨hlinked, hpresent⟩, hlinked, hsigned⟩, hflagged⟩

private theorem mem_toClear : f ∈ (planOf tools r c).toClear ↔
    f ∈ c.flagged ∧ f ∈ (c.ensureAssociated tools r).2.present := by
  unfold planOf Committee.reflectionPlan
  rw [Finset.mem_inter, List.mem_toFinset]

private theorem reflect_linked : f ∈ (c.reflectFromSvn tools r).1.linked ↔
    f ∈ (c.ensureAssociated tools r).1.linked ∧ ¬ (Reliable tools r c ∧ f ∈ (planOf tools r c).toRemove) := by
  rw [mem_linked, mem_linked, Dict.mem_keys, Dict.mem_keys, reflect_get]
  by_cases hremove : Reliable tools r c ∧ f ∈ (planOf tools r c).toRemove
  · rw [if_pos hremove]
    simp [hremove]
  · rw [if_neg hremove, Option.isSome_map]
    simp [hremove]

/-! ### Another reflection of the file -/

/-- The certificate of a parsed key is stored with its block, as it was merged, its hints are consumed, and it is linked. -/
structure Settled (tools : Tools) (c : Committee) (k : ParsedKey) : Prop where
  chain : ∃ blocks state certificate, k.key.asciiArmoredKey ∈ blocks ∧
    Chain tools.pgp blocks (c.keys.log k.key.fingerprint) (some certificate) state ∧
    c.keys.certificates.get k.key.fingerprint = some certificate ∧ certificate.deleted = none
  hints : ∀ hint ∈ c.hints, hint ∉ k.memberIds
  merged : ∃ order previous block, mergedInto tools.pgp tools.armor order previous k.key.asciiArmoredKey = .ok block ∧
    certificatePlacements block = .ok (storedPlacements c.keys k.key.fingerprint)
  linked : k.key.fingerprint ∈ c.links.keys

/-- Everything that a reflection can change is as before. -/
structure Same (c c' : Committee) : Prop where
  rows : c'.keys.rows = c.keys.rows
  certificates : ∀ f, c'.keys.certificates.get f = c.keys.certificates.get f
  links : ∀ f, c'.links.get f = c.links.get f
  signingKeys : c'.signingKeys = c.signingKeys
  artifacts : c'.artifacts = c.artifacts
  hints : c'.hints = c.hints
  historicUse : c'.historicUse = c.historicUse

theorem Same.refl (c : Committee) : Same c c := ⟨rfl, fun _ => rfl, fun _ => rfl, rfl, rfl, rfl, rfl⟩

theorem Same.trans {c'' : Committee} (h : Same c c') (h' : Same c' c'') : Same c c'' where
  rows := h'.rows.trans h.rows
  certificates f := (h'.certificates f).trans (h.certificates f)
  links f := (h'.links f).trans (h.links f)
  signingKeys := h'.signingKeys.trans h.signingKeys
  artifacts := h'.artifacts.trans h.artifacts
  hints := h'.hints.trans h.hints
  historicUse := h'.historicUse.trans h.historicUse

theorem Same.settled (h : Same c c') (hsettled : Settled tools c k) : Settled tools c' k where
  chain := by
    obtain ⟨blocks, state, certificate, hblock, hchain, hget, hdeleted⟩ := hsettled.chain
    refine ⟨blocks, state, certificate, hblock, ?_, (h.certificates _).trans hget, hdeleted⟩
    unfold Database.log at hchain ⊢
    rw [h.rows]
    exact hchain
  hints := by
    rw [h.hints]
    exact hsettled.hints
  merged := by
    rw [storedPlacements_congr (h.certificates _)]
    exact hsettled.merged
  linked := by
    rw [Dict.mem_keys, h.links, ← Dict.mem_keys]
    exact hsettled.linked

/-- An upload of a block that is in the chain already changes nothing. -/
private theorem reviseCertificate_again {pgp : OpenPgp} {armor : Armor} (harmor : armor.Lawful) {call : Call}
    {db : Database}
    {key : Key} {source : Str} {blocks : List Str} {state : Finset Placement} {certificate : SigningCertificate}
    {stored : KeyStatus × Database} (hblock : key.asciiArmoredKey ∈ blocks)
    (hchain : Chain pgp blocks (db.log key.fingerprint) (some certificate) state)
    (hget : db.certificates.get key.fingerprint = some certificate) (hdeleted : certificate.deleted = none)
    (hok : reviseCertificate pgp armor call db key source = .ok stored) :
    stored.2.rows = db.rows ∧ ∀ f, stored.2.certificates.get f = db.certificates.get f := by
  unfold reviseCertificate at hok
  rw [hget] at hok
  obtain ⟨chain, hok_chain, hok⟩ := bind_eq_ok hok
  obtain rfl := certificateChain_ok hchain.toLogged hok_chain
  obtain ⟨block, hmerged, hok⟩ := bind_eq_ok hok
  obtain ⟨result, hresult, hok⟩ := bind_eq_ok hok
  obtain ⟨-, hok⟩ := raiseIf_bind_eq_ok.1 hok
  obtain ⟨primary, _, result', _, -, hplacements, hmem, -⟩ :=
    mergedInto_spec harmor hchain.primary hchain.kept (lifted_eq_ok.1 hmerged)
  obtain rfl := Except.ok.inj (hplacements.symm.trans (lifted_eq_ok.1 hresult))
  -- the block is merged already
  have hsame : result' = state := by
    ext x
    rw [hmem]
    constructor
    · rintro (hx | ⟨hplaced, hkept⟩)
      · exact hx
      · exact (hchain.mem x).2 ⟨⟨_, hblock, hplaced⟩, hkept⟩
    · exact Or.inl
  obtain ⟨revised, hrevised, hok⟩ := bind_eq_ok hok
  obtain ⟨restored, hrestored, hok⟩ := bind_eq_ok hok
  obtain rfl := Except.ok.inj hok
  unfold appendRevision at hrevised
  rw [if_neg (not_not.2 hsame)] at hrevised
  obtain rfl := Except.ok.inj hrevised
  have hhead : revisedHead (some certificate) key.fingerprint block (decide (result' ≠ state)) = certificate := by
    simp [revisedHead, hsame]
  rw [hhead] at hrestored ⊢
  unfold appendRestoration at hrestored
  rw [hdeleted] at hrestored
  obtain rfl := Except.ok.inj hrestored
  refine ⟨rfl, fun f => ?_⟩
  show (db.certificates.set key.fingerprint { certificate with deleted := none }).get f = _
  rw [Dict.get_set]
  split
  · rename_i hf
    rw [hf, hget, ← hdeleted]
  · rfl

/-- What is uploaded is stored, and is not deleted. -/
private theorem reviseCertificate_stored {pgp : OpenPgp} {armor : Armor} {call : Call} {db : Database} {key : Key}
    {source : Str} {stored : KeyStatus × Database} (hok : reviseCertificate pgp armor call db key source = .ok stored) :
    ∃ certificate, stored.2.certificates.get key.fingerprint = some certificate ∧ certificate.deleted = none := by
  unfold reviseCertificate at hok
  obtain ⟨chain, -, hok⟩ := bind_eq_ok hok
  obtain ⟨block, -, hok⟩ := bind_eq_ok hok
  obtain ⟨result, -, hok⟩ := bind_eq_ok hok
  obtain ⟨-, hok⟩ := raiseIf_bind_eq_ok.1 hok
  obtain ⟨revised, -, hok⟩ := bind_eq_ok hok
  obtain ⟨restored, -, hok⟩ := bind_eq_ok hok
  obtain rfl := Except.ok.inj hok
  let head := revisedHead (db.certificates.get key.fingerprint) key.fingerprint block (decide (result ≠ chain.2))
  refine ⟨{ head with deleted := none }, ?_, rfl⟩
  show (restored.certificates.set key.fingerprint _).get key.fingerprint = _
  rw [Dict.get_set, if_pos rfl]

/-- Storing a certificate again changes nothing. -/
private theorem store_again (harmor : tools.armor.Lawful) (hsettled : Settled tools c k)
    (h : c.store tools r k = some c') : Same c c' := by
  obtain ⟨revised, hrevised, rfl⟩ := store_cases h
  obtain ⟨blocks, state, certificate, hblock, hchain, hget, hdeleted⟩ := hsettled.chain
  obtain ⟨hrows, hcertificates⟩ := reviseCertificate_again harmor hblock hchain hget hdeleted hrevised
  have hsync : ({ c with keys := revised.2 } : Committee).syncSigningKeys tools c.keys k.key.fingerprint =
      { c with keys := revised.2 } := by
    unfold Committee.syncSigningKeys
    dsimp only
    rw [hcertificates, hget, hrows, List.drop_length]
    rfl
  have hconsume : ({ c with keys := revised.2 } : Committee).consumeHints k = { c with keys := revised.2 } := by
    unfold Committee.consumeHints
    dsimp only
    rw [if_pos]
    apply List.filter_eq_nil_iff.2
    intro hint hmem
    rw [decide_eq_true_eq]
    exact hsettled.hints hint hmem
  have hlink : ({ c with keys := revised.2 } : Committee).link k.key.fingerprint = { c with keys := revised.2 } := by
    unfold Committee.link
    rw [if_pos hsettled.linked]
  rw [hsync, hconsume, hlink]
  exact ⟨hrows, hcertificates, fun _ => rfl, rfl, rfl, rfl, rfl⟩

private theorem storesAll_again (harmor : tools.armor.Lawful) {ks : List ParsedKey}
    (hsettled : ∀ k ∈ ks, Settled tools c k)
    (h : StoresAll tools r c ks c') : Same c c' := by
  induction h with
  | nil c => exact Same.refl c
  | cons hstore _ ih =>
    have hsame := store_again harmor (hsettled _ List.mem_cons_self) hstore
    exact hsame.trans (ih fun k hk => hsame.settled (hsettled k (List.mem_cons_of_mem _ hk)))

/-! ### What is settled -/

private theorem consumeHints_hints (c : Committee) (k : ParsedKey) :
    (∀ hint ∈ (c.consumeHints k).hints, hint ∈ c.hints ∧ hint ∉ k.memberIds) := by
  unfold Committee.consumeHints
  dsimp only
  split
  · rename_i hnone
    intro hint hmem
    refine ⟨hmem, fun hmember => ?_⟩
    exact absurd hnone (List.ne_nil_of_mem (List.mem_filter.2 ⟨hmem, decide_eq_true hmember⟩))
  · intro hint hmem
    obtain ⟨hhint, hnot⟩ := List.mem_filter.1 hmem
    refine ⟨hhint, fun hmember => ?_⟩
    exact of_decide_eq_true hnot (List.mem_filter.2 ⟨hhint, decide_eq_true hmember⟩)

/-- A transaction settles its certificate and keeps the others settled. -/
private theorem store_settles (harmor : tools.armor.Lawful)
    (hholds : Holds tools.pgp operations c.keys) (h : c.store tools r k = some c') :
    Settled tools c' k ∧ ∀ k', k'.key.fingerprint ≠ k.key.fingerprint → Settled tools c k' → Settled tools c' k' := by
  have hlinks := store_links h
  obtain ⟨-, hothers⟩ := store_others harmor hholds h
  obtain ⟨revised, hrevised, rfl⟩ := store_cases h
  have hkeys : ((((({ c with keys := revised.2 } : Committee).syncSigningKeys tools c.keys
      k.key.fingerprint).consumeHints k).link k.key.fingerprint)).keys = revised.2 := by
    rw [(link_frame _ _).2.1, (consumeHints_frame _ _).2.2.1, syncSigningKeys_keys]
  have hhints : ∀ hint ∈ ((((({ c with keys := revised.2 } : Committee).syncSigningKeys tools c.keys
      k.key.fingerprint).consumeHints k).link k.key.fingerprint)).hints, hint ∈ c.hints ∧ hint ∉ k.memberIds := by
    intro hint hmem
    rw [(link_frame _ _).2.2.2] at hmem
    have hconsumed := consumeHints_hints _ k hint hmem
    rwa [syncSigningKeys_hints] at hconsumed
  obtain ⟨state, hchain⟩ := hholds k.key.fingerprint
  obtain ⟨⟨result, hresult⟩, -⟩ := reviseCertificate_keeps harmor hchain hrevised
  obtain ⟨block, placements, certificate, hadmitted, hget, hplacements, -, -⟩ := reviseCertificate_admitted hchain hrevised
  refine ⟨⟨?_, fun hint hmem => (hhints hint hmem).2, ?_, (hlinks.mem _).2 (Or.inr (List.mem_singleton_self _))⟩, ?_⟩
  · rw [hkeys]
    obtain ⟨certificate', hget', hdeleted⟩ := reviseCertificate_stored hrevised
    rw [hget'] at hresult
    exact ⟨_, result, certificate', List.mem_append_right _ (List.mem_singleton_self _), hresult, hget', hdeleted⟩
  · rw [hkeys]
    have hstored : storedPlacements revised.2 k.key.fingerprint = placements := by
      unfold storedPlacements
      rw [hget]
      dsimp only
      rw [hplacements]
      rfl
    obtain ⟨hmerged, hblock, -⟩ := admitted_eq_some hadmitted
    rw [hstored]
    exact ⟨_, _, block, hmerged, hblock⟩
  · intro k' hne hsettled
    obtain ⟨hlog, hget'⟩ := hothers _ hne
    obtain ⟨blocks, state', certificate', hblock, hchain', hget'', hdeleted⟩ := hsettled.chain
    refine ⟨⟨blocks, state', certificate', hblock, ?_, ?_, hdeleted⟩, ?_, ?_, (hlinks.mem _).2 (Or.inl hsettled.linked)⟩
    · rw [hlog]
      exact hchain'
    · rw [hget']
      exact hget''
    · intro hint hmem
      exact hsettled.hints hint (hhints hint hmem).1
    · rw [storedPlacements_congr hget']
      exact hsettled.merged

private theorem storesAll_holds (harmor : tools.armor.Lawful) {ks : List ParsedKey}
    (hholds : Holds tools.pgp operations c.keys) (h : StoresAll tools r c ks c') :
    ∃ operations', Holds tools.pgp operations' c'.keys := by
  induction h generalizing operations with
  | nil c => exact ⟨operations, hholds⟩
  | cons hstore _ ih => exact ih (store_others harmor hholds hstore).1

private theorem storesAll_settles (harmor : tools.armor.Lawful) {ks : List ParsedKey}
    (hnodup : (ks.map (·.key.fingerprint)).Nodup) (hholds : Holds tools.pgp operations c.keys)
    (h : StoresAll tools r c ks c') : (∀ k ∈ ks, Settled tools c' k) ∧
      ∀ k', k'.key.fingerprint ∉ ks.map (·.key.fingerprint) → Settled tools c k' → Settled tools c' k' := by
  induction h generalizing operations with
  | nil c => exact ⟨fun k hk => (List.not_mem_nil hk).elim, fun _ _ hsettled => hsettled⟩
  | @cons c c₁ c' k ks hstore _ ih =>
    rw [List.map_cons, List.nodup_cons] at hnodup
    obtain ⟨hsettled, hothers⟩ := store_settles harmor hholds hstore
    obtain ⟨hrest, hkept⟩ := ih hnodup.2 (store_others harmor hholds hstore).1
    constructor
    · intro k' hk'
      rcases List.mem_cons.1 hk' with rfl | hk'
      · exact hkept k' hnodup.1 hsettled
      · exact hrest k' hk'
    · intro k' hnot hsettled'
      rw [List.map_cons, List.mem_cons, not_or] at hnot
      exact hkept k' hnot.2 (hothers k' hnot.1 hsettled')

/-! ### The exact condition -/

/-- Every block of the text is closed and read, holds certificates, and these are read and stored. -/
structure Succeeds (tools : Tools) (r : Reflection) (c : Committee) : Prop where
  closed : begunBlocks r.text = parseKeyBlocks r.text
  holds : ∀ block ∈ parseKeyBlocks r.text, tools.certificates block ≠ []
  reads : ∀ block ∈ r.blocks tools, block.fails = false ∧ ∀ part ∈ block.parts, part.fails = false
  stored : ∀ f ∈ textCertificates tools r.text, ∃ k, k.key.fingerprint = f ∧ Stores tools r c k

/-- Nothing fails in a run but what the text itself makes fail. -/
structure Uneventful (tools : Tools) (r : Reflection) : Prop where
  unreadable : r.unreadable = false
  before : r.failsBefore = false
  after : r.failsAfter = false
  reads : ∀ block ∈ r.blocks tools, block.fails = false ∧ ∀ part ∈ block.parts, part.fails = false
  stores : ∀ f ∈ textCertificates tools r.text, r.storeFails f = false

/-- What a run in which every block succeeds leaves. -/
structure Reflected (tools : Tools) (r : Reflection) (c c' : Committee) : Prop where
  linked : ∀ f, f ∈ c'.linked ↔ f ∈ textCertificates tools r.text ∨ (f ∈ c.linked ∧ StillSigned tools r c f)
  flagged : ∀ f, f ∈ c'.flagged ↔ f ∈ c.linked ∧ StillSigned tools r c f ∧ f ∉ textCertificates tools r.text
  again : ∀ r', r'.text = r.text → Uneventful tools r' → Same c' (c'.reflectFromSvn tools r').1

/-- No certificate of the text is unlinked, and if every block succeeds the file is reflected. -/
structure Keeps (tools : Tools) (r : Reflection) (c : Committee) : Prop where
  kept : ∀ f ∈ c.linked, f ∈ textCertificates tools r.text → f ∈ (c.reflectFromSvn tools r).1.linked
  reflected : Succeeds tools r c → Reflected tools r c (c.reflectFromSvn tools r).1

/-- The text has a closed block and nothing of it is stored, or every linked certificate of the text is stored or has
signed an artifact. -/
def NoneOrAll (tools : Tools) (r : Reflection) (c : Committee) : Prop :=
  (parseKeyBlocks r.text ≠ [] ∧ ∀ k, ¬ Stores tools r c k) ∨ ∀ f ∈ c.linked, f ∈ textCertificates tools r.text →
    (∃ k, k.key.fingerprint = f ∧ Stores tools r c k) ∨ StillSigned tools r c f

private theorem ensureAssociated_linked : (∀ f ∈ c.linked, f ∈ (c.ensureAssociated tools r).1.linked) := by
  obtain ⟨stored, hlinks, -⟩ := @ensureAssociated_links tools r c
  intro f hf
  rw [mem_linked] at hf ⊢
  exact (hlinks.mem f).2 (Or.inl hf)

private theorem reliable_iff (harmor : tools.armor.Lawful) (hholds : Holds tools.pgp operations c.keys) :
    Reliable tools r c ↔ (∃ k, Stores tools r c k) ∨ parseKeyBlocks r.text = [] := by
  unfold Reliable
  rw [List.length_eq_zero_iff]
  refine or_congr ⟨?_, ?_⟩ Iff.rfl
  · rintro ⟨f, hf⟩
    obtain ⟨k, -, hk⟩ := (mem_present harmor hholds).1 (List.mem_toFinset.1 hf)
    exact ⟨k, hk⟩
  · rintro ⟨k, hk⟩
    exact ⟨k.key.fingerprint, List.mem_toFinset.2 ((mem_present harmor hholds).2 ⟨k, rfl, hk⟩)⟩

/-- The certificates that are not stored in a reliable run and count as in use. -/
theorem signed_iff (harmor : tools.armor.Lawful) (hholds : Holds tools.pgp operations c.keys)
    (hreliable : (∃ k, Stores tools r c k) ∨ parseKeyBlocks r.text = [])
    (hf : ∀ k, k.key.fingerprint = f → ¬ Stores tools r c k) :
    (c.ensureAssociated tools r).1.signed f = true ↔ StillSigned tools r c f := by
  have hkeys (key : Str) : (c.ensureAssociated tools r).1.signingKeys.get key = some f ↔
      c.signingKeys.get key = some f ∧ ∀ k, Stores tools r c k → key ∉ claimed tools r c k := by
    rcases hreliable with ⟨k, hk⟩ | hnil
    · exact ensureAssociated_signingKeys harmor hholds ⟨hk.unreadable, hk.before, hk.after⟩ hf key
    · rw [ensureAssociated_nil hnil]
      exact ⟨fun h => ⟨h, fun k hk => absurd hk (not_stores_nil hnil)⟩, And.left⟩
  obtain ⟨stored, hlinks, -⟩ := @ensureAssociated_links tools r c
  unfold Committee.signed StillSigned
  rw [hlinks.artifacts, List.any_eq_true]
  simp only [decide_eq_true_eq, hkeys]

private theorem kept_iff (harmor : tools.armor.Lawful) (hholds : Holds tools.pgp operations c.keys) :
    (∀ f ∈ c.linked, f ∈ textCertificates tools r.text → f ∈ (c.reflectFromSvn tools r).1.linked) ↔
      NoneOrAll tools r c := by
  have hreliable := @reliable_iff tools r c operations harmor hholds
  constructor
  · intro hkept
    by_cases hread : (∃ k, Stores tools r c k) ∨ parseKeyBlocks r.text = []
    · right
      intro f hlinked htext
      by_contra hnot
      rw [not_or] at hnot
      have hpresent : f ∉ (c.ensureAssociated tools r).2.present := fun h =>
        hnot.1 ((mem_present harmor hholds).1 h)
      have hsigned : (c.ensureAssociated tools r).1.signed f = false := by
        rw [← Bool.not_eq_true, signed_iff harmor hholds hread fun k hk hstored => hnot.1 ⟨k, hk, hstored⟩]
        exact hnot.2
      exact (reflect_linked.1 (hkept f hlinked htext)).2
        ⟨hreliable.2 hread, mem_toRemove.2 ⟨hlinked, hpresent, hsigned⟩⟩
    · left
      rw [not_or, not_exists] at hread
      exact ⟨hread.2, hread.1⟩
  · intro hcondition f hlinked htext
    refine reflect_linked.2 ⟨ensureAssociated_linked f hlinked, ?_⟩
    rintro ⟨hread, hremove⟩
    obtain ⟨-, hpresent, hsigned⟩ := mem_toRemove.1 hremove
    rw [mem_present harmor hholds] at hpresent
    rcases hcondition with ⟨hblocks, hnone⟩ | hall
    · rcases hreliable.1 hread with ⟨k, hk⟩ | hnil
      · exact hnone k hk
      · exact hblocks hnil
    · rcases hall f hlinked htext with hstored | hstill
      · exact hpresent hstored
      · rw [← signed_iff harmor hholds (hreliable.1 hread) fun k hk hstored => hpresent ⟨k, hk, hstored⟩,
          hsigned] at hstill
        cases hstill

/-! ### Runs in which every block succeeds -/

private theorem read_of_reads {block : Block} (h : block.fails = false ∧ ∀ part ∈ block.parts, part.fails = false) :
    block.read = block.certificates := by
  unfold Block.read Block.certificates
  rw [if_neg (by simp [h.1]), List.filter_eq_self.2 fun part hpart => by simp [h.2 part hpart]]

/-- What is read of a certificate where nothing fails to be read. -/
private theorem readings_of_reads
    (h : ∀ block ∈ r.blocks tools, block.fails = false ∧ ∀ part ∈ block.parts, part.fails = false) (f : Str) :
    readings tools r f = ((parseKeyBlocks r.text).flatMap tools.certificates).filter fun k =>
      decide (k.key.fingerprint = f) := by
  unfold readings
  rw [← blocks_certificates, List.flatMap_def, List.flatMap_def, List.map_congr_left fun block hblock =>
    read_of_reads (h block hblock)]

/-- What a run stores in which every block succeeds. -/
structure Full (tools : Tools) (r : Reflection) (c : Committee) : Prop where
  stores : StoresAll tools r c (blockModels tools (r.blocks tools)).reduceOption (c.ensureAssociated tools r).1
  present : ∀ f, f ∈ (c.ensureAssociated tools r).2.present ↔ f ∈ textCertificates tools r.text
  links : Links c (c.ensureAssociated tools r).1 (c.ensureAssociated tools r).2.present
  reliable : Reliable tools r c
  keys : ∀ k ∈ (blockModels tools (r.blocks tools)).reduceOption, k.key.fingerprint ∈ textCertificates tools r.text
  readings : ∀ f, readings tools r f = ((parseKeyBlocks r.text).flatMap tools.certificates).filter fun k =>
    decide (k.key.fingerprint = f)

namespace Succeeds

variable (h : Succeeds tools r c)

include h

private theorem readings (f : Str) :
    Keys.readings tools r f = ((parseKeyBlocks r.text).flatMap tools.certificates).filter
    fun k => decide (k.key.fingerprint = f) :=
  readings_of_reads h.reads f

/-- The certificates of the text are those that are read of it. -/
private theorem mem_text (f : Str) : f ∈ textCertificates tools r.text ↔ Keys.readings tools r f ≠ [] := by
  unfold textCertificates
  rw [h.closed, h.readings, List.mem_map, Ne, List.filter_eq_nil_iff, not_forall]
  simp only [decide_eq_true_eq, not_forall, not_not, exists_prop]

theorem keys : ∀ k ∈ (blockModels tools (r.blocks tools)).reduceOption,
    k.key.fingerprint ∈ textCertificates tools r.text := by
  intro k hk
  rw [h.mem_text]
  intro hnil
  have hread := mem_blockModels.1 hk
  rw [hnil] at hread
  cases hread

/-- A text with blocks has certificates. -/
private theorem exists_text (hblocks : parseKeyBlocks r.text ≠ []) : ∃ f, f ∈ textCertificates tools r.text := by
  obtain ⟨block, hblock⟩ := List.exists_mem_of_ne_nil _ hblocks
  obtain ⟨k, hk⟩ := List.exists_mem_of_ne_nil _ (h.holds block hblock)
  have hmem : k ∈ (begunBlocks r.text).flatMap tools.certificates := by
    rw [h.closed]
    exact List.mem_flatMap.2 ⟨block, hblock, hk⟩
  exact ⟨k.key.fingerprint, List.mem_map_of_mem hmem⟩

theorem full (harmor : tools.armor.Lawful) (hholds : Holds tools.pgp operations c.keys) : Full tools r c := by
  by_cases hblocks : parseKeyBlocks r.text = []
  · -- without blocks there is nothing to be stored
    have hmodels := @blockModels_nil tools r hblocks
    have hpresent (f : Str) : f ∉ (c.ensureAssociated tools r).2.present := fun hf => by
      obtain ⟨k, -, hk⟩ := (mem_present harmor hholds).1 hf
      exact not_stores_nil hblocks hk
    have htext (f : Str) : f ∉ textCertificates tools r.text := fun hf => by
      obtain ⟨k, -, hk⟩ := h.stored f hf
      exact not_stores_nil hblocks hk
    refine ⟨?_, fun f => iff_of_false (hpresent f) (htext f), ?_, (reliable_iff harmor hholds).2 (Or.inr hblocks), h.keys,
      h.readings⟩
    · rw [hmodels, ensureAssociated_nil hblocks]
      exact .nil c
    · rw [ensureAssociated_nil hblocks, List.eq_nil_iff_forall_not_mem.2 hpresent]
      exact Links.refl c
  · obtain ⟨f₀, hf₀⟩ := h.exists_text hblocks
    obtain ⟨k₀, -, hk₀⟩ := h.stored f₀ hf₀
    have htakes : ∀ k ∈ (blockModels tools (r.blocks tools)).reduceOption, Stores tools r c k := by
      intro k hk
      obtain ⟨k', hk', hstores⟩ := h.stored _ (h.keys k hk)
      have hread := hstores.read
      rw [hk', mem_blockModels.1 hk] at hread
      rwa [Option.some.inj hread]
    have hstores := storeAll_storesAll harmor (blockModels_nodup tools r) hholds fun k hk => (htakes k hk).takes
    have hpresent (f : Str) : f ∈ (c.ensureAssociated tools r).2.present ↔ f ∈ textCertificates tools r.text := by
      rw [mem_present harmor hholds]
      constructor
      · rintro ⟨k, rfl, hk⟩
        exact h.keys k (mem_blockModels.2 hk.read)
      · exact h.stored f
    have houtcome : c.ensureAssociated tools r =
        ((c.storeAll tools r (blockModels tools (r.blocks tools)).reduceOption).1,
          ⟨(c.storeAll tools r (blockModels tools (r.blocks tools)).reduceOption).2,
            (blockModels tools (r.blocks tools)).length -
              (c.storeAll tools r (blockModels tools (r.blocks tools)).reduceOption).2.length⟩) := by
      unfold Committee.ensureAssociated
      dsimp only
      rw [hk₀.unreadable, hk₀.before, hk₀.after, if_neg Bool.false_ne_true, if_neg Bool.false_ne_true,
        if_neg Bool.false_ne_true]
    refine ⟨by rw [houtcome]; exact hstores, hpresent, ?_, (reliable_iff harmor hholds).2 (Or.inl ⟨k₀, hk₀⟩), h.keys,
      h.readings⟩
    rw [houtcome]
    exact storeAll_links _

end Succeeds

namespace Full

private theorem linked (h : Full tools r c) (f : Str) : f ∈ (c.reflectFromSvn tools r).1.linked ↔
    f ∈ textCertificates tools r.text ∨ (f ∈ c.linked ∧ (c.reflectFromSvn tools r).1.signed f = true) := by
  rw [reflect_linked, mem_toRemove, mem_linked, h.links.mem, h.present, reflect_signed, mem_linked]
  by_cases htext : f ∈ textCertificates tools r.text
  · simp [htext]
  · simp only [htext, or_false, false_or, not_false_eq_true, true_and, h.reliable]
    cases (c.ensureAssociated tools r).1.signed f <;> simp

private theorem flagged (h : Full tools r c) (f : Str) : f ∈ (c.reflectFromSvn tools r).1.flagged ↔
    f ∈ c.linked ∧ (c.reflectFromSvn tools r).1.signed f = true ∧ f ∉ textCertificates tools r.text := by
  have hclear := @mem_toClear tools r c f
  have hflag := @mem_toFlag tools r c f
  have hremove := @mem_toRemove tools r c f
  rw [h.present] at hclear hflag hremove
  have hmarked : ∀ {t : Nat}, c.links.get f = some (some t) → f ∈ c.flagged := fun ht => mem_flagged.2 ⟨_, ht⟩
  rw [mem_flagged, reflect_get, reflect_signed]
  unfold marked
  simp only [h.reliable, true_and]
  by_cases hlinked : f ∈ c.linked
  · rw [h.links.old f (mem_linked.1 hlinked)]
    obtain ⟨flag, hget⟩ := Option.isSome_iff_exists.1 (Dict.mem_keys.1 (mem_linked.1 hlinked))
    rw [hget, Option.map_some]
    by_cases htext : f ∈ textCertificates tools r.text
    · -- the certificate is in the file: it is not removed, and a mark is cleared
      rw [if_neg fun hr => (hremove.1 hr).2.1 htext, if_neg fun hf => (hflag.1 hf).2.1 htext]
      constructor
      · rintro ⟨t, ht⟩
        have hvalue := Option.some.inj ht
        by_cases hold : f ∈ (planOf tools r c).toClear
        · rw [if_pos hold] at hvalue
          cases hvalue
        · rw [if_neg hold] at hvalue
          exact absurd (hclear.2 ⟨hmarked (hget.trans (congrArg some hvalue)), htext⟩) hold
      · rintro ⟨-, -, hnot⟩
        exact absurd htext hnot
    · rw [if_neg fun hc => htext (hclear.1 hc).2]
      cases hsigned : (c.ensureAssociated tools r).1.signed f with
      | false =>
        rw [if_pos (hremove.2 ⟨hlinked, htext, hsigned⟩)]
        simp
      | true =>
        have hkept : f ∉ (planOf tools r c).toRemove := by
          intro hr
          rw [(hremove.1 hr).2.2] at hsigned
          cases hsigned
        rw [if_neg hkept]
        refine ⟨fun _ => ⟨hlinked, rfl, htext⟩, fun _ => ?_⟩
        by_cases hold : f ∈ c.flagged
        · obtain ⟨t, ht⟩ := mem_flagged.1 hold
          have hvalue : flag = some t := Option.some.inj (hget.symm.trans ht)
          rw [if_neg fun hf => (hflag.1 hf).2.2.2 hold, hvalue]
          exact ⟨t, rfl⟩
        · rw [if_pos (hflag.2 ⟨hlinked, htext, hsigned, hold⟩)]
          exact ⟨r.call.now, rfl⟩
  · -- the certificate was not linked before: it is not marked
    have hnot : f ∉ (planOf tools r c).toFlag := fun hf => hlinked (hflag.1 hf).1
    rw [if_neg fun hr => hlinked (hremove.1 hr).1]
    simp only [hnot, if_false]
    constructor
    · rintro ⟨t, ht⟩
      obtain ⟨flag, hget, hvalue⟩ := Option.map_eq_some_iff.1 ht
      have hnone : flag = none := h.links.new f flag (fun hmem => hlinked (mem_linked.2 hmem)) hget
      rw [hnone] at hvalue
      split at hvalue <;> cases hvalue
    · rintro ⟨hmem, -⟩
      exact absurd hmem hlinked

theorem models (h : Full tools r c) {r' : Reflection} (hsame : r'.text = r.text) (h' : Full tools r' c') {k : ParsedKey} :
    k ∈ (blockModels tools (r'.blocks tools)).reduceOption ↔ k ∈ (blockModels tools (r.blocks tools)).reduceOption := by
  rw [mem_blockModels, mem_blockModels, h.readings, h'.readings, hsame]

end Full

/-- A reflection changes nothing but links once the certificates are stored. -/
private theorem same_of_links (hstored : Same c (c.ensureAssociated tools r).1)
    (hlinks : ∀ f, (c.reflectFromSvn tools r).1.links.get f = c.links.get f) :
    Same c (c.reflectFromSvn tools r).1 := by
  refine ⟨?_, ?_, hlinks, ?_, ?_, ?_, ?_⟩
  · rw [reflect_frame]
    exact hstored.rows
  · rw [reflect_frame]
    exact hstored.certificates
  · rw [reflect_frame]
    exact hstored.signingKeys
  · rw [reflect_frame]
    exact hstored.artifacts
  · rw [reflect_frame]
    exact hstored.hints
  · rw [reflect_frame]
    exact hstored.historicUse

/-- A committee that has a text reflected: its certificates are settled and linked, and exactly the others are marked. -/
structure Current (tools : Tools) (r : Reflection) (c : Committee) : Prop where
  settled : ∀ k ∈ (blockModels tools (r.blocks tools)).reduceOption, Settled tools c k
  linked : ∀ f ∈ c.linked, f ∈ textCertificates tools r.text ∨ c.signed f = true
  flagged : ∀ f ∈ c.linked, f ∈ c.flagged ↔ f ∉ textCertificates tools r.text

/-- Another run of the text in which every block succeeds changes nothing. -/
theorem Current.again (h : Current tools r c) (harmor : tools.armor.Lawful) (h' : Full tools r c) :
    Same c (c.reflectFromSvn tools r).1 := by
  have hstored : Same c (c.ensureAssociated tools r).1 := storesAll_again harmor h.settled h'.stores
  have hsigned (f : Str) : (c.ensureAssociated tools r).1.signed f = c.signed f := by
    unfold Committee.signed
    rw [hstored.artifacts, hstored.signingKeys]
  refine same_of_links hstored fun f => ?_
  have hremove : f ∉ (planOf tools r c).toRemove := by
    intro hr
    obtain ⟨hlinked, hpresent, hnot⟩ := mem_toRemove.1 hr
    rw [h'.present] at hpresent
    rw [hsigned] at hnot
    rcases h.linked f hlinked with htext | hyes
    · exact hpresent htext
    · rw [hnot] at hyes
      cases hyes
  have hclear : f ∉ (planOf tools r c).toClear := by
    intro hc
    obtain ⟨hflagged, hpresent⟩ := mem_toClear.1 hc
    rw [h'.present] at hpresent
    exact (h.flagged f (Finset.mem_filter.1 hflagged).1).1 hflagged hpresent
  have hflag : f ∉ (planOf tools r c).toFlag := by
    intro hf
    obtain ⟨hlinked, hpresent, -, hnot⟩ := mem_toFlag.1 hf
    rw [h'.present] at hpresent
    exact hnot ((h.flagged f hlinked).2 hpresent)
  rw [reflect_get, hstored.links, if_neg fun hr => hremove hr.2]
  unfold marked
  simp only [hclear, hflag, and_false, if_false, Option.map_id']

namespace Full

/-- What a run leaves in which every block succeeds. -/
theorem current (h : Full tools r c) (harmor : tools.armor.Lawful) (hholds : Holds tools.pgp operations c.keys) :
    Current tools r (c.reflectFromSvn tools r).1 where
  settled k hk := by
    have hsettled := (storesAll_settles harmor (blockModels_nodup tools r) hholds h.stores).1 k hk
    refine ⟨?_, ?_, ?_, mem_linked.1 ((h.linked _).2 (Or.inl (h.keys k hk)))⟩
    · rw [reflect_frame]
      exact hsettled.chain
    · rw [reflect_frame]
      exact hsettled.hints
    · rw [reflect_frame]
      exact hsettled.merged
  linked f hf := by
    rcases (h.linked f).1 hf with htext | ⟨-, hsigned⟩
    · exact Or.inl htext
    · exact Or.inr hsigned
  flagged f hf := by
    rw [h.flagged]
    constructor
    · rintro ⟨-, -, hnot⟩
      exact hnot
    · intro hnot
      rcases (h.linked f).1 hf with htext | ⟨hold, hsigned⟩
      · exact absurd htext hnot
      · exact ⟨hold, hsigned, hnot⟩

end Full

/-- What was settled can be stored again, in whatever order of iteration. -/
theorem Settled.admitted (harmor : tools.armor.Lawful) (h : Settled tools c k) (order : Iteration) :
    (admitted tools.pgp tools.armor order c.keys k.key).isSome := by
  obtain ⟨_, _, block, hmerged, hplacements⟩ := h.merged
  unfold Keys.admitted
  simp only [toOption_eq_some.2 (mergedInto_again harmor hmerged hplacements order), toOption_eq_some.2 hplacements,
    Option.bind_eq_bind, Option.bind_some, ne_eq, not_true_eq_false, false_and, if_false, Option.isSome_some]

/-- In a run after one in which every block succeeds every block succeeds, if nothing else fails. -/
theorem Uneventful.succeeds {d : Committee} {r' : Reflection} (h : Uneventful tools r') (hsame : r'.text = r.text)
    (harmor : tools.armor.Lawful) (hr : Succeeds tools r d) (hcurrent : Current tools r c) : Succeeds tools r' c where
  closed := by
    rw [hsame]
    exact hr.closed
  holds := by
    rw [hsame]
    exact hr.holds
  reads := h.reads
  stored := by
    intro f hf
    have htext : f ∈ textCertificates tools r.text := by rwa [hsame] at hf
    obtain ⟨k, hk, hstores⟩ := hr.stored f htext
    have hread : combined tools (readings tools r' k.key.fingerprint) = some k := by
      rw [readings_of_reads h.reads, hsame, ← hr.readings]
      exact hstores.read
    have hstoreFails : r'.storeFails k.key.fingerprint = false := h.stores _ (by rwa [hk])
    exact ⟨k, hk, h.unreadable, h.before, h.after, hread, hstoreFails,
      (hcurrent.settled k (mem_blockModels.2 hstores.read)).admitted harmor _⟩

/-- A reflection in which every block succeeds leaves the file reflected. -/
theorem Succeeds.reflected (h : Succeeds tools r c) (harmor : tools.armor.Lawful)
    (hholds : Holds tools.pgp operations c.keys) : Reflected tools r c (c.reflectFromSvn tools r).1 := by
  have hfull := h.full harmor hholds
  have hcurrent := hfull.current harmor hholds
  -- a certificate that is not in the file is not stored, so that it has signed what it had signed
  have hsigned {f : Str} (hf : f ∉ textCertificates tools r.text) :
      (c.reflectFromSvn tools r).1.signed f = true ↔ StillSigned tools r c f := by
    rw [reflect_signed]
    refine signed_iff harmor hholds ((reliable_iff harmor hholds).1 hfull.reliable) fun k hk hstores => hf ?_
    rw [← hk]
    exact hfull.keys k (mem_blockModels.2 hstores.read)
  refine ⟨fun f => ?_, fun f => ?_, fun r' hsame huneventful => ?_⟩
  · rw [hfull.linked]
    by_cases hf : f ∈ textCertificates tools r.text
    · simp only [hf, true_or]
    · rw [hsigned hf]
  · rw [hfull.flagged]
    by_cases hf : f ∈ textCertificates tools r.text
    · simp only [hf, not_true_eq_false, and_false]
    · rw [hsigned hf]
  have hkept : ∃ operations', Holds tools.pgp operations' (c.reflectFromSvn tools r).1.keys := by
    rw [reflect_frame]
    show ∃ operations', Holds tools.pgp operations' (c.ensureAssociated tools r).1.keys
    exact storesAll_holds harmor hholds hfull.stores
  obtain ⟨operations', hholds'⟩ := hkept
  have hfull' := (huneventful.succeeds hsame harmor h hcurrent).full harmor hholds'
  have hcurrent' : Current tools r' (c.reflectFromSvn tools r).1 := by
    refine ⟨fun k hk => hcurrent.settled k ((hfull.models hsame hfull').1 hk), ?_, ?_⟩
    · rw [hsame]
      exact hcurrent.linked
    · rw [hsame]
      exact hcurrent.flagged
  exact hcurrent'.again harmor hfull'

/-- No certificate of the text is unlinked, and runs in which every block succeeds reflect it, exactly if the text has a
closed block and nothing of it is stored, or every linked certificate of it is stored or has signed an artifact. -/
theorem reflect_keeps_iff (harmor : tools.armor.Lawful) (ts : List Transaction)
    (hkeys : c.keys = run tools.pgp tools.armor empty ts) : Keeps tools r c ↔ NoneOrAll tools r c := by
  have hholds : Holds tools.pgp ([] ++ committed tools.pgp tools.armor empty ts) c.keys := by
    rw [hkeys]
    exact run_keeps harmor ts (holds_empty _)
  constructor
  · intro hkeeps
    exact (kept_iff harmor hholds).1 hkeeps.kept
  · intro hcondition
    exact ⟨(kept_iff harmor hholds).2 hcondition, fun hsucceeds => hsucceeds.reflected harmor hholds⟩

/-! ### A file of two blocks -/

def insertedFrames (l : List Placement) : List Placement :=
  l.insertionSort fun x y => placementKey x ≤ placementKey y

private theorem insertedFrames_perm (l : List Placement) : (insertedFrames l).Perm l := List.perm_insertionSort _ l

private theorem insertedFrames_congr {l l' : List Placement} (h : l.Perm l') :
    insertedFrames l = insertedFrames l' := by
  have : Std.Total fun x y => placementKey x ≤ placementKey y := ⟨fun _ _ => le_total _ _⟩
  have : Std.Antisymm fun x y => placementKey x ≤ placementKey y :=
    ⟨fun _ _ h h' => placementKey_inj (le_antisymm h h')⟩
  have : IsTrans Placement fun x y => placementKey x ≤ placementKey y := ⟨fun _ _ _ => le_trans⟩
  have hperm : (insertedFrames l).Perm (insertedFrames l') :=
    (insertedFrames_perm l).trans (h.trans (insertedFrames_perm l').symm)
  exact hperm.eq_of_pairwise' (List.pairwise_insertionSort _ l) (List.pairwise_insertionSort _ l')

def insertedList (s : Finset Placement) : List Placement :=
  Quot.liftOn s.val insertedFrames fun _ _ h => insertedFrames_congr h

private theorem insertedList_perm (s : Finset Placement) :
    ∃ l : List Placement, s.val = l ∧ (insertedList s).Perm l := by
  obtain ⟨l, hl⟩ := Quot.exists_rep s.val
  refine ⟨l, hl.symm, ?_⟩
  unfold insertedList
  rw [← hl]
  exact insertedFrames_perm l

private theorem mem_insertedList (s : Finset Placement) (x : Placement) : x ∈ insertedList s ↔ x ∈ s := by
  obtain ⟨l, hl, hperm⟩ := insertedList_perm s
  rw [hperm.mem_iff, ← Finset.mem_val, hl, Multiset.mem_coe]

private theorem nodup_insertedList (s : Finset Placement) : (insertedList s).Nodup := by
  obtain ⟨l, hl, hperm⟩ := insertedList_perm s
  have hnodup := s.nodup
  rw [hl, Multiset.coe_nodup] at hnodup
  exact hperm.nodup_iff.2 hnodup

/-- Iteration in the order of the frames, by insertion. -/
def insertedIteration : Iteration := ⟨insertedList, mem_insertedList, nodup_insertedList⟩

def otherPrimary : Frame := ⟨primaryKeyTag, [byte 4, byte 2], by decide⟩

/-- A package that knows two primary keys. -/
def twoPrimaries : OpenPgp where
  packet data :=
    if data = framed samplePrimary then some (.publicKey "AB".toList "B".toList)
    else if data = framed otherPrimary then some (.publicKey "CD".toList "D".toList)
    else some .other
  certificate _ := true

def insertedCall : Call := { sampleCall with order := insertedIteration }

def sampleParsed : ParsedKey := ⟨sampleKey [sampleUserId], ["b".toList]⟩

def otherParsed : ParsedKey :=
  ⟨⟨"cd".toList, lineArmor ([otherPrimary, sampleUserId].flatMap framed) true, none⟩, ["d".toList]⟩

/-- Each certificate is told by its block, also by the beginning of it. -/
def sampleTools : Tools where
  pgp := twoPrimaries
  armor := lineArmor
  certificates block := [sampleParsed, otherParsed].filter fun k => decide (block <+: k.key.asciiArmoredKey)
  signingKeyRows fingerprint _ := some [fingerprint]

/-- A run of a text in which nothing fails but blocks. -/
def sampleReflection (text : Str) (blockFails : Nat → Bool) : Reflection where
  call := insertedCall
  source := "svn:1".toList
  text := text
  blockFails := blockFails
  partFails _ _ := false
  storeFails _ := false
  unreadable := false
  failsBefore := false
  failsAfter := false

/-- A file of two blocks, of which the first fails to be read or does not. -/
def twoBlocks (fails : Bool) : Reflection :=
  sampleReflection (sampleParsed.key.asciiArmoredKey ++ otherParsed.key.asciiArmoredKey) fun i => decide (i = 0) && fails

/-- A file that ends before the only block is closed. -/
def cutOff : Reflection :=
  sampleReflection (sampleParsed.key.asciiArmoredKey.take (sampleParsed.key.asciiArmoredKey.length - armorEnd.length - 1))
    fun _ => false

def oneUpload : List Transaction := [⟨insertedCall, [.upload sampleParsed.key "web:1".toList], false⟩]

/-- A committee with a link to the first certificate. -/
def oneLinked : Committee :=
  ⟨run sampleTools.pgp sampleTools.armor empty oneUpload, Dict.set ∅ sampleParsed.key.fingerprint none, ∅, [], [], []⟩

private theorem oneLinked_keys : oneLinked.keys = run sampleTools.pgp sampleTools.armor empty oneUpload := by
  simp only [oneLinked]

/-- If both blocks are read then the certificate is stored again and stays. -/
theorem reflect_keeps_iff_twoBlocks : Keeps sampleTools (twoBlocks false) oneLinked := by
  refine (reflect_keeps_iff lineArmor_lawful oneUpload oneLinked_keys).2 (Or.inr fun f hlinked _ => Or.inl ?_)
  have hf : f = "ab".toList := by
    have hmem : f ∈ (["ab".toList] : List Str).toFinset := hlinked
    simpa using hmem
  exact ⟨sampleParsed, hf.symm, rfl, rfl, rfl, by decide +kernel, by decide +kernel⟩

/-- The certificate of a block is unlinked where the block fails to be read and another one is stored, and where the file
ends before the block is closed. -/
theorem not_reflect_keeps : sampleTools.armor.Lawful ∧
    oneLinked.keys = run sampleTools.pgp sampleTools.armor empty oneUpload ∧
    ¬ Keeps sampleTools (twoBlocks true) oneLinked ∧ ¬ Keeps sampleTools cutOff oneLinked := by
  refine ⟨lineArmor_lawful, oneLinked_keys, fun hkeeps => ?_, fun hkeeps => ?_⟩
  · have hlinked := hkeeps.kept "ab".toList (by decide) (by decide +kernel)
    exact absurd hlinked (by decide +kernel)
  · have hlinked := hkeeps.kept "ab".toList (by decide) (by decide +kernel)
    exact absurd hlinked (by decide +kernel)

end Keys

end TrustedReleases
