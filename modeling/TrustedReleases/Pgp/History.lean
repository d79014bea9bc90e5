import TrustedReleases.Pgp.Merge

/-!
# Merging into a history

What a certificate was is kept as placements.  A new block is merged into them by way of the block that they write
(`mergedInto`).  If that succeeds then both are of one primary key, and the result holds the placements that were there
and those of the new block which are kept (`mergedInto_spec`).
-/

namespace TrustedReleases

open Lib

namespace Pgp

variable {pgp : OpenPgp} {armor : Armor} {primary : Frame}

/-- `certificate_block`. -/
def certificateBlock (pgp : OpenPgp) (armor : Armor) (order : Iteration) (placements : Finset Placement) :
    Except Error Str := do
  let data ← fragmentBytes pgp order placements none
  armored armor data

/-! ### Blocks that can be merged -/

private theorem certificateGroupsFrom_ok {fs : List Frame} {head : Frame} {attached : List Frame}
    {groups : Group × List Group}
    (h : certificateGroupsFrom head attached fs = .ok groups) :
    groups.1.1 = head ∧ ∀ f ∈ fs, f.tag ≠ primaryKeyTag := by
  induction fs generalizing head attached groups with
  | nil =>
    obtain rfl := Except.ok.inj h
    exact ⟨rfl, by simp⟩
  | cons f fs ih =>
    unfold certificateGroupsFrom at h
    split_ifs at h with htag hsection hskip
    · obtain ⟨rest, hrest, hgroups⟩ := bind_eq_ok h
      obtain rfl := Except.ok.inj hgroups
      exact ⟨rfl, List.forall_mem_cons.2 ⟨htag, (ih hrest).2⟩⟩
    · exact ⟨(ih h).1, List.forall_mem_cons.2 ⟨htag, (ih h).2⟩⟩
    · exact ⟨(ih h).1, List.forall_mem_cons.2 ⟨htag, (ih h).2⟩⟩

/-- A block whose groups can be told is a certificate of the first of them. -/
private theorem blockGroups_ok {block : Str} {groups : Group × List Group} (h : blockGroups block = .ok groups) :
    groups.1.1.tag = primaryKeyTag ∧ ∃ rest, Certificate groups.1.1 rest block := by
  unfold blockGroups at h
  obtain ⟨data, hdata, h⟩ := bind_eq_ok h
  obtain ⟨fs, hframes, h⟩ := bind_eq_ok h
  cases fs with
  | nil => cases h
  | cons f fs =>
    unfold certificateGroups at h
    obtain ⟨htag, h⟩ := raiseIf_bind_eq_ok.1 h
    rw [not_not] at htag
    obtain ⟨hhead, hsingle⟩ := certificateGroupsFrom_ok h
    rw [hhead]
    exact ⟨htag, fs, by rw [hdata, ok_bind, hframes], htag, hsingle⟩

/-- Blocks that merge are certificates of one primary key. -/
private theorem mergeCertificateBlocks_ok {blocks : List Str} {merged : Str}
    (h : mergeCertificateBlocks pgp armor blocks = .ok merged) :
    ∃ primary, ∀ block ∈ blocks, ∃ rest, Certificate primary rest block := by
  unfold mergeCertificateBlocks at h
  obtain ⟨grouped, hgrouped, h⟩ := bind_eq_ok h
  obtain ⟨hblocks, hall⟩ := exists_of_forall₂ (mapM_eq_ok.1 hgrouped)
  cases grouped with
  | nil => cases h
  | cons first rest =>
    obtain ⟨hbodies, -⟩ := raiseIf_bind_eq_ok.1 h
    obtain ⟨_, -, hfirst⟩ := hall first List.mem_cons_self
    obtain ⟨hfirstTag, -⟩ := blockGroups_ok hfirst
    refine ⟨first.1.1, fun block hblock => ?_⟩
    obtain ⟨groups, hmem, hgroups⟩ := hblocks block hblock
    obtain ⟨htag, hcertificate⟩ := blockGroups_ok hgroups
    have hsame : groups.1.1 = first.1.1 := by
      rcases List.mem_cons.1 hmem with rfl | hrest
      · rfl
      · refine Frame.ext (htag.trans hfirstTag.symm) ?_
        by_contra hne
        exact hbodies ⟨groups, hrest, hne⟩
    rwa [hsame] at hcertificate

/-! ### Blocks of placements -/

/-- The primary key is the only head of a state with its tag. -/
theorem State.primaries {s : Finset Placement} (h : State primary s) (order : Iteration) :
    (sectionsOf (order.list s)).keys.filter (fun head => decide (head.tag = primaryKeyTag)) = [primary] := by
  have hkey : primary ∈ (sectionsOf (order.list s)).keys := mem_keys_sectionsOf.2 ⟨none, (order.mem s _).2 h.holds⟩
  refine List.perm_singleton.1 ((List.perm_ext_iff_of_nodup
    ((sectionsOf (order.list s)).keys_nodup.filter _) (List.nodup_singleton _)).2 fun head => ?_)
  rw [List.mem_filter, decide_eq_true_iff, List.mem_singleton]
  constructor
  · intro ⟨hhead, htag⟩
    rcases (h.formed order).heads head hhead with heq | hsection
    · exact heq
    · exact absurd htag (sectionTags_clear _ hsection).1
  · intro heq
    rw [heq]
    exact ⟨hkey, h.primaryTag⟩

/-- What is written for a state whose primary key is read. -/
theorem State.fragmentBytes {s : Finset Placement} (h : State primary s) (order : Iteration)
    {fingerprint keyId : Str} (hpacket : pgp.packet (framed primary) = some (.publicKey fingerprint keyId)) :
    Pgp.fragmentBytes pgp order s none =
      .ok (emittedSections pgp (sectionsOf (order.list s)) primary (lower fingerprint) (lower keyId) true) := by
  unfold Pgp.fragmentBytes
  simp only [h.primaries order, ok_bind, hpacket, h.holds, decide_true, raiseIf, List.mem_singleton, exists_eq_left,
    ne_eq, not_true_eq_false, if_false, pure_eq_ok]

/-- The block of a state is a certificate of its primary key and places the state. -/
private theorem certificateBlock_ok (harmor : armor.Lawful) {order : Iteration} {s : Finset Placement}
    (h : State primary s)
    {block : Str} (hblock : certificateBlock pgp armor order s = .ok block) :
    (∃ rest, Certificate primary rest block) ∧ ∀ x, Placed block x ↔ x ∈ s := by
  unfold certificateBlock at hblock
  obtain ⟨data, hdata, hwritten⟩ := bind_eq_ok hblock
  have hdearmored := dearmored_armored harmor hwritten
  have hformed : (sectionsOf (order.list s)).Formed primary := h.formed order
  cases hpacket : pgp.packet (framed primary) with
  | none =>
    simp only [Pgp.fragmentBytes, h.primaries order, ok_bind, hpacket] at hdata
    obtain ⟨-, hdata⟩ := raiseIf_bind_eq_ok.1 hdata
    cases hdata
  | some packet =>
    cases packet with
    | publicKey fingerprint keyId =>
      rw [h.fragmentBytes order hpacket, emittedSections_eq] at hdata
      obtain rfl := Except.ok.inj hdata
      have hcertificate : Certificate primary
          (emittedFrames pgp (sectionsOf (order.list s)) primary (lower fingerprint) (lower keyId)) block :=
        ⟨by rw [hdearmored, ok_bind, frames_framed]; rfl, h.primaryTag,
          fun f hf => (emittedFrames_clear pgp hformed _ _ f hf).1⟩
      refine ⟨⟨_, hcertificate⟩, fun x => ?_⟩
      rw [hcertificate.placed, mem_placeFrames_emitted pgp hformed, h.places order]
      constructor
      · rintro (rfl | hx)
        · exact h.holds
        · exact hx.1
      · intro hx
        by_cases heq : x = (primary, none)
        · exact .inl heq
        · exact .inr ⟨hx, heq⟩
    | _ =>
      simp only [Pgp.fragmentBytes, h.primaries order, ok_bind, hpacket] at hdata
      obtain ⟨-, hdata⟩ := raiseIf_bind_eq_ok.1 hdata
      cases hdata

/-- The placements of merged sections are a state. -/
theorem Sections.Merged.state {sections : Sections} {P : Placement → Prop} (h : sections.Merged primary P)
    {s : Finset Placement} (hs : ∀ x, x ∈ s ↔ P x) : State primary s where
  primaryTag := h.primaryTag
  heads := by
    intro x hx
    have hkey : x.1 ∈ sections.keys := by
      rcases x with ⟨head, _ | f⟩
      · exact h.mem_keys.2 ((hs _).1 hx)
      · exact Sections.mem_keys (h.mem_attached.2 ((hs _).1 hx))
    rcases h.heads _ hkey with heq | htag
    · exact .inl heq
    · exact .inr ⟨htag, (hs _).2 (h.mem_keys.1 hkey)⟩
  attached := by
    rintro ⟨head, frame⟩ hx f hf
    obtain rfl : frame = some f := hf
    exact h.attached head f (h.mem_attached.2 ((hs _).1 hx))
  holds := (hs _).2 (h.mem_keys.1 h.holds)

/-- The frames under a head are each collected once. -/
private theorem nodup_attached_sectionsOf {l : List Placement} (h : l.Nodup) (head : Frame) :
    ((sectionsOf l).attached head).Nodup := by
  induction l using List.reverseRecOn with
  | nil => exact List.nodup_nil
  | append_singleton l x ih =>
    obtain ⟨hl, -, hdisjoint⟩ := List.nodup_append.1 h
    rw [sectionsOf_append, attached_set]
    split_ifs with hx
    · rw [← hx]
      refine List.nodup_append.2 ⟨ih hl, by cases x.2 <;> simp, fun f hf g hg heq => ?_⟩
      have hmem : (head, some f) ∈ l := mem_attached_sectionsOf.1 hf
      refine hdisjoint _ hmem x (List.mem_singleton_self x) (Prod.ext hx ?_)
      rw [heq]
      exact (Option.mem_toList.1 hg).symm
    · exact ih hl

/-- The sections of a state are those of its placements. -/
theorem State.merged {s : Finset Placement} (h : State primary s) (order : Iteration) :
    (sectionsOf (order.list s)).Merged primary (· ∈ s) where
  toFormed := h.formed order
  holds := mem_keys_sectionsOf.2 ⟨none, (order.mem s _).2 h.holds⟩
  nodup := nodup_attached_sectionsOf (order.nodup s)
  places x := by
    rw [h.places order]
    constructor
    · rintro (rfl | hx)
      · exact h.holds
      · exact hx.1
    · intro hx
      by_cases heq : x = (primary, none)
      · exact .inl heq
      · exact .inr ⟨hx, heq⟩

/-! ### Merging into what was there -/

/-- A primary key whose block is written is read. -/
private theorem mergedBlock_packet {sections : Sections} {block : Str}
    (h : mergedBlock pgp armor primary sections = .ok block) :
    ∃ fingerprint keyId, pgp.packet (framed primary) = some (.publicKey fingerprint keyId) := by
  unfold mergedBlock at h
  split at h
  next fingerprint keyId hpacket => exact ⟨fingerprint, keyId, hpacket⟩
  · cases h
  · cases h


/-- The block of what was there, if anything was. -/
def previousBlocks (pgp : OpenPgp) (armor : Armor) (order : Iteration) (previous : Finset Placement) :
    Except Error (List Str) :=
  if previous = ∅ then .ok []
  else do
    let block ← certificateBlock pgp armor order previous
    return [block]

/-- A block merged into the placements that were there: the block that is written. -/
def mergedInto (pgp : OpenPgp) (armor : Armor) (order : Iteration) (previous : Finset Placement) (block : Str) :
    Except Error Str := do
  let blocks ← previousBlocks pgp armor order previous
  mergeCertificateBlocks pgp armor (blocks ++ [block])

private theorem previousBlocks_ok (harmor : armor.Lawful) {order : Iteration} {previous : Finset Placement}
    (hprevious : previous = ∅ ∨ ∃ primary, State primary previous) {blocks : List Str}
    (h : previousBlocks pgp armor order previous = .ok blocks) (x : Placement) :
    (∃ block ∈ blocks, Placed block x) ↔ x ∈ previous := by
  unfold previousBlocks at h
  split_ifs at h with hempty
  · obtain rfl := Except.ok.inj h
    simp [hempty]
  · obtain ⟨primary, hstate⟩ := hprevious.resolve_left hempty
    obtain ⟨block, hwritten, h⟩ := bind_eq_ok h
    obtain rfl := Except.ok.inj h
    rw [← (certificateBlock_ok harmor hstate hwritten).2 x]
    simp

/-- What is merged into a state, or into nothing, is a certificate of its primary key, which is read.  The result keeps
the state and adds what the block places. -/
theorem mergedInto_spec (harmor : armor.Lawful) {order : Iteration} {previous : Finset Placement} {block merged : Str}
    (hprevious : previous = ∅ ∨ ∃ primary, State primary previous) (hkept : ∀ x ∈ previous, Kept pgp x)
    (h : mergedInto pgp armor order previous block = .ok merged) :
    ∃ primary rest result, Certificate primary rest block ∧ State primary result ∧
      certificatePlacements merged = .ok result ∧
      (∀ x, x ∈ result ↔ x ∈ previous ∨ (Placed block x ∧ Kept pgp x)) ∧
      ∃ fingerprint keyId, pgp.packet (framed primary) = some (.publicKey fingerprint keyId) := by
  unfold mergedInto at h
  obtain ⟨blocks, hblocks, h⟩ := bind_eq_ok h
  obtain ⟨primary, hcertificates⟩ := mergeCertificateBlocks_ok h
  obtain ⟨rest, hcertificate⟩ := hcertificates block (by simp)
  have hne : blocks ++ [block] ≠ [] := List.append_ne_nil_of_right_ne_nil _ (by simp)
  have hmerges := @mergeCertificateBlocks_eq armor _ _ pgp hne hcertificates
  obtain ⟨sections, hsections, heq⟩ := hmerges
  have hmerged := heq.symm.trans h
  obtain ⟨-, -, result, hresult, hmem⟩ := mergedBlock_certificate harmor hsections hmerged
  have hplaced := previousBlocks_ok harmor hprevious hblocks
  refine ⟨primary, rest, result, hcertificate, hsections.state hmem, hresult, fun x => ?_, mergedBlock_packet hmerged⟩
  rw [hmem]
  unfold MergedPlacements
  simp only [List.mem_append, List.mem_singleton, or_and_right, exists_or, exists_eq_left, hplaced]
  constructor
  · rintro (hx | hx)
    · exact .inl hx.1
    · exact .inr hx
  · rintro (hx | hx)
    · exact .inl ⟨hx, hkept x hx⟩
    · exact .inr hx

/-- A block that is merged again into the result gives the same block, in whatever order of iteration. -/
theorem mergedInto_again (harmor : armor.Lawful) {order : Iteration} {previous result : Finset Placement}
    {block merged : Str} (h : mergedInto pgp armor order previous block = .ok merged)
    (hresult : certificatePlacements merged = .ok result) (order' : Iteration) :
    mergedInto pgp armor order' result block = .ok merged := by
  unfold mergedInto at h
  obtain ⟨blocks, -, h⟩ := bind_eq_ok h
  obtain ⟨primary, hcertificates⟩ := mergeCertificateBlocks_ok h
  have hne : blocks ++ [block] ≠ [] := List.append_ne_nil_of_right_ne_nil _ (by simp)
  obtain ⟨sections, hsections, heq⟩ := @mergeCertificateBlocks_eq armor _ _ pgp hne hcertificates
  have hmerged := heq.symm.trans h
  obtain ⟨hcertificate, hplaced, result', hresult', hmem⟩ := mergedBlock_certificate harmor hsections hmerged
  obtain rfl := Except.ok.inj (hresult'.symm.trans hresult)
  have hstate : State primary result' := hsections.state hmem
  -- the block of the result is the merged block
  have hwritten : certificateBlock pgp armor order' result' = .ok merged := by
    obtain ⟨fingerprint, keyId, hpacket⟩ := mergedBlock_packet hmerged
    unfold mergedBlock at hmerged
    rw [hpacket] at hmerged
    obtain ⟨-, harmored⟩ := raiseIf_bind_eq_ok.1 hmerged
    unfold certificateBlock
    rw [hstate.fragmentBytes order' hpacket, ok_bind,
      emittedSections_congr ((hstate.merged order').same hsections hmem)]
    exact harmored
  have hprevious : previousBlocks pgp armor order' result' = .ok [merged] := by
    unfold previousBlocks
    rw [if_neg (Finset.ne_empty_of_mem hstate.holds), hwritten]
    rfl
  unfold mergedInto
  rw [hprevious, ok_bind, ← h]
  have hboth : ∀ b ∈ [merged] ++ [block], ∃ rest, Certificate primary rest b := by
    intro b hb
    rcases List.mem_append.1 hb with hb | hb
    · rw [List.mem_singleton.1 hb]
      exact hcertificate
    · exact hcertificates b (List.mem_append_right _ hb)
  refine mergeCertificateBlocks_congr pgp (by simp) hne hboth hcertificates fun x => ?_
  unfold MergedPlacements at hplaced ⊢
  rw [List.singleton_append, List.exists_mem_cons_iff, hplaced]
  constructor
  · rintro ⟨hx | ⟨b, hb, hx⟩, hkept⟩
    · exact ⟨hx.1, hkept⟩
    · exact ⟨⟨b, List.mem_append_right _ hb, hx⟩, hkept⟩
  · intro hx
    exact ⟨.inl hx, hx.2⟩

/-! ### Deltas in any order -/

/-- A delta applies in every order of iteration alike. -/
theorem applyDelta_order {previous : Finset Placement} (hprevious : previous = ∅ ∨ ∃ primary, State primary previous)
    (order order' : Iteration) (deletions additions : Option Bytes) :
    applyDelta order previous deletions additions = applyDelta order' previous deletions additions := by
  have hfind : ∀ order : Iteration, ∀ primary, State primary previous →
      ((order.list previous).find? fun x => decide (x.2 = none ∧ x.1.tag = primaryKeyTag)).map (fun x => x.1) =
        some primary := by
    intro order primary hstate
    cases hfound : (order.list previous).find? fun x => decide (x.2 = none ∧ x.1.tag = primaryKeyTag) with
    | none =>
      have hnot := List.find?_eq_none.1 hfound (primary, none) ((order.mem _ _).2 hstate.holds)
      exact absurd (decide_eq_true ⟨rfl, hstate.primaryTag⟩) hnot
    | some x =>
      have hdecided := List.find?_some hfound
      have htag := (of_decide_eq_true hdecided).2
      rcases hstate.heads x ((order.mem _ _).1 (List.mem_of_find?_eq_some hfound)) with heq | ⟨hsection, -⟩
      · rw [Option.map_some, heq]
      · exact absurd htag (sectionTags_clear _ hsection).1
  have hnil : ∀ order : Iteration, order.list ∅ = [] := fun order =>
    List.eq_nil_iff_forall_not_mem.2 fun x hx => Finset.notMem_empty x ((order.mem ∅ x).1 hx)
  unfold applyDelta
  rcases hprevious with rfl | ⟨primary, hstate⟩
  · simp only [hnil]
  · simp only [hfind order primary hstate, hfind order' primary hstate]

end Pgp

end TrustedReleases
