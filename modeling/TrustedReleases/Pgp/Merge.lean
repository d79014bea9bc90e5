import TrustedReleases.Pgp.Armor
import TrustedReleases.Pgp.Delta

/-!
# Merging certificates

`merge_certificate_blocks` collects the sections of several blocks of one certificate and writes them in canonical
order.  What it writes depends on the placements of the blocks alone (`mergeCertificateBlocks_congr`), and it writes
their union without what is never carried and the local certifications, so that merging is a semilattice.
-/

namespace TrustedReleases

open Lib

namespace Pgp

/-! ### The sections of a block -/

/-- A head and the frames attached to it. -/
abbrev Group := Frame × List Frame

/-- The loop of `_certificate_groups`, with the last group apart. -/
def certificateGroupsFrom (head : Frame) (attached : List Frame) : List Frame → Except Error (Group × List Group)
  | [] => .ok ((head, attached), [])
  | f :: fs =>
    if f.tag = primaryKeyTag then .error .blockSeveral
    else if f.tag ∈ sectionTags then do
      let rest ← certificateGroupsFrom f [] fs
      return ((head, attached), rest.1 :: rest.2)
    else if f.tag ∈ skippablePacketTags then certificateGroupsFrom head attached fs
    else certificateGroupsFrom head (attached ++ [f]) fs

/-- `_certificate_groups`: the group of the primary, and the others. -/
def certificateGroups : List Frame → Except Error (Group × List Group)
  | [] => .error .blockNoPrimary
  | f :: fs => do
    raiseIf (f.tag ≠ primaryKeyTag) .blockNoPrimary
    certificateGroupsFrom f [] fs

def blockGroups (block : Str) : Except Error (Group × List Group) := do
  let data ← dearmored block
  let fs ← frames data
  certificateGroups fs

/-! ### Merging -/

def certificationRevocationSignatureType : Str := "cert-revocation".toList

/-- `_local_certification`. -/
def localCertification (s : Signature) : Bool :=
  s.typ.any (fun typ => decide (typ ∈ certificationSignatureTypes ∨ typ = certificationRevocationSignatureType)) &&
    decide (s.exportableCertification = some false)

/-- `_local_certification_frame`. -/
def localCertificationFrame (pgp : OpenPgp) (f : Frame) : Bool := (parsedSignature pgp f).any localCertification

/-- The frames merged with another one, which is left out if it is local or there already. -/
def mergeFrame (pgp : OpenPgp) (merged : List Frame) (f : Frame) : List Frame :=
  if localCertificationFrame pgp f ∨ f ∈ merged then merged else merged ++ [f]

def mergeGroup (pgp : OpenPgp) (sections : Sections) (group : Group) : Sections :=
  Dict.set sections group.1 (group.2.foldl (mergeFrame pgp) (sections.attached group.1))

def mergeGroups (pgp : OpenPgp) (groups : List Group) : Sections := groups.foldl (mergeGroup pgp) ∅

/-- What is written for the sections of a primary key. -/
def mergedBlock (pgp : OpenPgp) (armor : Armor) (primary : Frame) (sections : Sections) : Except Error Str :=
  match pgp.packet (framed primary) with
  | some (.publicKey fingerprint keyId) => do
    let data := emittedSections pgp sections primary (lower fingerprint) (lower keyId) true
    raiseIf (pgp.certificate data = false) .openpgp
    armored armor data
  | some _ => .error .notPublicKey
  | none => .error .openpgp

/-- `merge_certificate_blocks`. -/
def mergeCertificateBlocks (pgp : OpenPgp) (armor : Armor) (blocks : List Str) : Except Error Str := do
  let grouped ← blocks.mapM (blockGroups)
  match grouped with
  | [] => .error .noBlocks
  | first :: rest => do
    raiseIf (∃ groups ∈ rest, groups.1.1.body ≠ first.1.1.body) .differentPrimaries
    mergedBlock pgp armor first.1.1 (mergeGroups pgp ((first :: rest).flatMap fun groups => groups.1 :: groups.2))

/-! ### What a block places -/

/-- A block with one certificate: a primary key packet, and the frames after it. -/
structure Certificate (primary : Frame) (rest : List Frame) (block : Str) : Prop where
  frames : (dearmored block >>= frames) = .ok (primary :: rest)
  primaryTag : primary.tag = primaryKeyTag
  single : ∀ f ∈ rest, f.tag ≠ primaryKeyTag

/-- The placements of a block, with those that fragments never carry. -/
def Placed (block : Str) (x : Placement) : Prop :=
  ∃ primary rest, (dearmored block >>= frames) = .ok (primary :: rest) ∧
    x ∈ (primary, none) :: placeFrames primary rest

/-- A placement of no skippable packet and no local certification. -/
def Kept (pgp : OpenPgp) (x : Placement) : Prop :=
  ∀ f ∈ x.2, f.tag ∉ skippablePacketTags ∧ localCertificationFrame pgp f = false

/-- The placements of a group. -/
def Group.Places (group : Group) (x : Placement) : Prop := x = (group.1, none) ∨ ∃ f ∈ group.2, x = (group.1, some f)

theorem Certificate.placed {primary : Frame} {rest : List Frame} {block : Str}
    (h : Certificate primary rest block) (x : Placement) :
    Placed block x ↔ x = (primary, none) ∨ x ∈ placeFrames primary rest := by
  constructor
  · rintro ⟨primary', rest', hframes, hx⟩
    rw [h.frames] at hframes
    cases hframes
    exact List.mem_cons.1 hx
  · intro hx
    exact ⟨primary, rest, h.frames, List.mem_cons.2 hx⟩

/-- The groups of a block place what the block places, without the skippable packets. -/
private theorem certificateGroupsFrom_places {fs : List Frame} (h : ∀ f ∈ fs, f.tag ≠ primaryKeyTag)
    (head : Frame) (attached : List Frame) :
    ∃ groups, certificateGroupsFrom head attached fs = .ok groups ∧ groups.1.1 = head ∧
      ∀ x, (∃ group ∈ groups.1 :: groups.2, Group.Places group x) ↔ Group.Places (head, attached) x ∨
        (x ∈ placeFrames head fs ∧ ∀ f ∈ x.2, f.tag ∉ skippablePacketTags) := by
  induction fs generalizing head attached with
  | nil => exact ⟨((head, attached), []), rfl, rfl, fun x => by simp [placeFrames]⟩
  | cons f fs ih =>
    rw [List.forall_mem_cons] at h
    rw [certificateGroupsFrom, if_neg h.1]
    by_cases hsection : f.tag ∈ sectionTags
    · obtain ⟨groups, hgroups, hhead, hplaces⟩ := ih h.2 f []
      refine ⟨((head, attached), groups.1 :: groups.2), ?_, rfl, fun x => ?_⟩
      · rw [if_pos hsection, hgroups]
        rfl
      · simp only [List.exists_mem_cons_iff] at hplaces ⊢
        rw [hplaces, placeFrames, if_pos hsection, List.mem_cons]
        refine or_congr_right ?_
        constructor
        · rintro ((rfl | ⟨g, hg, -⟩) | hx)
          · exact ⟨.inl rfl, by simp⟩
          · exact absurd hg List.not_mem_nil
          · exact ⟨.inr hx.1, hx.2⟩
        · rintro ⟨rfl | hx, hkept⟩
          · exact .inl (.inl rfl)
          · exact .inr ⟨hx, hkept⟩
    · rw [if_neg hsection, placeFrames, if_neg hsection]
      by_cases hskip : f.tag ∈ skippablePacketTags
      · obtain ⟨groups, hgroups, hhead, hplaces⟩ := ih h.2 head attached
        refine ⟨groups, by rw [if_pos hskip, hgroups], hhead, fun x => ?_⟩
        rw [hplaces, List.mem_cons]
        refine or_congr_right ⟨fun hx => ⟨.inr hx.1, hx.2⟩, ?_⟩
        rintro ⟨rfl | hx, hkept⟩
        · exact absurd hskip (hkept f rfl)
        · exact ⟨hx, hkept⟩
      · obtain ⟨groups, hgroups, hhead, hplaces⟩ := ih h.2 head (attached ++ [f])
        refine ⟨groups, by rw [if_neg hskip, hgroups], hhead, fun x => ?_⟩
        rw [hplaces, List.mem_cons]
        constructor
        · rintro ((hx | ⟨g, hg, hx⟩) | hx)
          · exact .inl (.inl hx)
          · rcases List.mem_append.1 hg with hg | hg
            · exact .inl (.inr ⟨g, hg, hx⟩)
            · obtain rfl := List.mem_singleton.1 hg
              subst hx
              refine .inr ⟨.inl rfl, fun f' hf' => ?_⟩
              rwa [← Option.mem_some_iff.1 hf']
          · exact .inr ⟨.inr hx.1, hx.2⟩
        · rintro ((hx | ⟨g, hg, hx⟩) | ⟨rfl | hx, hkept⟩)
          · exact .inl (.inl hx)
          · exact .inl (.inr ⟨g, List.mem_append_left _ hg, hx⟩)
          · exact .inl (.inr ⟨f, by simp, rfl⟩)
          · exact .inr ⟨hx, hkept⟩

theorem Certificate.groups {primary : Frame} {rest : List Frame} {block : Str}
    (h : Certificate primary rest block) :
    ∃ groups, blockGroups block = .ok groups ∧ groups.1.1 = primary ∧
      ∀ x, (∃ group ∈ groups.1 :: groups.2, Group.Places group x) ↔
        Placed block x ∧ ∀ f ∈ x.2, f.tag ∉ skippablePacketTags := by
  obtain ⟨groups, hgroups, hhead, hplaces⟩ := certificateGroupsFrom_places h.single primary []
  refine ⟨groups, ?_, hhead, fun x => ?_⟩
  · obtain ⟨data, hdata, hframes⟩ := bind_eq_ok h.frames
    rw [blockGroups, hdata, ok_bind, hframes, ok_bind, certificateGroups]
    exact raiseIf_bind_eq_ok.2 ⟨not_not.2 h.primaryTag, hgroups⟩
  · rw [hplaces, h.placed]
    constructor
    · rintro ((rfl | ⟨g, hg, -⟩) | hx)
      · exact ⟨.inl rfl, by simp⟩
      · exact absurd hg List.not_mem_nil
      · exact ⟨.inr hx.1, hx.2⟩
    · rintro ⟨rfl | hx, hkept⟩
      · exact .inl (.inl rfl)
      · exact .inr ⟨hx, hkept⟩

/-! ### What is merged -/

variable {pgp : OpenPgp}

private theorem mem_foldl_mergeFrame (fs merged : List Frame) (f : Frame) :
    f ∈ fs.foldl (mergeFrame pgp) merged ↔ f ∈ merged ∨ (f ∈ fs ∧ localCertificationFrame pgp f = false) := by
  induction fs generalizing merged with
  | nil => simp
  | cons g fs ih =>
    rw [List.foldl_cons, ih, List.mem_cons]
    unfold mergeFrame
    split_ifs with hg
    · constructor
      · rintro (hmem | hmem)
        · exact .inl hmem
        · exact .inr ⟨.inr hmem.1, hmem.2⟩
      · rintro (hmem | ⟨rfl | hmem, hlocal⟩)
        · exact .inl hmem
        · exact .inl (hg.resolve_left (by simp [hlocal]))
        · exact .inr ⟨hmem, hlocal⟩
    · rw [not_or, Bool.not_eq_true] at hg
      rw [List.mem_append, List.mem_singleton]
      constructor
      · rintro ((hmem | rfl) | hmem)
        · exact .inl hmem
        · exact .inr ⟨.inl rfl, hg.1⟩
        · exact .inr ⟨.inr hmem.1, hmem.2⟩
      · rintro (hmem | ⟨rfl | hmem, hlocal⟩)
        · exact .inl (.inl hmem)
        · exact .inl (.inr rfl)
        · exact .inr ⟨hmem, hlocal⟩

private theorem nodup_foldl_mergeFrame (pgp : OpenPgp) (fs : List Frame) {merged : List Frame} (h : merged.Nodup) :
    (fs.foldl (mergeFrame pgp) merged).Nodup := by
  induction fs generalizing merged with
  | nil => exact h
  | cons g fs ih =>
    refine ih ?_
    unfold mergeFrame
    split_ifs with hg
    · exact h
    · rw [not_or] at hg
      exact List.nodup_append_comm.1 (List.nodup_cons.2 ⟨hg.2, h⟩)

private theorem mergeGroups_append (pgp : OpenPgp) (groups : List Group) (group : Group) :
    mergeGroups pgp (groups ++ [group]) = mergeGroup pgp (mergeGroups pgp groups) group := by
  simp only [mergeGroups, List.foldl_append, List.foldl_cons, List.foldl_nil]

private theorem mem_keys_mergeGroups {groups : List Group} {head : Frame} :
    head ∈ (mergeGroups pgp groups).keys ↔ ∃ group ∈ groups, group.1 = head := by
  induction groups using List.reverseRecOn with
  | nil => simp [mergeGroups]
  | append_singleton groups group ih =>
    rw [mergeGroups_append, mergeGroup, Dict.mem_keys, Dict.get_set]
    by_cases hhead : head = group.1
    · rw [if_pos hhead]
      exact ⟨fun _ => ⟨group, by simp, hhead.symm⟩, fun _ => rfl⟩
    · rw [if_neg hhead, ← Dict.mem_keys, ih]
      constructor
      · rintro ⟨g, hg, heq⟩
        exact ⟨g, List.mem_append_left _ hg, heq⟩
      · rintro ⟨g, hg, heq⟩
        rcases List.mem_append.1 hg with hg | hg
        · exact ⟨g, hg, heq⟩
        · exact absurd (List.mem_singleton.1 hg ▸ heq).symm hhead

private theorem mem_attached_mergeGroups {groups : List Group} {head f : Frame} :
    f ∈ (mergeGroups pgp groups).attached head ↔
      (∃ group ∈ groups, group.1 = head ∧ f ∈ group.2) ∧ localCertificationFrame pgp f = false := by
  induction groups using List.reverseRecOn with
  | nil => simp [mergeGroups, Sections.attached]
  | append_singleton groups group ih =>
    have hsplit : (∃ g ∈ groups ++ [group], g.1 = head ∧ f ∈ g.2) ↔
        (∃ g ∈ groups, g.1 = head ∧ f ∈ g.2) ∨ (group.1 = head ∧ f ∈ group.2) := by
      simp [List.mem_append, or_and_right, exists_or]
    rw [mergeGroups_append, mergeGroup, attached_set, hsplit, or_and_right]
    by_cases hhead : head = group.1
    · rw [if_pos hhead, mem_foldl_mergeFrame, ← hhead, ih]
      simp only [true_and]
    · rw [if_neg hhead, ih]
      refine ⟨.inl, ?_⟩
      rintro (h | h)
      · exact h
      · exact absurd h.1.1.symm hhead

private theorem nodup_attached_mergeGroups (pgp : OpenPgp) (groups : List Group) (head : Frame) :
    ((mergeGroups pgp groups).attached head).Nodup := by
  induction groups using List.reverseRecOn with
  | nil => simp [mergeGroups, Sections.attached]
  | append_singleton groups group ih =>
    rw [mergeGroups_append, mergeGroup, attached_set]
    split_ifs with hhead
    · exact nodup_foldl_mergeFrame pgp group.2 (hhead ▸ ih)
    · exact ih

/-! ### Merged blocks -/

/-- A head of a certificate of a primary, and a frame that may be attached to it. -/
def Placeable (primary : Frame) (x : Placement) : Prop :=
  (x.1 = primary ∨ x.1.tag ∈ sectionTags) ∧ ∀ f ∈ x.2, f.tag ∉ sectionTags ∧ f.tag ≠ primaryKeyTag

private theorem placeFrames_placeable {fs : List Frame} (h : ∀ f ∈ fs, f.tag ≠ primaryKeyTag) {head : Frame}
    {x : Placement}
    (hx : x ∈ placeFrames head fs) : Placeable head x := by
  induction fs generalizing head with
  | nil => exact absurd hx List.not_mem_nil
  | cons f fs ih =>
    rw [List.forall_mem_cons] at h
    rw [placeFrames] at hx
    split_ifs at hx with hsection
    · rcases List.mem_cons.1 hx with rfl | hx
      · exact ⟨.inr hsection, by simp⟩
      · obtain ⟨hhead, hframe⟩ := ih h.2 hx
        refine ⟨.inr ?_, hframe⟩
        rcases hhead with heq | htag
        · rwa [heq]
        · exact htag
    · rcases List.mem_cons.1 hx with rfl | hx
      · refine ⟨.inl rfl, fun f' hf' => ?_⟩
        rw [← Option.mem_some_iff.1 hf']
        exact ⟨hsection, h.1⟩
      · exact ih h.2 hx

private theorem Certificate.placeable {primary : Frame} {rest : List Frame} {block : Str}
    (h : Certificate primary rest block) {x : Placement} (hx : Placed block x) : Placeable primary x := by
  rcases (h.placed x).1 hx with rfl | hx
  · exact ⟨.inl rfl, by simp⟩
  · exact placeFrames_placeable h.single hx

/-- The sections of the placements `P` of a primary, each frame once. -/
structure Sections.Merged (sections : Sections) (primary : Frame) (P : Placement → Prop) : Prop
    extends sections.Formed primary where
  holds : primary ∈ sections.keys
  nodup : ∀ head, (sections.attached head).Nodup
  places : ∀ x, x = (primary, none) ∨ sections.Places x ↔ P x

theorem Sections.Merged.mem_attached {sections : Sections} {primary : Frame} {P : Placement → Prop}
    (h : sections.Merged primary P) {head f : Frame} : f ∈ sections.attached head ↔ P (head, some f) := by
  rw [← h.places]
  constructor
  · intro hf
    exact .inr (.inr ⟨f, hf, rfl⟩)
  · rintro (heq | ⟨hnone, -⟩ | ⟨g, hg, heq⟩)
    · cases congrArg Prod.snd heq
    · cases hnone
    · have hsame : f = g := Option.some.inj heq
      rwa [hsame]

theorem Sections.Merged.mem_keys {sections : Sections} {primary : Frame} {P : Placement → Prop}
    (h : sections.Merged primary P) {head : Frame} : head ∈ sections.keys ↔ P (head, none) := by
  rw [← h.places]
  constructor
  · intro hkey
    rcases h.heads head hkey with rfl | htag
    · exact .inl rfl
    · exact .inr (.inl ⟨rfl, hkey, htag⟩)
  · rintro (heq | ⟨-, hkey, -⟩ | ⟨g, -, heq⟩)
    · have hhead : head = primary := congrArg Prod.fst heq
      rw [hhead]
      exact h.holds
    · exact hkey
    · cases heq

/-- The placements determine the sections. -/
theorem Sections.Merged.same {sections sections' : Sections} {primary : Frame} {P P' : Placement → Prop}
    (h : sections.Merged primary P) (h' : sections'.Merged primary P') (hP : ∀ x, P x ↔ P' x) :
    sections.Same sections' where
  heads := by
    refine (List.perm_ext_iff_of_nodup sections.keys_nodup sections'.keys_nodup).2 fun head => ?_
    rw [h.mem_keys, h'.mem_keys, hP]
  attached := by
    intro head
    refine (List.perm_ext_iff_of_nodup (h.nodup head) (h'.nodup head)).2 fun f => ?_
    rw [h.mem_attached, h'.mem_attached, hP]

/-- The merged groups hold their placements without the local certifications. -/
private theorem mergeGroups_merged (pgp : OpenPgp) {primary : Frame} (htag : primary.tag = primaryKeyTag)
    {groups : List Group}
    {P : Placement → Prop} (hplaceable : ∀ x, P x → Placeable primary x) (holds : P (primary, none))
    (hgroups : ∀ x, (∃ group ∈ groups, Group.Places group x) ↔ P x ∧ ∀ f ∈ x.2, f.tag ∉ skippablePacketTags) :
    (mergeGroups pgp groups).Merged primary fun x => P x ∧ Kept pgp x := by
  have hkeys : ∀ head, head ∈ (mergeGroups pgp groups).keys ↔ P (head, none) := by
    intro head
    rw [mem_keys_mergeGroups]
    constructor
    · rintro ⟨group, hgroup, rfl⟩
      exact ((hgroups _).1 ⟨group, hgroup, .inl rfl⟩).1
    · intro hP
      obtain ⟨group, hgroup, heq | ⟨f, -, heq⟩⟩ := (hgroups (head, none)).2 ⟨hP, by simp⟩
      · exact ⟨group, hgroup, (congrArg Prod.fst heq).symm⟩
      · cases congrArg Prod.snd heq
  have hattached : ∀ head f, f ∈ (mergeGroups pgp groups).attached head ↔ P (head, some f) ∧ Kept pgp (head, some f) := by
    intro head f
    have hplaces : (∃ group ∈ groups, group.1 = head ∧ f ∈ group.2) ↔
        P (head, some f) ∧ f.tag ∉ skippablePacketTags := by
      have hall := hgroups (head, some f)
      simp only [Option.mem_some_iff, forall_eq'] at hall
      rw [← hall]
      constructor
      · rintro ⟨group, hgroup, rfl, hf⟩
        exact ⟨group, hgroup, .inr ⟨f, hf, rfl⟩⟩
      · rintro ⟨group, hgroup, heq | ⟨g, hg, heq⟩⟩
        · cases congrArg Prod.snd heq
        · obtain ⟨hhead, hframe⟩ := Prod.mk.inj heq
          exact ⟨group, hgroup, hhead.symm, Option.some.inj hframe ▸ hg⟩
    simp only [mem_attached_mergeGroups, hplaces, Kept, Option.mem_some_iff, forall_eq', and_assoc]
  refine ⟨⟨htag, fun head hhead => (hplaceable _ ((hkeys head).1 hhead)).1, fun head f hf => ?_⟩,
    (hkeys primary).2 holds, nodup_attached_mergeGroups pgp groups, fun x => ?_⟩
  · obtain ⟨hP, hkept⟩ := (hattached head f).1 hf
    obtain ⟨hsection, hprimary⟩ := (hplaceable _ hP).2 f rfl
    exact ⟨hsection, hprimary, (hkept f rfl).1⟩
  · rcases x with ⟨head, frame⟩
    cases frame with
    | none =>
      have hkept : Kept pgp (head, none) := fun f hf => absurd hf (Option.not_mem_none f)
      constructor
      · rintro (heq | ⟨-, hkey, -⟩ | ⟨g, -, heq⟩)
        · rw [heq]
          exact ⟨holds, fun f hf => absurd hf (Option.not_mem_none f)⟩
        · exact ⟨(hkeys head).1 hkey, hkept⟩
        · cases heq
      · rintro ⟨hP, -⟩
        rcases (hplaceable _ hP).1 with heq | hsection
        · have hhead : head = primary := heq
          rw [hhead]
          exact .inl rfl
        · exact .inr (.inl ⟨rfl, (hkeys head).2 hP, hsection⟩)
    | some f =>
      rw [← hattached]
      constructor
      · rintro (heq | ⟨hnone, -⟩ | ⟨g, hg, heq⟩)
        · cases congrArg Prod.snd heq
        · cases hnone
        · have hsame : f = g := Option.some.inj heq
          rwa [hsame]
      · intro hf
        exact .inr (.inr ⟨f, hf, rfl⟩)

section Blocks

variable {armor : Armor} {primary : Frame} {blocks : List Str}

/-- The placements that a merge of blocks keeps. -/
def MergedPlacements (pgp : OpenPgp) (blocks : List Str) (x : Placement) : Prop :=
  (∃ block ∈ blocks, Placed block x) ∧ Kept pgp x

/-- The groups of the blocks of one primary. -/
private theorem mapM_blockGroups (h : ∀ block ∈ blocks, ∃ rest, Certificate primary rest block) :
    ∃ grouped, blocks.mapM (blockGroups) = .ok grouped ∧ grouped.length = blocks.length ∧
      (∀ groups ∈ grouped, groups.1.1 = primary) ∧
      ∀ x, (∃ group ∈ grouped.flatMap fun groups => groups.1 :: groups.2, Group.Places group x) ↔
        (∃ block ∈ blocks, Placed block x) ∧ ∀ f ∈ x.2, f.tag ∉ skippablePacketTags := by
  induction blocks with
  | nil => exact ⟨[], rfl, rfl, by simp, by simp⟩
  | cons block blocks ih =>
    rw [List.forall_mem_cons] at h
    obtain ⟨rest, hblock⟩ := h.1
    obtain ⟨groups, hgroups, hhead, hplaces⟩ := hblock.groups
    obtain ⟨grouped, hgrouped, hlength, hheads, hall⟩ := ih h.2
    refine ⟨groups :: grouped, ?_, congrArg Nat.succ hlength, List.forall_mem_cons.2 ⟨hhead, hheads⟩, fun x => ?_⟩
    · rw [List.mapM_cons, hgroups, ok_bind, hgrouped]
      rfl
    · rw [List.exists_mem_cons_iff, or_and_right, ← hplaces, ← hall, List.flatMap_cons]
      simp only [List.mem_append, or_and_right, exists_or]

/-- A merge writes the sections of the placements that it keeps. -/
theorem mergeCertificateBlocks_eq (pgp : OpenPgp) (hblocks : blocks ≠ [])
    (h : ∀ block ∈ blocks, ∃ rest, Certificate primary rest block) :
    ∃ sections, sections.Merged primary (MergedPlacements pgp blocks) ∧
      mergeCertificateBlocks pgp armor blocks = mergedBlock pgp armor primary sections := by
  obtain ⟨grouped, hgrouped, hlength, hheads, hplaces⟩ := mapM_blockGroups h
  cases grouped with
  | nil => exact absurd (List.length_eq_zero_iff.1 hlength.symm) hblocks
  | cons first rest =>
    have hfirst : first.1.1 = primary := hheads first List.mem_cons_self
    have hbodies : ¬ ∃ groups ∈ rest, groups.1.1.body ≠ first.1.1.body := by
      rintro ⟨groups, hgroups, hne⟩
      exact hne (by rw [hheads groups (List.mem_cons_of_mem _ hgroups), hfirst])
    obtain ⟨block, hblock⟩ := List.exists_mem_of_ne_nil blocks hblocks
    obtain ⟨frames, hcertificate⟩ := h block hblock
    have hmerged := mergeGroups_merged pgp hcertificate.primaryTag
      (P := fun x => ∃ block ∈ blocks, Placed block x)
      (fun x ⟨b, hb, hx⟩ => (h b hb).choose_spec.placeable hx)
      ⟨block, hblock, (hcertificate.placed _).2 (.inl rfl)⟩ hplaces
    refine ⟨_, hmerged, ?_⟩
    unfold mergeCertificateBlocks
    rw [hgrouped, ok_bind]
    simp only [raiseIf, if_neg hbodies, ok_bind]
    rw [hfirst]

/-- What is written depends on the placements that are kept alone. -/
theorem mergeCertificateBlocks_congr (pgp : OpenPgp) {blocks' : List Str} (hblocks : blocks ≠ []) (hblocks' : blocks' ≠ [])
    (h : ∀ block ∈ blocks, ∃ rest, Certificate primary rest block)
    (h' : ∀ block ∈ blocks', ∃ rest, Certificate primary rest block)
    (hplaced : ∀ x, MergedPlacements pgp blocks x ↔ MergedPlacements pgp blocks' x) :
    mergeCertificateBlocks pgp armor blocks = mergeCertificateBlocks pgp armor blocks' := by
  obtain ⟨sections, hmerged, heq⟩ := mergeCertificateBlocks_eq pgp hblocks h
  obtain ⟨sections', hmerged', heq'⟩ := mergeCertificateBlocks_eq pgp hblocks' h'
  rw [heq, heq']
  unfold mergedBlock
  simp only [emittedSections_congr (hmerged.same hmerged' hplaced)]

/-- What is written for merged sections is a certificate of the primary with their placements. -/
theorem mergedBlock_certificate {sections : Sections} {P : Placement → Prop} (harmor : armor.Lawful)
    (h : sections.Merged primary P) {block : Str} (hblock : mergedBlock pgp armor primary sections = .ok block) :
    (∃ rest, Certificate primary rest block) ∧ (∀ x, Placed block x ↔ P x) ∧
      ∃ s, certificatePlacements block = .ok s ∧ ∀ x, x ∈ s ↔ P x := by
  unfold mergedBlock at hblock
  split at hblock
  next fingerprint keyId hpacket =>
    have hdata : dearmored block =
        .ok (emittedSections pgp sections primary (lower fingerprint) (lower keyId) true) := by
      obtain ⟨-, hwritten⟩ := raiseIf_bind_eq_ok.1 hblock
      exact dearmored_armored harmor hwritten
    have hcertificate : Certificate primary
        (emittedFrames pgp sections primary (lower fingerprint) (lower keyId)) block :=
      ⟨by rw [hdata, ok_bind, emittedSections_eq, frames_framed]; rfl, h.primaryTag,
        fun f hf => (emittedFrames_clear pgp h.toFormed _ _ f hf).1⟩
    refine ⟨⟨_, hcertificate⟩, fun x => ?_, ?_⟩
    · rw [hcertificate.placed, mem_placeFrames_emitted pgp h.toFormed, h.places]
    · obtain ⟨-, s, hs, hmem⟩ := fragmentPlacements_emitted pgp h.toFormed (lower fingerprint) (lower keyId)
      refine ⟨s, by rw [certificatePlacements, hdata, ok_bind, hs], fun x => ?_⟩
      rw [hmem, h.places]
  · cases hblock
  · cases hblock

end Blocks

/-! ### Two blocks of a certificate -/

/-- The block of some frames after the primary. -/
def sampleBlock (rest : List Frame) : Str := lineArmor ((samplePrimary :: rest).flatMap framed) true

private theorem sampleBlock_certificate {rest : List Frame} (h : ∀ f ∈ rest, f.tag ≠ primaryKeyTag) :
    Certificate samplePrimary rest (sampleBlock rest) where
  frames := by rw [sampleBlock, lineArmor_lawful, ok_bind, frames_framed]
  primaryTag := rfl
  single := h

end Pgp

end TrustedReleases
