import TrustedReleases.Pgp.Placements

/-!
# Canonical fragments

Sections are written in an order that is determined by their heads and frames alone (`emittedSections_congr`), and
what is written for well-formed sections is read as their placements (`fragmentPlacements_emitted`).
-/

namespace TrustedReleases

open Lib

namespace Pgp

variable {pgp : OpenPgp}

/-! ### Attachments -/

private theorem parsedSignature_tag {f : Frame} {s : Signature} (h : parsedSignature pgp f = some s) :
    f.tag = signatureTag := by
  unfold parsedSignature at h
  split at h
  · assumption
  · cases h

/-- The signatures among attached frames. -/
private theorem mem_signatures {attached : List Frame} {p : Frame × Signature} :
    (p ∈ attached.filterMap fun f => (parsedSignature pgp f).map fun s => (f, s)) ↔
      p.1 ∈ attached ∧ parsedSignature pgp p.1 = some p.2 := by
  rw [List.mem_filterMap]
  constructor
  · rintro ⟨f, hf, hp⟩
    obtain ⟨s, hs, rfl⟩ := Option.map_eq_some_iff.1 hp
    exact ⟨hf, hs⟩
  · rintro ⟨hf, hs⟩
    exact ⟨p.1, hf, by rw [hs]; rfl⟩

/-- Ordering attachments keeps them all. -/
private theorem mem_orderedAttachments {head : Frame} {attached : List Frame} {f : Frame} :
    f ∈ orderedAttachments pgp head attached ↔ f ∈ attached := by
  unfold orderedAttachments
  rw [List.mem_append, mem_orderBy, List.mem_filter, List.mem_map]
  have hordered : ∀ p, (p ∈ if head.tag = primaryKeyTag then
      orderBy signatureOrder ((attached.filterMap fun f => (parsedSignature pgp f).map fun s => (f, s)).filter
        fun p => decide (p.2.typ = some keyRevocationSignatureType)) ++
      orderBy signatureOrder ((attached.filterMap fun f => (parsedSignature pgp f).map fun s => (f, s)).filter
        fun p => decide (p.2.typ ≠ some keyRevocationSignatureType))
      else orderBy signatureOrder (attached.filterMap fun f => (parsedSignature pgp f).map fun s => (f, s))) ↔
      p.1 ∈ attached ∧ parsedSignature pgp p.1 = some p.2 := by
    intro p
    rw [← mem_signatures]
    split
    · rw [List.mem_append, mem_orderBy, mem_orderBy, List.mem_filter, List.mem_filter, ← and_or_left]
      simp [em]
    · rw [mem_orderBy]
  constructor
  · rintro (⟨p, hp, rfl⟩ | ⟨hf, -⟩)
    · exact ((hordered p).1 hp).1
    · exact hf
  · intro hf
    cases hs : parsedSignature pgp f with
    | some s => exact .inl ⟨(f, s), (hordered (f, s)).2 ⟨hf, hs⟩, rfl⟩
    | none => exact .inr ⟨hf, by simp⟩

/-- The keys of signatures tell them apart. -/
private theorem signatureOrder_inj (pgp : OpenPgp) (attached : List Frame) :
    ∀ p ∈ attached.filterMap fun f => (parsedSignature pgp f).map fun s => (f, s),
      ∀ p' ∈ attached.filterMap fun f => (parsedSignature pgp f).map fun s => (f, s),
        signatureOrder p = signatureOrder p' → p = p' := by
  intro p hp p' hp' heq
  have hs := (mem_signatures.1 hp).2
  have hs' := (mem_signatures.1 hp').2
  have hbody : p.1.body = p'.1.body := congrArg (fun k => (ofLex (ofLex k).2).2) heq
  have htag : p.1.tag = p'.1.tag := (parsedSignature_tag hs).trans (parsedSignature_tag hs').symm
  have hframe : p.1 = p'.1 := Frame.ext htag hbody
  rw [hframe] at hs
  exact Prod.ext hframe (Option.some.inj (hs.symm.trans hs'))

theorem opaqueOrder_inj (f f' : Frame) (h : opaqueOrder f = opaqueOrder f') : f = f' :=
  Frame.ext (congrArg (fun k => (ofLex k).1) h) (congrArg (fun k => (ofLex k).2) h)

/-- The order of attachments does not depend on the order in which they are given. -/
private theorem orderedAttachments_congr (head : Frame) {attached attached' : List Frame}
    (h : attached.Perm attached') :
    orderedAttachments pgp head attached = orderedAttachments pgp head attached' := by
  have hsignatures := h.filterMap fun f => (parsedSignature pgp f).map fun s => (f, s)
  have hinj := signatureOrder_inj pgp attached
  have hfilter : ∀ q : Frame × Signature → Bool,
      orderBy signatureOrder ((attached.filterMap fun f => (parsedSignature pgp f).map fun s => (f, s)).filter q) =
        orderBy signatureOrder ((attached'.filterMap fun f => (parsedSignature pgp f).map fun s => (f, s)).filter q) :=
    fun q => orderBy_congr (hsignatures.filter q) fun p hp p' hp' heq =>
      hinj p (List.mem_of_mem_filter hp) p' (List.mem_of_mem_filter hp') heq
  unfold orderedAttachments
  simp only [hfilter, orderBy_congr hsignatures hinj,
    orderBy_congr (h.filter fun f => (parsedSignature pgp f).isNone) fun f _ f' _ heq => opaqueOrder_inj f f' heq]

/-! ### Sections -/

private theorem earliestSelfCertification_congr {attached attached' : List Frame} (h : attached.Perm attached')
    (fingerprint keyId : Str) :
    earliestSelfCertification pgp attached fingerprint keyId =
      earliestSelfCertification pgp attached' fingerprint keyId := by
  unfold earliestSelfCertification
  have hcreated := h.filterMap fun f => (parsedSignature pgp f).bind fun s =>
    if s.typ.any (fun typ => decide (typ ∈ certificationSignatureTypes)) ∧ signatureIsSelf s fingerprint keyId then
      some (s.created.getD 0)
    else none
  have hmin : ∀ {l l' : List Nat}, l.Perm l' → l.min? = l'.min? := by
    intro l l' hl
    cases hm : l'.min? with
    | none =>
      rw [List.min?_eq_none_iff] at hm ⊢
      subst hm
      exact List.perm_nil.1 hl
    | some m =>
      rw [List.min?_eq_some_iff] at hm ⊢
      exact ⟨hl.mem_iff.2 hm.1, fun x hx => hm.2 x (hl.mem_iff.1 hx)⟩
  simp only [hmin hcreated]

private theorem sectionOrder_congr (head : Frame) {attached attached' : List Frame} (h : attached.Perm attached')
    (fingerprint keyId : Str) :
    sectionOrder pgp head attached fingerprint keyId = sectionOrder pgp head attached' fingerprint keyId := by
  unfold sectionOrder
  rw [earliestSelfCertification_congr h]

private theorem sectionOrder_body (head : Frame) (attached : List Frame) (fingerprint keyId : Str) :
    (ofLex (sectionOrder pgp head attached fingerprint keyId)).2 = head.body := by
  unfold sectionOrder
  split
  · rfl
  · split <;> rfl

theorem attached_set (sections : Sections) (head : Frame) (fs : List Frame) (h : Frame) :
    Sections.attached (Dict.set sections head fs) h = if h = head then fs else sections.attached h := by
  simp only [Sections.attached, Dict.get_set]
  split <;> rfl

/-- The same sections, whatever the order of the heads and of the frames of each. -/
structure Sections.Same (sections sections' : Sections) : Prop where
  heads : sections.keys.Perm sections'.keys
  attached : ∀ head, (sections.attached head).Perm (sections'.attached head)

private theorem sectionHeads_congr {sections sections' : Sections} (h : sections.Same sections')
    (fingerprint keyId : Str)
    (tag : Fin 64) :
    sectionHeads pgp sections fingerprint keyId tag = sectionHeads pgp sections' fingerprint keyId tag := by
  unfold sectionHeads
  have hkey : (fun head => sectionOrder pgp head (sections.attached head) fingerprint keyId) =
      fun head => sectionOrder pgp head (sections'.attached head) fingerprint keyId :=
    funext fun head => sectionOrder_congr head (h.attached head) fingerprint keyId
  rw [hkey]
  refine orderBy_congr (h.heads.filter _) fun a ha b hb heq => ?_
  have htag : a.tag = b.tag :=
    (of_decide_eq_true (List.mem_filter.1 ha).2).trans (of_decide_eq_true (List.mem_filter.1 hb).2).symm
  have hbody := congrArg (fun k => (ofLex k).2) heq
  rw [sectionOrder_body, sectionOrder_body] at hbody
  exact Frame.ext htag hbody

/-- What is written is determined by the heads and their frames. -/
theorem emittedSections_congr {sections sections' : Sections} (h : sections.Same sections') (primary : Frame)
    (fingerprint keyId : Str) (withPrimary : Bool) :
    emittedSections pgp sections primary fingerprint keyId withPrimary =
      emittedSections pgp sections' primary fingerprint keyId withPrimary := by
  have hsection : ∀ head, emittedSection pgp head (sections.attached head) =
      emittedSection pgp head (sections'.attached head) := by
    intro head
    rw [emittedSection, emittedSection, orderedAttachments_congr head (h.attached head)]
  unfold emittedSections
  simp only [orderedAttachments_congr primary (h.attached primary), sectionHeads_congr h, hsection]

/-! ### Reading what was written -/

/-- The frames that are written. -/
def emittedFrames (pgp : OpenPgp) (sections : Sections) (primary : Frame) (fingerprint keyId : Str) : List Frame :=
  orderedAttachments pgp primary (sections.attached primary) ++
    (sectionTags.flatMap (sectionHeads pgp sections fingerprint keyId)).flatMap fun head =>
      head :: orderedAttachments pgp head (sections.attached head)

theorem emittedSections_eq (sections : Sections) (primary : Frame) (fingerprint keyId : Str) (withPrimary : Bool) :
    emittedSections pgp sections primary fingerprint keyId withPrimary =
      ((if withPrimary then [primary] else []) ++ emittedFrames pgp sections primary fingerprint keyId).flatMap framed := by
  simp only [emittedSections, emittedFrames, emittedSection, List.flatMap_append, List.append_assoc, List.flatMap_assoc]

private theorem mem_sectionHeads {sections : Sections} {fingerprint keyId : Str} {head : Frame} :
    head ∈ sectionTags.flatMap (sectionHeads pgp sections fingerprint keyId) ↔
      head ∈ sections.keys ∧ head.tag ∈ sectionTags := by
  rw [List.mem_flatMap]
  constructor
  · rintro ⟨tag, htag, hhead⟩
    have hmem := List.mem_filter.1 (mem_orderBy.1 hhead)
    have heq : head.tag = tag := of_decide_eq_true hmem.2
    exact ⟨hmem.1, heq ▸ htag⟩
  · rintro ⟨hkey, htag⟩
    exact ⟨head.tag, htag, mem_orderBy.2 (List.mem_filter.2 ⟨hkey, decide_eq_true rfl⟩)⟩

private theorem placeFrames_attached {head : Frame} {fs : List Frame} (h : ∀ f ∈ fs, f.tag ∉ sectionTags)
    (rest : List Frame) :
    placeFrames head (fs ++ rest) = fs.map (fun f => (head, some f)) ++ placeFrames head rest := by
  induction fs with
  | nil => rfl
  | cons f fs ih =>
    rw [List.forall_mem_cons] at h
    rw [List.cons_append, placeFrames, if_neg h.1, ih h.2]
    rfl

private theorem placeFrames_sections {heads : List Frame} {attached : Frame → List Frame}
    (hheads : ∀ head ∈ heads, head.tag ∈ sectionTags) (hattached : ∀ head, ∀ f ∈ attached head, f.tag ∉ sectionTags)
    (primary : Frame) :
    placeFrames primary (heads.flatMap fun head => head :: attached head) =
      heads.flatMap fun head => (head, none) :: (attached head).map fun f => (head, some f) := by
  induction heads generalizing primary with
  | nil => rfl
  | cons head heads ih =>
    rw [List.forall_mem_cons] at hheads
    rw [List.flatMap_cons, List.cons_append, placeFrames, if_pos hheads.1, placeFrames_attached (hattached head),
      ih hheads.2]
    rfl

/-- Sections whose heads are the primary and section heads, with attached frames that fragments may carry. -/
structure Sections.Formed (sections : Sections) (primary : Frame) : Prop where
  primaryTag : primary.tag = primaryKeyTag
  heads : ∀ head ∈ sections.keys, head = primary ∨ head.tag ∈ sectionTags
  attached : ∀ head, ∀ f ∈ sections.attached head,
    f.tag ∉ sectionTags ∧ f.tag ≠ primaryKeyTag ∧ f.tag ∉ skippablePacketTags

/-- The placements of sections without the primary by itself. -/
def Sections.Places (sections : Sections) (x : Placement) : Prop :=
  (x.2 = none ∧ x.1 ∈ sections.keys ∧ x.1.tag ∈ sectionTags) ∨ ∃ f ∈ sections.attached x.1, x.2 = some f

theorem Sections.mem_keys {sections : Sections} {head f : Frame} (h : f ∈ sections.attached head) :
    head ∈ sections.keys := by
  unfold Sections.attached at h
  cases hget : Dict.get sections head with
  | none =>
    rw [hget] at h
    cases h
  | some fs => exact Dict.mem_keys_of_get hget

theorem sectionTags_clear : ∀ tag ∈ sectionTags, tag ≠ primaryKeyTag ∧ tag ∉ skippablePacketTags := by decide

theorem primaryKeyTag_clear : primaryKeyTag ∉ sectionTags ∧ primaryKeyTag ∉ skippablePacketTags := by decide

variable {sections : Sections} {primary : Frame}

/-- The frames that are written may be carried by a fragment. -/
theorem emittedFrames_clear (pgp : OpenPgp) (h : sections.Formed primary) (fingerprint keyId : Str) :
    ∀ f ∈ emittedFrames pgp sections primary fingerprint keyId,
      f.tag ≠ primaryKeyTag ∧ f.tag ∉ skippablePacketTags := by
  intro f hf
  rcases List.mem_append.1 hf with hf | hf
  · exact (h.attached primary f (mem_orderedAttachments.1 hf)).2
  · obtain ⟨head, hhead, hf⟩ := List.mem_flatMap.1 hf
    rcases List.mem_cons.1 hf with rfl | hf
    · exact sectionTags_clear _ (mem_sectionHeads.1 hhead).2
    · exact (h.attached head f (mem_orderedAttachments.1 hf)).2

theorem mem_placeFrames_emitted (pgp : OpenPgp) (h : sections.Formed primary) (fingerprint keyId : Str) (x : Placement) :
    x ∈ placeFrames primary (emittedFrames pgp sections primary fingerprint keyId) ↔ sections.Places x := by
  have hattached : ∀ head, ∀ f ∈ orderedAttachments pgp head (sections.attached head), f.tag ∉ sectionTags :=
    fun head f hf => (h.attached head f (mem_orderedAttachments.1 hf)).1
  have hheads : ∀ head ∈ sectionTags.flatMap (sectionHeads pgp sections fingerprint keyId), head.tag ∈ sectionTags :=
    fun head hhead => (mem_sectionHeads.1 hhead).2
  rw [emittedFrames, placeFrames_attached (hattached primary),
    placeFrames_sections hheads hattached, List.mem_append, List.mem_map, List.mem_flatMap]
  constructor
  · rintro (⟨f, hf, rfl⟩ | ⟨head, hhead, hx⟩)
    · exact .inr ⟨f, mem_orderedAttachments.1 hf, rfl⟩
    · rcases List.mem_cons.1 hx with rfl | hx
      · exact .inl ⟨rfl, mem_sectionHeads.1 hhead⟩
      · obtain ⟨f, hf, rfl⟩ := List.mem_map.1 hx
        exact .inr ⟨f, mem_orderedAttachments.1 hf, rfl⟩
  · rcases x with ⟨head, frame⟩
    rintro (⟨rfl, hkey, htag⟩ | ⟨f, hf, rfl⟩)
    · exact .inr ⟨head, mem_sectionHeads.2 ⟨hkey, htag⟩, List.mem_cons_self⟩
    · rcases h.heads head (Sections.mem_keys hf) with rfl | htag
      · exact .inl ⟨f, mem_orderedAttachments.2 hf, rfl⟩
      · refine .inr ⟨head, mem_sectionHeads.2 ⟨Sections.mem_keys hf, htag⟩, List.mem_cons_of_mem _ ?_⟩
        exact List.mem_map.2 ⟨f, mem_orderedAttachments.2 hf, rfl⟩

/-- What is written for well-formed sections is read as their placements, with or without the primary. -/
theorem fragmentPlacements_emitted (pgp : OpenPgp) (h : sections.Formed primary) (fingerprint keyId : Str) :
    (∃ s, fragmentPlacements (emittedSections pgp sections primary fingerprint keyId false) (some primary) = .ok s ∧
      ∀ x, x ∈ s ↔ sections.Places x) ∧
    ∃ s, fragmentPlacements (emittedSections pgp sections primary fingerprint keyId true) none = .ok s ∧
      ∀ x, x ∈ s ↔ x = (primary, none) ∨ sections.Places x := by
  have hclear := emittedFrames_clear pgp h fingerprint keyId
  have hmem := mem_placeFrames_emitted pgp h fingerprint keyId
  constructor
  · refine ⟨(placeFrames primary (emittedFrames pgp sections primary fingerprint keyId)).toFinset, ?_, fun x => ?_⟩
    · rw [emittedSections_eq, fragmentPlacements, frames_framed, ok_bind, raiseIf_bind_eq_ok]
      refine ⟨?_, raiseIf_bind_eq_ok.2 ⟨?_, rfl⟩⟩
      · rintro ⟨f, hf, hskip⟩
        exact (hclear f hf).2 hskip
      · rintro ⟨f, hf, htag⟩
        exact (hclear f hf).1 htag
    · rw [List.mem_toFinset, hmem]
  · refine ⟨((primary, none) :: placeFrames primary (emittedFrames pgp sections primary fingerprint keyId)).toFinset,
      ?_, fun x => ?_⟩
    · rw [emittedSections_eq, fragmentPlacements, frames_framed, ok_bind, raiseIf_bind_eq_ok]
      refine ⟨?_, raiseIf_bind_eq_ok.2 ⟨not_not.2 h.primaryTag, raiseIf_bind_eq_ok.2 ⟨?_, rfl⟩⟩⟩
      · rintro ⟨f, hf, hskip⟩
        rcases List.mem_cons.1 hf with rfl | hf
        · rw [h.primaryTag] at hskip
          exact primaryKeyTag_clear.2 hskip
        · exact (hclear f hf).2 hskip
      · rintro ⟨f, hf, htag⟩
        exact (hclear f hf).1 htag
    · rw [List.mem_toFinset, List.mem_cons, hmem]

end Pgp

end TrustedReleases
