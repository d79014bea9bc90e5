import TrustedReleases.Pgp.Canonical

/-!
# Deltas of certificates

The difference of two certificates as two fragments, and its application (`apply_delta`, `delta_fragments`).  In the
deletions a head by itself stands for its whole section, and a head with frames for those frames only.  Applying the
delta of two states gives the second one (`applyDelta_deltaFragments`).
-/

namespace TrustedReleases

open Lib

namespace Pgp

variable {pgp : OpenPgp}

/-! ### Making and applying deltas -/

/-- `_fragment_or_none`. -/
def fragmentOrNone (pgp : OpenPgp) (order : Iteration) (placements : Finset Placement) (primary : Frame) :
    Except Error (Option Bytes) :=
  if placements = ∅ then .ok none
  else do
    let data ← fragmentBytes pgp order placements (some primary)
    return some data

/-- The primary keys by themselves. -/
def primaryPlacements (s : Finset Placement) : Finset Placement :=
  s.filter fun x => x.2 = none ∧ x.1.tag = primaryKeyTag

/-- The placements that `delta_fragments` writes as deletions. -/
def deletedPlacements (previous result : Finset Placement) (primary : Frame) : Finset Placement :=
  let removed := previous \ result
  let gone := (removed.filter fun x => x.2 = none).image (·.1)
  (removed.filter fun x => x.1 ∉ gone) ∪ (removed.filter fun x => x.1 ≠ primary).image fun x => (x.1, none)

/-- The placements that `delta_fragments` writes as additions. -/
def addedPlacements (previous result : Finset Placement) (primary : Frame) : Finset Placement :=
  let added := result \ previous
  added ∪ (added.filter fun x => x.1 ≠ primary).image fun x => (x.1, none)

/-- `delta_fragments`. -/
def deltaFragments (pgp : OpenPgp) (order : Iteration) (previous result : Finset Placement) :
    Except Error (Option Bytes × Option Bytes) := do
  let primaries := primaryPlacements (previous ∪ result)
  raiseIf (primaries.card ≠ 1) .noSharedPrimary
  let primary ← demand (order.list primaries).head? .noSharedPrimary
  let deletions ← fragmentOrNone pgp order (deletedPlacements previous result primary.1) primary.1
  let additions ← fragmentOrNone pgp order (addedPlacements previous result primary.1) primary.1
  return (deletions, additions)

/-- The placements of a fragment, if there is one. -/
def placementsOrNone (data : Option Bytes) (primary : Option Frame) : Except Error (Finset Placement) :=
  match data with
  | some data => fragmentPlacements data primary
  | none => .ok ∅

/-- The placements of a state that `apply_delta` keeps. -/
def keptPlacements (state removed : Finset Placement) : Finset Placement :=
  let attached := (removed.filter fun x => x.2 ≠ none).image fun x => x.1
  let bare := (removed.filter fun x => x.2 = none ∧ x.1 ∉ attached ∧ x.1.tag ≠ primaryKeyTag).image fun x => x.1
  state.filter fun x => x.1 ∉ bare ∧ (x.2 = none ∨ x ∉ removed)

/-- `apply_delta`. -/
def applyDelta (order : Iteration) (state : Finset Placement) (deletions additions : Option Bytes) :
    Except Error (Finset Placement) := do
  let primary := ((order.list state).find? fun x => decide (x.2 = none ∧ x.1.tag = primaryKeyTag)).map fun x => x.1
  let removed ← placementsOrNone deletions primary
  let added ← placementsOrNone additions primary
  return keptPlacements state removed ∪ added

/-- `fold_deltas`. -/
def foldDeltas (order : Iteration) (deltas : List (Option Bytes × Option Bytes)) : Except Error (Finset Placement) :=
  deltas.foldlM (fun state delta => applyDelta order state delta.1 delta.2) ∅

/-! ### Collecting sections -/

theorem sectionsOf_append (l : List Placement) (x : Placement) :
    sectionsOf (l ++ [x]) = Dict.set (sectionsOf l) x.1 ((sectionsOf l).attached x.1 ++ x.2.toList) := by
  simp only [sectionsOf, List.foldl_append, List.foldl_cons, List.foldl_nil]

/-- The collected heads. -/
theorem mem_keys_sectionsOf {l : List Placement} {head : Frame} :
    head ∈ (sectionsOf l).keys ↔ ∃ frame, (head, frame) ∈ l := by
  induction l using List.reverseRecOn with
  | nil => simp [sectionsOf]
  | append_singleton l x ih =>
    rw [sectionsOf_append, Dict.mem_keys, Dict.get_set]
    by_cases hx : head = x.1
    · rw [if_pos hx]
      exact ⟨fun _ => ⟨x.2, by simp [hx]⟩, fun _ => rfl⟩
    · rw [if_neg hx, ← Dict.mem_keys, ih]
      refine exists_congr fun frame => ?_
      rw [List.mem_append, List.mem_singleton]
      constructor
      · exact .inl
      · rintro (hmem | rfl)
        · exact hmem
        · exact absurd rfl hx

/-- The frames that are collected under a head. -/
theorem mem_attached_sectionsOf {l : List Placement} {head f : Frame} :
    f ∈ (sectionsOf l).attached head ↔ (head, some f) ∈ l := by
  induction l using List.reverseRecOn with
  | nil => simp [sectionsOf, Sections.attached]
  | append_singleton l x ih =>
    rw [sectionsOf_append, attached_set, List.mem_append, List.mem_singleton]
    by_cases hx : head = x.1
    · rw [if_pos hx, List.mem_append, ← hx, ih, Option.mem_toList]
      refine or_congr_right ⟨fun h => ?_, fun h => ?_⟩
      · rw [hx, ← Option.mem_def.1 h]
      · exact (congrArg Prod.snd h).symm
    · rw [if_neg hx, ih]
      constructor
      · exact .inl
      · rintro (hmem | heq)
        · exact hmem
        · exact absurd (congrArg Prod.fst heq) hx

/-! ### Fragments -/

/-- Placements that a fragment can carry: every head but the primary stands there by itself too. -/
structure Fragment (primary : Frame) (s : Finset Placement) : Prop where
  primaryTag : primary.tag = primaryKeyTag
  heads : ∀ x ∈ s, x.1 = primary ∨ (x.1.tag ∈ sectionTags ∧ (x.1, none) ∈ s)
  attached : ∀ x ∈ s, ∀ f ∈ x.2, f.tag ∉ sectionTags ∧ f.tag ≠ primaryKeyTag ∧ f.tag ∉ skippablePacketTags

theorem Fragment.formed {primary : Frame} {s : Finset Placement} (h : Fragment primary s) (order : Iteration) :
    (sectionsOf (order.list s)).Formed primary where
  primaryTag := h.primaryTag
  heads := by
    intro head hhead
    obtain ⟨frame, hmem⟩ := mem_keys_sectionsOf.1 hhead
    rcases h.heads _ ((order.mem s _).1 hmem) with heq | ⟨htag, -⟩
    · exact .inl heq
    · exact .inr htag
  attached := fun head f hf => h.attached (head, some f) ((order.mem s _).1 (mem_attached_sectionsOf.1 hf)) f rfl

theorem Fragment.places {primary : Frame} {s : Finset Placement} (h : Fragment primary s) (order : Iteration)
    (x : Placement) :
    (sectionsOf (order.list s)).Places x ↔ x ∈ s ∧ x ≠ (primary, none) := by
  rcases x with ⟨head, frame⟩
  have hprimary : primary.tag ∉ sectionTags := by
    rw [h.primaryTag]
    exact primaryKeyTag_clear.1
  constructor
  · rintro (⟨hnone, hhead, htag⟩ | ⟨f, hf, hsome⟩)
    · obtain ⟨frame', hmem⟩ := mem_keys_sectionsOf.1 hhead
      have hne : head ≠ primary := by
        rintro rfl
        exact hprimary htag
      obtain rfl : frame = none := hnone
      refine ⟨((h.heads _ ((order.mem s _).1 hmem)).resolve_left hne).2, fun heq => hne (congrArg Prod.fst heq)⟩
    · obtain rfl : frame = some f := hsome
      exact ⟨(order.mem s _).1 (mem_attached_sectionsOf.1 hf), by simp⟩
  · rintro ⟨hmem, hne⟩
    have hlist := (order.mem s _).2 hmem
    cases frame with
    | none =>
      have hhead : head ≠ primary := by
        rintro rfl
        exact hne rfl
      exact .inl ⟨rfl, mem_keys_sectionsOf.2 ⟨none, hlist⟩, ((h.heads _ hmem).resolve_left hhead).1⟩
    | some f => exact .inr ⟨f, mem_attached_sectionsOf.2 hlist, rfl⟩

/-- A fragment is read back, without the primary if it does not carry it. -/
private theorem Fragment.roundTrip {primary : Frame} {s : Finset Placement} (h : Fragment primary s) (order : Iteration)
    {fingerprint keyId : Str}
    (hpacket : pgp.packet (framed primary) = some (.publicKey fingerprint keyId)) :
    ∃ data, fragmentBytes pgp order s (some primary) = .ok data ∧
      ((primary, none) ∉ s → fragmentPlacements data (some primary) = .ok s) ∧
      ((primary, none) ∈ s → fragmentPlacements data none = .ok s) := by
  have hformed : (sectionsOf (order.list s)).Formed primary := h.formed order
  obtain ⟨⟨without, hwithout, hmem⟩, withPrimary, hwith, hmem'⟩ :=
    fragmentPlacements_emitted pgp hformed (lower fingerprint) (lower keyId)
  have hothers : ¬ ∃ head ∈ (sectionsOf (order.list s)).keys.filter fun head => decide (head.tag = primaryKeyTag),
      head ≠ primary := by
    rintro ⟨head, hhead, hne⟩
    obtain ⟨hkey, htag⟩ := List.mem_filter.1 hhead
    have hsection := (hformed.heads head hkey).resolve_left hne
    exact (sectionTags_clear _ hsection).1 (of_decide_eq_true htag)
  refine ⟨emittedSections pgp (sectionsOf (order.list s)) primary (lower fingerprint) (lower keyId)
    (decide ((primary, none) ∈ s)), ?_, fun hnot => ?_, fun hin => ?_⟩
  · simp only [fragmentBytes, ok_bind]
    exact raiseIf_bind_eq_ok.2 ⟨hothers, by simp only [hpacket, pure_eq_ok]⟩
  · have hsame : without = s := by
      ext x
      rw [hmem, h.places order]
      exact ⟨fun hx => hx.1, fun hx => ⟨hx, fun heq => hnot (heq ▸ hx)⟩⟩
    rw [decide_eq_false hnot, hwithout, hsame]
  · have hsame : withPrimary = s := by
      ext x
      rw [hmem', h.places order]
      constructor
      · rintro (rfl | hx)
        · exact hin
        · exact hx.1
      · intro hx
        by_cases heq : x = (primary, none)
        · exact .inl heq
        · exact .inr ⟨hx, heq⟩
    rw [decide_eq_true hin, hwith, hsame]

/-! ### Deltas -/

/-- A well-formed state with a primary key, the only one. -/
structure State (primary : Frame) (s : Finset Placement) : Prop extends Fragment primary s where
  holds : (primary, none) ∈ s

theorem State.head {primary : Frame} {s : Finset Placement} (h : State primary s) {head : Frame} {frame : Option Frame}
    (hmem : (head, frame) ∈ s) : (head, none) ∈ s := by
  rcases h.heads _ hmem with heq | ⟨-, hhead⟩
  · have heq' : head = primary := heq
    rw [heq']
    exact h.holds
  · exact hhead

private theorem mem_addedPlacements {previous result : Finset Placement} {primary : Frame} {x : Placement} :
    x ∈ addedPlacements previous result primary ↔ (x ∈ result ∧ x ∉ previous) ∨
      (x.2 = none ∧ x.1 ≠ primary ∧ ∃ frame, (x.1, frame) ∈ result ∧ (x.1, frame) ∉ previous) := by
  simp only [addedPlacements, Finset.mem_union, Finset.mem_sdiff, Finset.mem_image, Finset.mem_filter]
  refine or_congr_right ⟨?_, ?_⟩
  · rintro ⟨y, ⟨hy, hne⟩, rfl⟩
    exact ⟨rfl, hne, y.2, hy⟩
  · rintro ⟨hnone, hne, frame, hmem⟩
    exact ⟨(x.1, frame), ⟨hmem, hne⟩, Prod.ext rfl hnone.symm⟩

private theorem mem_deletedPlacements {previous result : Finset Placement} {primary : Frame} {x : Placement} :
    x ∈ deletedPlacements previous result primary ↔
      (x ∈ previous ∧ x ∉ result ∧ ((x.1, none) ∈ previous → (x.1, none) ∈ result)) ∨
      (x.2 = none ∧ x.1 ≠ primary ∧ ∃ frame, (x.1, frame) ∈ previous ∧ (x.1, frame) ∉ result) := by
  simp only [deletedPlacements, Finset.mem_union, Finset.mem_sdiff, Finset.mem_image, Finset.mem_filter]
  refine or_congr ?_ ⟨?_, ?_⟩
  · rw [and_assoc]
    refine and_congr_right fun _ => and_congr_right fun _ => ⟨fun h hprevious => ?_, ?_⟩
    · by_contra hresult
      exact h ⟨(x.1, none), ⟨⟨hprevious, hresult⟩, rfl⟩, rfl⟩
    · rintro h ⟨⟨head, frame⟩, ⟨⟨hprevious, hresult⟩, hnone⟩, hhead⟩
      have hframe : frame = none := hnone
      have heq : head = x.1 := hhead
      subst hframe heq
      exact hresult (h hprevious)
  · rintro ⟨y, ⟨hy, hne⟩, rfl⟩
    exact ⟨rfl, hne, y.2, hy⟩
  · rintro ⟨hnone, hne, frame, hmem⟩
    exact ⟨(x.1, frame), ⟨hmem, hne⟩, Prod.ext rfl hnone.symm⟩

section Step

variable {primary : Frame} {previous result : Finset Placement}

private theorem addedPlacements_subset (hresult : State primary result) {x : Placement}
    (hx : x ∈ addedPlacements previous result primary) : x ∈ result := by
  rcases x with ⟨head, frame⟩
  rcases mem_addedPlacements.1 hx with ⟨hmem, -⟩ | ⟨hnone, -, frame', hmem, -⟩
  · exact hmem
  · have hframe : frame = none := hnone
    rw [hframe]
    exact hresult.head hmem

private theorem addedPlacements_fragment (previous : Finset Placement) (hresult : State primary result) :
    Fragment primary (addedPlacements previous result primary) where
  primaryTag := hresult.primaryTag
  heads := by
    rintro ⟨head, frame⟩ hx
    rcases hresult.heads _ (addedPlacements_subset hresult hx) with heq | ⟨htag, -⟩
    · exact .inl heq
    · refine .inr ⟨htag, ?_⟩
      by_cases hhead : head = primary
      · rw [hhead, hresult.primaryTag] at htag
        exact absurd htag primaryKeyTag_clear.1
      · rcases mem_addedPlacements.1 hx with hnew | ⟨-, -, frame', hnew⟩
        · exact mem_addedPlacements.2 (.inr ⟨rfl, hhead, frame, hnew⟩)
        · exact mem_addedPlacements.2 (.inr ⟨rfl, hhead, frame', hnew⟩)
  attached := fun x hx => hresult.attached x (addedPlacements_subset hresult hx)

private theorem deletedPlacements_subset (hprevious : State primary previous) {x : Placement}
    (hx : x ∈ deletedPlacements previous result primary) : x ∈ previous := by
  rcases x with ⟨head, frame⟩
  rcases mem_deletedPlacements.1 hx with ⟨hmem, -⟩ | ⟨hnone, -, frame', hmem, -⟩
  · exact hmem
  · have hframe : frame = none := hnone
    rw [hframe]
    exact hprevious.head hmem

private theorem deletedPlacements_fragment (hprevious : State primary previous) (result : Finset Placement) :
    Fragment primary (deletedPlacements previous result primary) where
  primaryTag := hprevious.primaryTag
  heads := by
    rintro ⟨head, frame⟩ hx
    rcases hprevious.heads _ (deletedPlacements_subset hprevious hx) with heq | ⟨htag, -⟩
    · exact .inl heq
    · refine .inr ⟨htag, ?_⟩
      by_cases hhead : head = primary
      · rw [hhead, hprevious.primaryTag] at htag
        exact absurd htag primaryKeyTag_clear.1
      · rcases mem_deletedPlacements.1 hx with ⟨hold, hgone, -⟩ | ⟨-, -, frame', hold⟩
        · exact mem_deletedPlacements.2 (.inr ⟨rfl, hhead, frame, hold, hgone⟩)
        · exact mem_deletedPlacements.2 (.inr ⟨rfl, hhead, frame', hold⟩)
  attached := fun x hx => hprevious.attached x (deletedPlacements_subset hprevious hx)

/-- The deletions by themselves stand for the removed sections, and what is kept is in both states. -/
private theorem mem_keptPlacements (hprevious : State primary previous) (hresult : State primary result)
    {x : Placement} :
    x ∈ keptPlacements previous (deletedPlacements previous result primary) ↔ x ∈ previous ∧ x ∈ result := by
  rcases x with ⟨head, frame⟩
  -- the heads that `apply_delta` takes for removed sections are those whose sections were removed
  have hbare : head ∈ ((deletedPlacements previous result primary).filter fun x => x.2 = none ∧
      x.1 ∉ ((deletedPlacements previous result primary).filter fun x => x.2 ≠ none).image (fun x => x.1) ∧
      x.1.tag ≠ primaryKeyTag).image (fun x => x.1) ↔ (head, none) ∈ previous ∧ (head, none) ∉ result := by
    simp only [Finset.mem_image, Finset.mem_filter, not_exists, not_and]
    constructor
    · rintro ⟨⟨head', frame'⟩, ⟨hmem, hnone, hunattached, htag⟩, hhead⟩
      have heq : head' = head := hhead
      have hframe : frame' = none := hnone
      subst heq hframe
      have hold := deletedPlacements_subset hprevious hmem
      refine ⟨hold, fun hkept => ?_⟩
      rcases mem_deletedPlacements.1 hmem with ⟨-, hgone, -⟩ | ⟨-, -, frame'', hold', hgone'⟩
      · exact hgone hkept
      · have hsome : frame'' ≠ none := by
          rintro rfl
          exact hgone' hkept
        exact hunattached (head', frame'') ⟨mem_deletedPlacements.2 (.inl ⟨hold', hgone', fun _ => hkept⟩), hsome⟩ rfl
    · rintro ⟨hold, hgone⟩
      have hne : head ≠ primary := by
        rintro rfl
        exact hgone hresult.holds
      have htag := ((hprevious.heads _ hold).resolve_left hne).1
      refine ⟨(head, none), ⟨mem_deletedPlacements.2 (.inr ⟨rfl, hne, none, hold, hgone⟩), rfl, ?_,
        (sectionTags_clear _ htag).1⟩, rfl⟩
      rintro ⟨head', frame'⟩ ⟨hmem, hsome⟩ hhead
      have heq : head' = head := hhead
      subst heq
      rcases mem_deletedPlacements.1 hmem with ⟨-, -, hkept⟩ | ⟨hnone, -⟩
      · exact hgone (hkept hold)
      · exact hsome hnone
  rw [keptPlacements, Finset.mem_filter]
  refine and_congr_right fun hmem => ?_
  rw [hbare]
  constructor
  · rintro ⟨hhead, hframe⟩
    have hkept : (head, none) ∈ result := by
      by_contra hgone
      exact hhead ⟨hprevious.head hmem, hgone⟩
    rcases hframe with hnone | hnot
    · have heq : frame = none := hnone
      rwa [heq]
    · by_contra hgone
      exact hnot (mem_deletedPlacements.2 (.inl ⟨hmem, hgone, fun _ => hkept⟩))
  · intro hkept
    refine ⟨fun h => h.2 (hresult.head hkept), ?_⟩
    by_cases hnone : frame = none
    · exact .inl hnone
    · refine .inr fun hdeleted => ?_
      rcases mem_deletedPlacements.1 hdeleted with ⟨-, hgone, -⟩ | ⟨hframe, -⟩
      · exact hgone hkept
      · exact hnone hframe

private theorem Iteration.list_singleton (order : Iteration) (x : Placement) : order.list {x} = [x] := by
  have hperm : (order.list {x}).Perm [x] := by
    refine (List.perm_ext_iff_of_nodup (order.nodup _) (List.nodup_singleton x)).2 fun y => ?_
    rw [order.mem, Finset.mem_singleton, List.mem_singleton]
  exact List.perm_singleton.1 hperm

private theorem fragmentOrNone_roundTrip {s : Finset Placement} (h : Fragment primary s) (order : Iteration)
    {fingerprint keyId : Str}
    (hpacket : pgp.packet (framed primary) = some (.publicKey fingerprint keyId)) :
    ∃ data, fragmentOrNone pgp order s primary = .ok data ∧
      ((primary, none) ∉ s → placementsOrNone data (some primary) = .ok s) ∧
      ((primary, none) ∈ s → placementsOrNone data none = .ok s) ∧ (s = ∅ → data = none) := by
  unfold fragmentOrNone
  by_cases hempty : s = ∅
  · rw [if_pos hempty]
    subst hempty
    exact ⟨none, rfl, fun _ => rfl, fun _ => rfl, fun _ => rfl⟩
  · rw [if_neg hempty]
    obtain ⟨data, hdata, hwithout, hwith⟩ := h.roundTrip order hpacket
    exact ⟨some data, by rw [hdata]; rfl, hwithout, hwith, fun h => absurd h hempty⟩

/-- The delta of two states of one primary key, or of a first state, leads from the one to the other. -/
theorem delta_step (order : Iteration) (hprevious : State primary previous ∨ previous = ∅) (hresult : State primary result)
    {fingerprint keyId : Str} (hpacket : pgp.packet (framed primary) = some (.publicKey fingerprint keyId)) :
    ∃ delta, deltaFragments pgp order previous result = .ok delta ∧
      applyDelta order previous delta.1 delta.2 = .ok result := by
  have hprimaries : primaryPlacements (previous ∪ result) = {(primary, none)} := by
    ext ⟨head, frame⟩
    simp only [primaryPlacements, Finset.mem_filter, Finset.mem_union, Finset.mem_singleton, Prod.mk.injEq]
    constructor
    · rintro ⟨hmem, hnone, htag⟩
      refine ⟨?_, hnone⟩
      have hhead : ∀ {s}, State primary s → (head, frame) ∈ s → head = primary := by
        intro s hs hmem
        rcases hs.heads _ hmem with heq | ⟨hsection, -⟩
        · exact heq
        · exact absurd htag (sectionTags_clear _ hsection).1
      rcases hmem with hmem | hmem
      · rcases hprevious with hprevious | rfl
        · exact hhead hprevious hmem
        · simp at hmem
      · exact hhead hresult hmem
    · rintro ⟨rfl, rfl⟩
      exact ⟨.inr hresult.holds, rfl, hresult.primaryTag⟩
  obtain ⟨additions, hadditions, hwithout, hwith, -⟩ :=
    fragmentOrNone_roundTrip (addedPlacements_fragment previous hresult) order hpacket
  rcases hprevious with hprevious | rfl
  · obtain ⟨deletions, hdeletions, hremoved, -, -⟩ :=
      fragmentOrNone_roundTrip (deletedPlacements_fragment hprevious result) order hpacket
    refine ⟨(deletions, additions), ?_, ?_⟩
    · unfold deltaFragments
      simp only [hprimaries, order.list_singleton, Finset.card_singleton, ne_eq, not_true_eq_false, List.head?_cons,
        hdeletions, hadditions, raiseIf, if_false, demand, ok_bind, pure_eq_ok]
    · have hfind : ((order.list previous).find? fun x => decide (x.2 = none ∧ x.1.tag = primaryKeyTag)).map
          (fun x => x.1) = some primary := by
        cases hfound : (order.list previous).find? fun x => decide (x.2 = none ∧ x.1.tag = primaryKeyTag) with
        | none =>
          have hnot := List.find?_eq_none.1 hfound (primary, none) ((order.mem _ _).2 hprevious.holds)
          exact absurd (decide_eq_true ⟨rfl, hprevious.primaryTag⟩) hnot
        | some x =>
          have hdecided := List.find?_some hfound
          have htag := (of_decide_eq_true hdecided).2
          rcases hprevious.heads x ((order.mem _ _).1 (List.mem_of_find?_eq_some hfound)) with heq | ⟨hsection, -⟩
          · rw [Option.map_some, heq]
          · exact absurd htag (sectionTags_clear _ hsection).1
      have hnotAdded : (primary, none) ∉ addedPlacements previous result primary := by
        intro hmem
        rcases mem_addedPlacements.1 hmem with ⟨-, hnew⟩ | ⟨-, hne, -⟩
        · exact hnew hprevious.holds
        · exact hne rfl
      have hnotDeleted : (primary, none) ∉ deletedPlacements previous result primary := by
        intro hmem
        rcases mem_deletedPlacements.1 hmem with ⟨-, hgone, -⟩ | ⟨-, hne, -⟩
        · exact hgone hresult.holds
        · exact hne rfl
      unfold applyDelta
      simp only [hfind, hremoved hnotDeleted, hwithout hnotAdded, ok_bind, pure_eq_ok]
      refine congrArg Except.ok (Finset.ext fun x => ?_)
      rw [Finset.mem_union, mem_keptPlacements hprevious hresult]
      constructor
      · rintro (⟨-, hmem⟩ | hmem)
        · exact hmem
        · exact addedPlacements_subset hresult hmem
      · intro hmem
        by_cases hold : x ∈ previous
        · exact .inl ⟨hold, hmem⟩
        · exact .inr (mem_addedPlacements.2 (.inl ⟨hmem, hold⟩))
  · have hdeleted : deletedPlacements ∅ result primary = ∅ := by
      refine Finset.eq_empty_of_forall_notMem fun x hx => ?_
      rcases mem_deletedPlacements.1 hx with ⟨hmem, -⟩ | ⟨-, -, frame, hmem, -⟩
      · exact absurd hmem (Finset.notMem_empty x)
      · exact absurd hmem (Finset.notMem_empty _)
    have hdeletions : fragmentOrNone pgp order (deletedPlacements ∅ result primary) primary = .ok none := if_pos hdeleted
    have hlist : order.list ∅ = [] :=
      List.eq_nil_iff_forall_not_mem.2 fun x hx => Finset.notMem_empty x ((order.mem ∅ x).1 hx)
    have hadded : addedPlacements ∅ result primary = result := by
      ext x
      refine ⟨addedPlacements_subset hresult, fun hmem => mem_addedPlacements.2 (.inl ⟨hmem, Finset.notMem_empty x⟩)⟩
    rw [hadded] at hwith
    refine ⟨(none, additions), ?_, ?_⟩
    · unfold deltaFragments
      simp only [hprimaries, order.list_singleton, Finset.card_singleton, ne_eq, not_true_eq_false, List.head?_cons,
        hdeletions, hadditions, raiseIf, if_false, demand, ok_bind, pure_eq_ok]
    · unfold applyDelta
      simp only [hlist, List.find?_nil, Option.map_none, placementsOrNone, ok_bind]
      have hadditions' := hwith hresult.holds
      unfold placementsOrNone at hadditions'
      rw [hadditions', ok_bind, pure_eq_ok]
      simp [keptPlacements]

/-- Deltas of consecutive states lead from the one before the first to the last. -/
private theorem delta_steps (order : Iteration) {states : List (Finset Placement)}
    (hprevious : State primary previous ∨ previous = ∅)
    (hstates : ∀ s ∈ states, State primary s) {fingerprint keyId : Str}
    (hpacket : pgp.packet (framed primary) = some (.publicKey fingerprint keyId)) :
    ∃ deltas, ((previous :: states).zip states).mapM (fun x => deltaFragments pgp order x.1 x.2) = .ok deltas ∧
      deltas.foldlM (fun state delta => applyDelta order state delta.1 delta.2) previous =
        .ok (states.getLastD previous) := by
  induction states generalizing previous with
  | nil => exact ⟨[], rfl, rfl⟩
  | cons state states ih =>
    rw [List.forall_mem_cons] at hstates
    obtain ⟨delta, hdelta, happly⟩ := delta_step order hprevious hstates.1 hpacket
    obtain ⟨deltas, hdeltas, hfold⟩ := ih (.inl hstates.1) hstates.2
    refine ⟨delta :: deltas, ?_, ?_⟩
    · rw [List.zip_cons_cons, List.mapM_cons, hdelta, ok_bind, hdeltas, ok_bind]
      rfl
    · rw [List.foldlM_cons, happly, ok_bind, hfold, List.getLastD_cons]

end Step

/-- The round trip of deltas: the delta of two states of one primary key, or of the empty state and one, leads from the
one to the other, and the deltas of a sequence of states from the empty one fold to its last state. -/
theorem applyDelta_deltaFragments (order : Iteration) {primary : Frame} {fingerprint keyId : Str}
    (hpacket : pgp.packet (framed primary) = some (.publicKey fingerprint keyId)) :
    (∀ previous result, State primary previous ∨ previous = ∅ → State primary result →
      ∃ delta, deltaFragments pgp order previous result = .ok delta ∧
        applyDelta order previous delta.1 delta.2 = .ok result) ∧
    ∀ states : List (Finset Placement), (∀ s ∈ states, State primary s) →
      ∃ deltas, ((∅ :: states).zip states).mapM (fun x => deltaFragments pgp order x.1 x.2) = .ok deltas ∧
        foldDeltas order deltas = .ok (states.getLastD ∅) :=
  ⟨fun _ _ hprevious hresult => delta_step order hprevious hresult hpacket,
    fun _ hstates => delta_steps order (.inr rfl) hstates hpacket⟩

/-! ### A certificate with a user id -/

def placementKey (x : Placement) : (Fin 64 ×ₗ Bytes) ×ₗ WithBot (Fin 64 ×ₗ Bytes) :=
  toLex (opaqueOrder x.1, match x.2 with
    | none => ⊥
    | some f => (opaqueOrder f : Fin 64 ×ₗ Bytes))

theorem placementKey_inj {x y : Placement} (h : placementKey x = placementKey y) : x = y := by
  rcases x with ⟨head, _ | f⟩ <;> rcases y with ⟨head', _ | f'⟩ <;>
    simp only [placementKey, EmbeddingLike.apply_eq_iff_eq, Prod.mk.injEq, WithBot.bot_ne_coe, WithBot.coe_ne_bot,
      WithBot.coe_inj, and_false, and_true] at h
  · rw [opaqueOrder_inj _ _ h]
  · rw [opaqueOrder_inj _ _ h.1, opaqueOrder_inj _ _ h.2]

/-- Iteration in the order of the frames. -/
def sortedIteration : Iteration :=
  have : Std.Total fun x y => placementKey x ≤ placementKey y := ⟨fun _ _ => le_total _ _⟩
  have : Std.Antisymm fun x y => placementKey x ≤ placementKey y :=
    ⟨fun _ _ h h' => placementKey_inj (le_antisymm h h')⟩
  have : IsTrans Placement fun x y => placementKey x ≤ placementKey y := ⟨fun _ _ _ => le_trans⟩
  ⟨fun s => s.sort fun x y => placementKey x ≤ placementKey y, fun _ _ => Finset.mem_sort _,
    fun _ => Finset.sort_nodup _ _⟩

def samplePrimary : Frame := ⟨primaryKeyTag, [byte 4, byte 1], by decide⟩

def sampleUserId : Frame := ⟨userIdTag, ascii "alice".toList, by decide⟩

def sampleCertification : Frame := ⟨signatureTag, [byte 4, byte 19], by decide⟩

/-- A package that knows the primary key. -/
def samplePgp : OpenPgp where
  packet data := if data = framed samplePrimary then some (.publicKey "AB".toList "B".toList) else some .other
  certificate _ := true

def sampleState : Finset Placement :=
  {(samplePrimary, none), (sampleUserId, none), (sampleUserId, some sampleCertification)}

private theorem samplePgp_primary :
    samplePgp.packet (framed samplePrimary) = some (.publicKey "AB".toList "B".toList) := by
  simp [samplePgp]

/-- The deletion of the certification keeps the user id. -/
theorem applyDelta_deltaFragments_certification :
    ∃ delta, deltaFragments samplePgp sortedIteration sampleState
        (sampleState.erase (sampleUserId, some sampleCertification)) = .ok delta ∧
      applyDelta sortedIteration sampleState delta.1 delta.2 =
        .ok (sampleState.erase (sampleUserId, some sampleCertification)) :=
  (applyDelta_deltaFragments sortedIteration samplePgp_primary).1 sampleState _
    (.inl ⟨⟨rfl, by decide, by decide⟩, by decide⟩) ⟨⟨rfl, by decide, by decide⟩, by decide⟩

end Pgp

end TrustedReleases
