import TrustedReleases.Streaming.Walked

/-!
# The walk gives the inventory of the document

A document is rejected by the walk exactly where its tree is, and else its inventory is that of the components of the
tree, each taken after those nested in it (`sbom_settles`).
-/

namespace TrustedReleases

open Lib JsonTree

namespace Streaming

variable {δ : Type} {parse : Str → Option PackageUrl} {members : List (Str × JsonTree (Scalar δ))}
  {doc t t' : JsonTree (Scalar δ)} {name : Str} {depth : Nat}

/-! ### The document -/

/-- What has been declared and the components recorded so far, with one more member of the document. -/
def takeDeclaration (a : Dict Str (Scalar δ) × List (JsonTree (Scalar δ))) (m : Str × JsonTree (Scalar δ)) :
    Dict Str (Scalar δ) × List (JsonTree (Scalar δ)) :=
  if m.1 = "components".toList then (a.1, a.2 ++ componentsIn .ending m.2)
  else if m.1 = "bomFormat".toList ∨ m.1 = "specVersion".toList then
    ((scalarOf m.2).elim a.1 fun value => a.1.set m.1 value, a.2)
  else a

/-- What a member of the document is rejected for. -/
def badDeclaration (m : Str × JsonTree (Scalar δ)) : Prop :=
  (m.1 = "components".toList ∧ ((!isArray m.2) = true ∨ ∃ c ∈ componentsIn .ending m.2, badComponent c = true)) ∨
    (m.1 = "spdxVersion".toList ∧ ∃ s, scalarOf m.2 = some (.string s) ∧ s ≠ []) ∨
    (m.1 = "bomFormat".toList ∧ ∃ s, scalarOf m.2 = some (.string s) ∧ s ≠ "CycloneDX".toList)

/-- A scalar member of the document. -/
private theorem declare_settles {w : Walk δ} {value : Scalar δ} (hname : name ≠ "components".toList) :
    Settles Error.Rejects (badDeclaration (name, .scalar value))
      { w with declared := if name = "bomFormat".toList ∨ name = "specVersion".toList then w.declared.set name value
               else w.declared }
      (w.declare (some name) value) := by
  have hiff : badDeclaration (name, JsonTree.scalar value) ↔
      (name = "spdxVersion".toList ∧ ∃ s, value = .string s ∧ s ≠ []) ∨
        (name = "bomFormat".toList ∧ ∃ s, value = .string s ∧ s ≠ "CycloneDX".toList) := by
    unfold badDeclaration scalarOf
    simp only [hname, false_and, false_or, Option.some.injEq]
  cases value with
  | string s =>
    have hspdx := @Settles.raiseIf Error Error.Rejects (some name = some "spdxVersion".toList ∧ s ≠ []) _
      (.unsupported "SPDX JSON is not a CycloneDX SBOM" none) trivial
    have hbom := @Settles.raiseIf Error Error.Rejects (some name = some "bomFormat".toList ∧ s ≠ "CycloneDX".toList) _
      (.unsupported "Unsupported bomFormat %r" (some (s.take 80))) trivial
    refine (hspdx.bind fun _ => hbom.map (f := fun _ => Except.ok ({ w with
      declared := Walk.declare.setDeclared (some name) (.string s) w.declared } : Walk δ)) rfl).congr ?_
    rw [hiff]
    simp
  | null => exact .ok (by rw [hiff]; simp)
  | boolean b => exact .ok (by rw [hiff]; simp)
  | integer n => exact .ok (by rw [hiff]; simp)
  | decimal d => exact .ok (by rw [hiff]; simp)

private theorem takeDeclaration_of_ne {a : Dict Str (Scalar δ) × List (JsonTree (Scalar δ))}
    {m : Str × JsonTree (Scalar δ)}
    (hcomponents : m.1 ≠ "components".toList) : takeDeclaration a m =
      ((scalarOf m.2).elim a.1 fun value =>
        if m.1 = "bomFormat".toList ∨ m.1 = "specVersion".toList then a.1.set m.1 value else a.1, a.2) := by
  unfold takeDeclaration
  rw [if_neg hcomponents]
  by_cases hname : m.1 = "bomFormat".toList ∨ m.1 = "specVersion".toList
  · simp only [if_pos hname]
  · simp only [if_neg hname]
    cases scalarOf m.2 <;> rfl

section

variable {declared : Dict Str (Scalar δ)} {tally : Tally}

private theorem opened_empty : Opened (∅ : Dict Position (Component δ)) := by
  intro k hk
  rw [Dict.get_empty] at hk
  cases hk

private theorem feed_declaration {value : Scalar δ} (hcomponents : name ≠ "components".toList) :
    Walk.feed parse ⟨∅, declared, tally⟩ [some name] (.scalar value) =
      Walk.declare ⟨∅, declared, tally⟩ (some name) value := by
  have hlicense : [some name] ∈ LICENSE_SUFFIXES → (∅ : Dict Position (Component δ)).get [] = none :=
    fun _ => Dict.get_empty _
  have hfeed := @feed_scalar δ parse [] [some name] ⟨∅, declared, tally⟩ value rfl opened_empty
    (not_prefix_of_name hcomponents []) (List.cons_ne_nil _ _) (ne_componentsSuffix hcomponents []) hlicense
  exact hfeed.trans (if_pos rfl)

/-- A member of the document that is neither a scalar nor the components. -/
private theorem feedAll_undeclared (hcomponents : name ≠ "components".toList) (hscalar : scalarOf t = none) :
    feedAll (Walk.feed parse) ⟨∅, declared, tally⟩ (t.trace [some name]) = .ok ⟨∅, declared, tally⟩ := by
  refine @feedAll_ignored δ parse [] ⟨∅, declared, tally⟩ name t rfl opened_empty hcomponents
    (fun _ => Dict.get_empty _) ?_
  rintro value rfl
  cases hscalar

end

/-- A member of the document. -/
private theorem declaration_settles {a : Dict Str (Scalar δ) × List (JsonTree (Scalar δ))}
    {m : Str × JsonTree (Scalar δ)}
    (hread : Readable depth m.2) (hwithin : Within parse (takeDeclaration a m).2) :
    Settles Error.Rejects (badDeclaration m)
      ⟨∅, (takeDeclaration a m).1, tallyOf parse (takeDeclaration a m).2⟩
      (feedAll (Walk.feed parse) ⟨∅, a.1, tallyOf parse a.2⟩ (m.2.trace [some m.1])) := by
  obtain ⟨name, t⟩ := m
  by_cases hcomponents : name = "components".toList
  · have hspdx : name ≠ "spdxVersion".toList := by
      rw [hcomponents]
      decide
    have hbom : name ≠ "bomFormat".toList := by
      rw [hcomponents]
      decide
    have hposition : [some name] = [] ++ componentsSuffix := by
      rw [hcomponents]
      rfl
    have htake : takeDeclaration a (name, t) = (a.1, a.2 ++ componentsIn .ending t) := if_pos hcomponents
    rw [htake] at hwithin ⊢
    have habove : OpenedAbove ([] ++ componentSuffix) (∅ : Dict Position (Component δ)) := by
      intro k hk
      rw [Dict.get_empty] at hk
      cases hk
    have harray := @components_settles δ parse [] ∅ a.1 a.2 depth t (fun item hitem => (taken t).2 item hitem) hread rfl
      habove hwithin
    dsimp only
    rw [hposition]
    refine harray.congr ?_
    constructor
    · intro hbad
      exact Or.inl ⟨hcomponents, hbad⟩
    · rintro (⟨-, hbad⟩ | ⟨h, -⟩ | ⟨h, -⟩)
      · exact hbad
      · exact absurd h hspdx
      · exact absurd h hbom
  · rw [takeDeclaration_of_ne hcomponents]
    by_cases hscalar : scalarOf t = none
    · have hgood : ¬ badDeclaration (name, t) := by
        rintro (⟨h, -⟩ | ⟨-, s, h, -⟩ | ⟨-, s, h, -⟩)
        · exact hcomponents h
        · rw [hscalar] at h
          cases h
        · rw [hscalar] at h
          cases h
      dsimp only
      rw [feedAll_undeclared hcomponents hscalar, hscalar]
      exact .ok hgood
    · cases t with
      | scalar value =>
        dsimp only
        rw [trace, feedAll_cons, feed_declaration hcomponents]
        exact (declare_settles hcomponents).map rfl
      | array items => exact absurd rfl hscalar
      | object members => exact absurd rfl hscalar

/-! ### The end of the document -/

private theorem foldl_takeDeclaration_snd {a : Dict Str (Scalar δ) × List (JsonTree (Scalar δ))} :
    (members.foldl takeDeclaration a).2 = a.2 ++ componentsOfMembers .ending members := by
  induction members generalizing a with
  | nil => rw [componentsOfMembers, List.append_nil, List.foldl_nil]
  | cons m members ih =>
    obtain ⟨name, t⟩ := m
    rw [List.foldl_cons, ih, componentsOfMembers]
    unfold takeDeclaration
    dsimp only
    split_ifs <;> simp

/-- What has been declared at the end is what the document declares. -/
private theorem foldl_takeDeclaration_fst {cs : List (JsonTree (Scalar δ))} (hnodup : (members.map Prod.fst).Nodup)
    (hname : name = "bomFormat".toList ∨ name = "specVersion".toList) :
    (members.foldl takeDeclaration ((∅ : Dict Str (Scalar δ)), cs)).1.get name = scalarAt name (.object members) := by
  have hcomponents : name ≠ "components".toList := by
    rcases hname with rfl | rfl
    · decide
    · decide
  have hslot := @foldl_slot Str (JsonTree (Scalar δ)) (Dict Str (Scalar δ) × List (JsonTree (Scalar δ))) _ _ _ members
    name takeDeclaration (fun a => a.1.get name) scalarOf (∅, cs) hnodup
    (fun a m hm hmname hkept => by
      have hne : m.1 ≠ "components".toList := by rwa [hmname]
      rw [takeDeclaration_of_ne hne]
      cases hvalue : scalarOf m.2 with
      | none => exact hkept
      | some value =>
        dsimp only [Option.elim_some]
        rw [hmname, if_pos hname, Dict.get_set, if_pos rfl])
    (fun a m hmname => by
      by_cases hne : m.1 = "components".toList
      · have htake : takeDeclaration a m = (a.1, a.2 ++ componentsIn .ending m.2) := if_pos hne
        rw [htake]
      · rw [takeDeclaration_of_ne hne]
        cases hvalue : scalarOf m.2 with
        | none => rfl
        | some value =>
          dsimp only [Option.elim_some]
          split
          · rw [Dict.get_set, if_neg (Ne.symm hmname)]
          · rfl)
  rw [hslot]
  unfold scalarAt member
  dsimp only
  cases members.lookup name <;> rfl

private theorem cyclonedx_settles (value : Option (Scalar δ)) {e : Error} (he : e.Rejects) :
    Settles Error.Rejects (value ≠ some (.string "CycloneDX".toList)) ()
      (raiseIf ((value matches some (.string ['C', 'y', 'c', 'l', 'o', 'n', 'e', 'D', 'X'])) = false) e) := by
  refine (Settles.raiseIf he).congr ?_
  constructor
  · rintro h rfl
    cases h
  · intro h
    split
    · exact absurd rfl h
    · rfl

private theorem version_settles (value : Option (Scalar δ)) {e : Error} (he : e.Rejects) :
    Settles Error.Rejects (¬ ∃ s, value = some (.string s) ∧ s ≠ []) ()
      (raiseIf ((value matches some (.string (_ :: _))) = false) e) := by
  refine (Settles.raiseIf he).congr ?_
  constructor
  · rintro h ⟨s, rfl, hs⟩
    cases s with
    | nil => exact hs rfl
    | cons x s => cases h
  · intro h
    split
    · exact absurd ⟨_, rfl, List.cons_ne_nil _ _⟩ h
    · rfl

/-- The end of the document. -/
private theorem finish_settles (w : Walk δ) : Settles Error.Rejects
    (w.declared.get "bomFormat".toList ≠ some (.string "CycloneDX".toList) ∨
      ¬ ∃ s, w.declared.get "specVersion".toList = some (.string s) ∧ s ≠ [])
    ⟨w.tally.components, w.tally.files, w.tally.unidentified, sorted w.tally.purls, w.tally.licensed.values⟩
    w.finish := by
  have hformat := @cyclonedx_settles δ (w.declared.get "bomFormat".toList)
    (.malformed "Missing CycloneDX bomFormat" none) trivial
  have hversion := @version_settles δ (w.declared.get "specVersion".toList)
    (.malformed "Missing CycloneDX specVersion" none) trivial
  exact hformat.bind fun _ => hversion.map (f := fun _ => Except.ok (⟨w.tally.components, w.tally.files,
    w.tally.unidentified, sorted w.tally.purls, w.tally.licensed.values⟩ : Inventory)) rfl

private theorem getD_ne_nil_iff :
    (textAt name doc).getD [] ≠ [] ↔ ∃ s, scalarAt name doc = some (.string s) ∧ s ≠ [] := by
  constructor
  · intro h
    cases htext : textAt name doc with
    | none =>
      rw [htext] at h
      exact absurd rfl h
    | some text =>
      rw [htext] at h
      exact ⟨text, textAt_eq_some.1 htext, h⟩
  · rintro ⟨s, hs, hne⟩
    rw [textAt_eq_some.2 hs]
    exact hne

private theorem scalarAt_object (hnodup : (members.map Prod.fst).Nodup) {value : Scalar δ} :
    scalarAt name (.object members) = some value ↔ ∃ m ∈ members, m.1 = name ∧ scalarOf m.2 = some value := by
  unfold scalarAt
  rw [Option.bind_eq_some_iff]
  constructor
  · rintro ⟨t, ht, hvalue⟩
    exact ⟨(name, t), (lookup_eq_some_iff_mem hnodup).1 ht, rfl, hvalue⟩
  · rintro ⟨⟨n, t⟩, hm, rfl, hvalue⟩
    exact ⟨t, (lookup_eq_some_iff_mem hnodup).2 hm, hvalue⟩

/-- What an object is rejected for as a document. -/
private theorem rejected_iff (hread : Readable depth (.object members)) : rejected (.object members) = true ↔
    (∃ m ∈ members, badDeclaration m) ∨ scalarAt "bomFormat".toList (.object members) ≠ some (.string "CycloneDX".toList) ∨
      ¬ ∃ s, scalarAt "specVersion".toList (.object members) = some (.string s) ∧ s ≠ [] := by
  have hcomponents := @any_lookup_iff Str (JsonTree (Scalar δ)) _ _ members "components".toList
    (fun t => !isArray t) hread.nodup
  have hbelow : (componentsBelow .ending (.object members)).any badComponent = true ↔
      ∃ m ∈ members, m.1 = "components".toList ∧ ∃ c ∈ componentsIn .ending m.2, badComponent c = true := by
    rw [List.any_eq_true, exists_bad_below]
  have hparts : rejected (.object members) = true ↔
      (∃ m ∈ members, m.1 = "components".toList ∧ (!isArray m.2) = true) ∨
      (∃ m ∈ members, m.1 = "components".toList ∧ ∃ c ∈ componentsIn .ending m.2, badComponent c = true) ∨
      scalarAt "bomFormat".toList (.object members) ≠ some (.string "CycloneDX".toList) ∨
      (¬ ∃ s, scalarAt "specVersion".toList (.object members) = some (.string s) ∧ s ≠ []) ∨
      ∃ s, scalarAt "spdxVersion".toList (.object members) = some (.string s) ∧ s ≠ [] := by
    rw [← hcomponents, ← hbelow, ← getD_ne_nil_iff, ← getD_ne_nil_iff, not_not, Ne, ← textAt_eq_some]
    unfold rejected
    simp only [Bool.or_eq_true, decide_eq_true_iff, or_assoc]
    exact or_iff_right Bool.false_ne_true
  rw [hparts]
  constructor
  · rintro (⟨m, hm, hname, harray⟩ | ⟨m, hm, hname, hbad⟩ | hbom | hspec | ⟨s, hs, hne⟩)
    · exact Or.inl ⟨m, hm, Or.inl ⟨hname, Or.inl harray⟩⟩
    · exact Or.inl ⟨m, hm, Or.inl ⟨hname, Or.inr hbad⟩⟩
    · exact Or.inr (Or.inl hbom)
    · exact Or.inr (Or.inr hspec)
    · obtain ⟨m, hm, hname, hvalue⟩ := (scalarAt_object hread.nodup).1 hs
      exact Or.inl ⟨m, hm, Or.inr (Or.inl ⟨hname, s, hvalue, hne⟩)⟩
  · rintro (⟨m, hm, ⟨hname, harray | hbad⟩ | ⟨hname, s, hs, hne⟩ | ⟨hname, s, hs, hne⟩⟩ | hbom | hspec)
    · exact Or.inl ⟨m, hm, hname, harray⟩
    · exact Or.inr (Or.inl ⟨m, hm, hname, hbad⟩)
    · exact Or.inr (Or.inr (Or.inr (Or.inr ⟨s, (scalarAt_object hread.nodup).2 ⟨m, hm, hname, hs⟩, hne⟩)))
    · -- a format of another name is not the one that is asked for
      refine Or.inr (Or.inr (Or.inl ?_))
      have hfound : scalarAt "bomFormat".toList (.object members) = some (.string s) :=
        (scalarAt_object hread.nodup).2 ⟨m, hm, hname, hs⟩
      rw [hfound]
      intro heq
      exact hne (Scalar.string.inj (Option.some.inj heq))
    · exact Or.inr (Or.inr (Or.inl hbom))
    · exact Or.inr (Or.inr (Or.inr (Or.inl hspec)))

/-- A document is rejected exactly where its tree is, and else gives the inventory of the tree. -/
theorem sbom_settles (hread : Readable 0 doc) (hwithin : Within parse (componentsBelow .ending doc)) :
    Settles Error.Rejects (rejected doc = true) (inventoryOf parse (componentsBelow .ending doc))
      (sbom parse doc.events) := by
  have hfollow := @follow_events δ _ (Walk.feed parse) doc [] ⟨∅, ∅, ⟨0, 0, 0, [], .empty, 0⟩⟩ hread
  have hsbom : sbom parse doc.events = feedAll (Walk.feed parse) ⟨∅, ∅, ⟨0, 0, 0, [], .empty, 0⟩⟩ (doc.trace []) >>=
      Walk.finish := by
    unfold sbom
    rw [hfollow]
    show (feedAll (Walk.feed parse) ⟨∅, ∅, ⟨0, 0, 0, [], .empty, 0⟩⟩ (doc.trace []) >>= _) >>= _ = _
    cases feedAll (Walk.feed parse) ⟨∅, ∅, ⟨0, 0, 0, [], .empty, 0⟩⟩ (doc.trace []) <;> rfl
  rw [hsbom]
  cases doc with
  | scalar value => exact .error rfl trivial
  | array items => exact .error rfl trivial
  | object members =>
    have hmembers := @Settles.foldlM Error (Walk δ) (Str × JsonTree (Scalar δ))
      (Dict Str (Scalar δ) × List (JsonTree (Scalar δ))) Error.Rejects members
      (fun w m => feedAll (Walk.feed parse) w (m.2.trace [some m.1])) takeDeclaration
      (fun a => ⟨∅, a.1, tallyOf parse a.2⟩) badDeclaration (∅, []) (by
        intro done m rest hsplit
        have hin : m ∈ members := by
          rw [hsplit]
          simp
        apply declaration_settles (hread.member hin)
        -- the components up to this member are the first of all
        have hfirst : (takeDeclaration (done.foldl takeDeclaration (∅, [])) m).2 =
            componentsOfMembers .ending (done ++ [m]) := by
          have hconcat := @foldl_takeDeclaration_snd δ (done ++ [m]) (∅, [])
          rwa [List.foldl_append] at hconcat
        have hrest : componentsBelow .ending (.object members) =
            componentsOfMembers .ending (done ++ [m]) ++ componentsOfMembers .ending rest := by
          show componentsOfMembers .ending members = _
          rw [← componentsOfMembers_append, hsplit]
          simp
        rw [hfirst]
        rw [hrest] at hwithin
        exact hwithin.of_append)
    have hsecond : (members.foldl takeDeclaration ((∅ : Dict Str (Scalar δ)), [])).2 =
        componentsBelow .ending (.object members) := foldl_takeDeclaration_snd
    have hbom := @foldl_takeDeclaration_fst δ members _ [] hread.nodup (Or.inl rfl)
    have hversion := @foldl_takeDeclaration_fst δ members _ [] hread.nodup (Or.inr rfl)
    have hfinish := finish_settles (⟨∅, (members.foldl takeDeclaration ((∅ : Dict Str (Scalar δ)), [])).1,
      tallyOf parse (componentsBelow .ending (.object members))⟩ : Walk δ)
    dsimp only at hfinish
    rw [hbom, hversion, ← inventoryOf_eq] at hfinish
    rw [hsecond] at hmembers
    have htrace : feedAll (Walk.feed parse) (⟨∅, ∅, ⟨0, 0, 0, [], .empty, 0⟩⟩ : Walk δ)
        ((JsonTree.object members).trace []) =
        members.foldlM (fun w m => feedAll (Walk.feed parse) w (m.2.trace [some m.1]))
          (⟨∅, ∅, ⟨0, 0, 0, [], .empty, 0⟩⟩ : Walk δ) := by
      have hall := @feedAll_memberTrace δ (Walk δ) (Walk.feed parse) ⟨∅, ∅, ⟨0, 0, 0, [], .empty, 0⟩⟩ [] members
        fun w name => rfl
      show feedAll _ _ (memberTrace [] members ++ [([], .endMap)]) = _
      rw [feedAll_append, hall]
      show (members.foldlM (fun w m => feedAll (Walk.feed parse) w (m.2.trace [some m.1])) _ >>= _) = _
      cases members.foldlM (fun w m => feedAll (Walk.feed parse) w (m.2.trace [some m.1]))
        (⟨∅, ∅, ⟨0, 0, 0, [], .empty, 0⟩⟩ : Walk δ) <;> rfl
    rw [htrace]
    exact (hmembers.bind fun _ => hfinish).congr (rejected_iff hread).symm

end Streaming

end TrustedReleases
