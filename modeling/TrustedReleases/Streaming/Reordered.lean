import TrustedReleases.Streaming.Inventoried

/-!
# The order of members

The inventory of a document does not depend on the order of the members of its objects (`sbom_inventory`).  The licenses
of one identity come in the order in which its components end, so that those of a component come after those of the
components nested in it, wherever its member `licenses` stands.
-/

namespace TrustedReleases

open Lib JsonTree

namespace Streaming

variable {δ : Type} {parse : Str → Option PackageUrl} {doc doc' t t' c c' : JsonTree (Scalar δ)} {name : Str}
  {depth : Nat} {cs cs' : List (JsonTree (Scalar δ))}

/-- One object somewhere in the document has its members in another order. -/
inductive Reorders : JsonTree (Scalar δ) → JsonTree (Scalar δ) → Prop
  | members {members members' : List (Str × JsonTree (Scalar δ))} : members.Perm members' →
      Reorders (.object members) (.object members')
  | item {before after : List (JsonTree (Scalar δ))} {t t' : JsonTree (Scalar δ)} : Reorders t t' →
      Reorders (.array (before ++ t :: after)) (.array (before ++ t' :: after))
  | member {before after : List (Str × JsonTree (Scalar δ))} {name : Str} {t t' : JsonTree (Scalar δ)} : Reorders t t' →
      Reorders (.object (before ++ (name, t) :: after)) (.object (before ++ (name, t') :: after))

/-- The same up to the order of the members of one object. -/
def Like (t t' : JsonTree (Scalar δ)) : Prop := t = t' ∨ ∃ depth, Readable depth t ∧ Reorders t t'

theorem Like.rfl {t : JsonTree (Scalar δ)} : Like t t := Or.inl (Eq.refl t)

theorem Reorders.readable (h : Reorders t t') (hread : Readable depth t) : Readable depth t' := by
  induction h generalizing depth with
  | members hperm =>
    cases hread with
    | object hdepth hnodup hcount hchars hshort hmembers =>
      refine .object hdepth ((hperm.map _).nodup_iff.1 hnodup) ?_ ?_ (fun m hm => hshort m (hperm.mem_iff.2 hm))
        fun m hm => hmembers m (hperm.mem_iff.2 hm)
      · rw [← hperm.length_eq]
        exact hcount
      · rw [← (hperm.map _).sum_eq]
        exact hchars
  | item hstep ih =>
    cases hread with
    | array hdepth hitems =>
      refine .array hdepth fun t ht => ?_
      rw [List.mem_append, List.mem_cons] at ht
      rcases ht with ht | rfl | ht
      · exact hitems t (by simp [ht])
      · exact ih (hitems _ (by simp))
      · exact hitems t (by simp [ht])
  | @member before after name t t' hstep ih =>
    cases hread with
    | object hdepth hnodup hcount hchars hshort hmembers =>
      refine .object hdepth (by simpa using hnodup) (by simpa using hcount) (by simpa using hchars) ?_ fun m hm => ?_
      · intro m hm
        rw [List.mem_append, List.mem_cons] at hm
        rcases hm with hm | rfl | hm
        · exact hshort m (by simp [hm])
        · exact hshort (name, t) (List.mem_append_right _ List.mem_cons_self)
        · exact hshort m (by simp [hm])
      · rw [List.mem_append, List.mem_cons] at hm
        rcases hm with hm | rfl | hm
        · exact hmembers m (by simp [hm])
        · exact ih (hmembers (_, _) (List.mem_append_right _ List.mem_cons_self))
        · exact hmembers m (by simp [hm])

/-! ### Parts of a reordered document -/

private theorem Like.isObject (h : Like t t') : isObject t = isObject t' := by
  rcases h with rfl | ⟨depth, hread, hstep⟩
  · rfl
  · cases hstep <;> rfl

theorem Like.isArray (h : Like t t') : isArray t = isArray t' := by
  rcases h with rfl | ⟨depth, hread, hstep⟩
  · rfl
  · cases hstep <;> rfl

theorem Like.scalarOf (h : Like t t') : scalarOf t = scalarOf t' := by
  rcases h with rfl | ⟨depth, hread, hstep⟩
  · rfl
  · cases hstep <;> rfl

private theorem forall₂_rfl (cs : List (JsonTree (Scalar δ))) : List.Forall₂ Like cs cs :=
  List.forall₂_same.2 fun _ _ => Like.rfl

theorem Like.items (h : Like t t') : List.Forall₂ Like (itemsOf t) (itemsOf t') := by
  rcases h with rfl | ⟨depth, hread, hstep⟩
  · exact forall₂_rfl _
  · cases hstep with
    | members hperm => exact .nil
    | member hstep => exact .nil
    | item hstep =>
      cases hread with
      | array hdepth hitems =>
        have hlike : Like _ _ := Or.inr ⟨_, hitems _ (List.mem_append_right _ List.mem_cons_self), hstep⟩
        exact List.rel_append (forall₂_rfl _) (.cons hlike (forall₂_rfl _))

/-- A member is found in both documents or in neither. -/
theorem Like.member (h : Like t t') (name : Str) : Option.Rel Like (member name t) (member name t') := by
  have hrfl : ∀ o : Option (JsonTree (Scalar δ)), Option.Rel Like o o := by
    intro o
    cases o with
    | none => exact .none
    | some t => exact .some Like.rfl
  rcases h with rfl | ⟨depth, hread, hstep⟩
  · exact hrfl _
  · cases hstep with
    | item hstep => exact .none
    | members hperm =>
      have hsame := @lookup_perm Str (JsonTree (Scalar δ)) _ _ _ _ name hread.nodup hperm
      show Option.Rel Like (List.lookup name _) (List.lookup name _)
      rw [← hsame]
      exact hrfl _
    | @member before after n u u' hstep =>
      have hmember : Readable (depth + 1) u := hread.member (m := (n, u)) (List.mem_append_right _ List.mem_cons_self)
      have hlike : Like u u' := Or.inr ⟨_, hmember, hstep⟩
      show Option.Rel Like (List.lookup name _) (List.lookup name _)
      rw [List.lookup_append, List.lookup_append, List.lookup_cons, List.lookup_cons]
      cases before.lookup name with
      | some found => exact .some Like.rfl
      | none =>
        cases name == n with
        | true => exact .some hlike
        | false => exact hrfl _

private theorem Like.any_member (h : Like t t') {bad : JsonTree (Scalar δ) → Bool}
    (hbad : ∀ u u', Like u u' → bad u = bad u') :
    (Streaming.member name t).any bad = (Streaming.member name t').any bad := by
  have hrel := h.member name
  revert hrel
  cases Streaming.member name t <;> cases Streaming.member name t' <;> intro hrel
  · rfl
  · cases hrel
  · cases hrel
  · cases hrel with
    | some hlike => exact hbad _ _ hlike

private theorem Like.bind_member {α : Type} (h : Like t t') {f : JsonTree (Scalar δ) → Option α}
    (hf : ∀ u u', Like u u' → f u = f u') :
    (Streaming.member name t).bind f = (Streaming.member name t').bind f := by
  have hrel := h.member name
  revert hrel
  cases Streaming.member name t <;> cases Streaming.member name t' <;> intro hrel
  · rfl
  · cases hrel
  · cases hrel
  · cases hrel with
    | some hlike => exact hf _ _ hlike

private theorem Like.isSome_member (h : Like t t') :
    (Streaming.member name t).isSome = (Streaming.member name t').isSome := by
  have hrel := h.member name
  revert hrel
  cases Streaming.member name t <;> cases Streaming.member name t' <;> intro hrel
  · rfl
  · cases hrel
  · cases hrel
  · rfl

theorem Like.scalarAt (h : Like t t') : scalarAt name t = scalarAt name t' := h.bind_member fun _ _ => Like.scalarOf

theorem Like.textAt (h : Like t t') : textAt name t = textAt name t' := by
  unfold Streaming.textAt
  rw [h.scalarAt]

theorem Like.badText (h : Like t t') : badText name t = badText name t' :=
  h.any_member fun u u' hu => by rw [hu.scalarOf]

theorem Like.badLicense (h : Like t t') : badLicense t = badLicense t' := by
  unfold Streaming.badLicense
  rw [h.isObject, h.badText, h.badText]

theorem Like.badChoice (h : Like t t') : badChoice t = badChoice t' := by
  unfold Streaming.badChoice
  rw [h.isObject, h.badText, h.isSome_member, h.isSome_member, h.any_member fun _ _ => Like.badLicense]

theorem Like.choiceTexts (h : Like t t') : choiceTexts t = choiceTexts t' := by
  unfold Streaming.choiceTexts
  rw [h.textAt, h.bind_member fun _ _ => Like.textAt, h.bind_member fun _ _ => Like.textAt]

theorem Like.declarationOf (h : Like t t') : declarationOf t = declarationOf t' := by
  unfold Streaming.declarationOf
  rw [h.choiceTexts, h.isSome_member]

/-! ### Documents alike, one by one -/

private theorem exists_like (h : List.Forall₂ Like cs cs') (hc : c' ∈ cs') : ∃ c ∈ cs, Like c c' := by
  induction h with
  | nil => cases hc
  | @cons c d cs ds hlike hrest ih =>
    rcases List.mem_cons.1 hc with rfl | hin
    · exact ⟨c, List.mem_cons_self, hlike⟩
    · obtain ⟨e, he, hlike⟩ := ih hin
      exact ⟨e, List.mem_cons_of_mem _ he, hlike⟩

private theorem any_alike {p : JsonTree (Scalar δ) → Bool} (hp : ∀ u u', Like u u' → p u = p u')
    (h : List.Forall₂ Like cs cs') : cs.any p = cs'.any p := by
  induction h with
  | nil => rfl
  | cons hlike hrest ih => rw [List.any_cons, List.any_cons, hp _ _ hlike, ih]

private theorem countP_alike {p : JsonTree (Scalar δ) → Bool} (hp : ∀ u u', Like u u' → p u = p u')
    (h : List.Forall₂ Like cs cs') : cs.countP p = cs'.countP p := by
  induction h with
  | nil => rfl
  | cons hlike hrest ih => rw [List.countP_cons, List.countP_cons, hp _ _ hlike, ih]

private theorem filterMap_alike {α : Type} {f : JsonTree (Scalar δ) → Option α} (hf : ∀ u u', Like u u' → f u = f u')
    (h : List.Forall₂ Like cs cs') : cs.filterMap f = cs'.filterMap f := by
  induction h with
  | nil => rfl
  | cons hlike hrest ih => rw [List.filterMap_cons, List.filterMap_cons, hf _ _ hlike, ih]

private theorem filter_map_alike {α : Type} {p : JsonTree (Scalar δ) → Bool} {f : JsonTree (Scalar δ) → α}
    (hp : ∀ u u', Like u u' → p u = p u') (hf : ∀ u u', Like u u' → f u = f u') (h : List.Forall₂ Like cs cs') :
    (cs.filter p).map f = (cs'.filter p).map f := by
  induction h with
  | nil => rfl
  | @cons c d cs ds hlike hrest ih =>
    rw [List.filter_cons, List.filter_cons, hp _ _ hlike]
    cases p d with
    | true => rw [if_pos rfl, if_pos rfl, List.map_cons, List.map_cons, hf _ _ hlike, ih]
    | false => rw [if_neg Bool.false_ne_true, if_neg Bool.false_ne_true, ih]

/-! ### A reordered component -/

theorem Like.choices (h : Like c c') : List.Forall₂ Like (choicesOf c) (choicesOf c') := by
  have hrel := h.member "licenses".toList
  unfold choicesOf
  revert hrel
  cases Streaming.member "licenses".toList c <;> cases Streaming.member "licenses".toList c' <;> intro hrel
  · exact .nil
  · cases hrel
  · cases hrel
  · cases hrel with
    | some hlike => exact hlike.items

theorem Like.declarationsOf (h : Like c c') : declarationsOf c = declarationsOf c' := by
  unfold Streaming.declarationsOf
  rw [filterMap_alike (fun _ _ => Like.declarationOf) h.choices]

theorem Like.isFile (h : Like c c') : isFile c = isFile c' := by
  unfold Streaming.isFile
  rw [h.textAt]

theorem Like.isLicensed (h : Like c c') : isLicensed c = isLicensed c' := by
  unfold Streaming.isLicensed
  rw [h.isFile, h.declarationsOf]

theorem Like.badName (h : Like c c') : badName name c = badName name c' := by
  unfold Streaming.badName
  rw [h.scalarAt]

theorem Like.badComponent (h : Like c c') : badComponent c = badComponent c' := by
  unfold Streaming.badComponent
  have hlicenses : ∀ u u' : JsonTree (Scalar δ), Like u u' →
      (!Streaming.isArray u || (itemsOf u).any Streaming.badChoice) =
        (!Streaming.isArray u' || (itemsOf u').any Streaming.badChoice) := by
    intro u u' hu
    rw [hu.isArray, any_alike (fun _ _ => Like.badChoice) hu.items]
  rw [h.isObject, h.isLicensed, h.badName, h.badName, h.any_member hlicenses,
    h.any_member fun u u' hu => by rw [hu.isArray]]

theorem Like.purlOf (h : Like c c') : purlOf parse c = purlOf parse c' := by
  unfold Streaming.purlOf
  rw [h.scalarAt]

theorem Like.identityOf (h : Like c c') : identityOf parse c = identityOf parse c' := by
  unfold Streaming.identityOf
  rw [h.purlOf, h.textAt, h.textAt]

theorem Like.identified (h : Like c c') : identified parse c = identified parse c' := by
  unfold Streaming.identified
  rw [h.isFile, h.purlOf]

/-! ### The inventory of reordered components -/

private theorem identitiesOf_alike (h : List.Forall₂ Like cs cs') : identitiesOf parse cs = identitiesOf parse cs' := by
  unfold identitiesOf
  rw [filter_map_alike (fun _ _ => Like.isLicensed) (fun _ _ => Like.identityOf) h]

private theorem licensesOf_alike (h : List.Forall₂ Like cs cs') : licensesOf parse cs = licensesOf parse cs' := by
  funext key
  have hkept : ∀ u u' : JsonTree (Scalar δ), Like u u' →
      (isLicensed u && decide (identityOf parse u = key)) = (isLicensed u' && decide (identityOf parse u' = key)) := by
    intro u u' hu
    rw [hu.isLicensed, hu.identityOf]
  unfold licensesOf
  rw [List.flatMap_def, List.flatMap_def, filter_map_alike hkept (fun _ _ => Like.declarationsOf) h]

private theorem inventoryOf_alike (h : List.Forall₂ Like cs cs') : inventoryOf parse cs = inventoryOf parse cs' := by
  have hunidentified : ∀ u u' : JsonTree (Scalar δ), Like u u' →
      (!isFile u && (purlOf parse u).isNone) = (!isFile u' && (purlOf parse u').isNone) := by
    intro u u' hu
    rw [hu.isFile, hu.purlOf]
  unfold inventoryOf
  rw [h.length_eq, countP_alike (fun _ _ => Like.isFile) h, countP_alike hunidentified h,
    filterMap_alike (fun _ _ => Like.identified) h, identitiesOf_alike h, licensesOf_alike h]

private theorem within_alike (h : List.Forall₂ Like cs cs') (hwithin : Within parse cs) : Within parse cs' := by
  have hidentified : cs.filterMap (identified parse) = cs'.filterMap (identified parse) :=
    filterMap_alike (fun _ _ => Like.identified) h
  refine ⟨h.length_eq ▸ hwithin.components, ?_, ?_, ?_, hidentified ▸ hwithin.purls, hidentified ▸ hwithin.identities,
    @identitiesOf_alike δ parse cs cs' h ▸ hwithin.licensed, ?_⟩
  · intro c' hc' choice' hchoice'
    obtain ⟨c, hc, hlike⟩ := exists_like h hc'
    obtain ⟨choice, hchoice, halike⟩ := exists_like hlike.choices hchoice'
    rw [← halike.choiceTexts]
    exact hwithin.choices c hc choice hchoice
  · intro c' hc'
    obtain ⟨c, hc, hlike⟩ := exists_like h hc'
    rw [← hlike.declarationsOf]
    exact hwithin.declarations c hc
  · intro c' hc'
    obtain ⟨c, hc, hlike⟩ := exists_like h hc'
    rw [← hlike.isLicensed, ← hlike.textAt, ← hlike.textAt]
    exact hwithin.names c hc
  · have hlicenses := hwithin.licenses
    rwa [identitiesOf_alike h, licensesOf_alike h] at hlicenses

/-! ### The components of a reordered document -/

private theorem componentsOfMembers_of_notMem {members : List (Str × JsonTree (Scalar δ))}
    (h : "components".toList ∉ members.map Prod.fst) : componentsOfMembers .ending members = [] := by
  induction members with
  | nil => rfl
  | cons m members ih =>
    obtain ⟨name, t⟩ := m
    rw [List.map_cons, List.mem_cons, not_or] at h
    rw [componentsOfMembers, if_neg fun hname => h.1 hname.symm, ih h.2]

/-- The components below an object are those in the array that is its member `components`. -/
private theorem componentsOfMembers_eq {members : List (Str × JsonTree (Scalar δ))}
    (hnodup : (members.map Prod.fst).Nodup) :
    componentsOfMembers .ending members =
      ((members.lookup "components".toList).map (componentsIn .ending)).getD [] := by
  induction members with
  | nil => rfl
  | cons m members ih =>
    obtain ⟨name, t⟩ := m
    obtain ⟨hname, hnodup⟩ := List.nodup_cons.1 hnodup
    rw [componentsOfMembers, List.lookup_cons]
    by_cases heq : name = "components".toList
    · have hrest : componentsOfMembers .ending members = [] := componentsOfMembers_of_notMem (heq ▸ hname)
      rw [if_pos heq, hrest, List.append_nil, beq_iff_eq.2 heq.symm]
      rfl
    · rw [if_neg heq, ih hnodup, beq_eq_false_iff_ne.2 fun h => heq h.symm]

private theorem forall₂_append_congr {before after between between' : List (JsonTree (Scalar δ))}
    (h : List.Forall₂ Like between between') :
    List.Forall₂ Like (before ++ between ++ after) (before ++ between' ++ after) :=
  List.rel_append (List.rel_append (forall₂_rfl before) h) (forall₂_rfl after)

/-- The components of a document are those of a reordered one, up to the order of members. -/
theorem Reorders.components (h : Reorders t t') (hread : Readable depth t) :
    List.Forall₂ Like (componentsBelow .ending t) (componentsBelow .ending t') ∧
      List.Forall₂ Like (componentsIn .ending t) (componentsIn .ending t') := by
  induction h generalizing depth with
  | @members members members' hperm =>
    refine ⟨?_, .nil⟩
    have hnodup : (members.map Prod.fst).Nodup := hread.nodup
    have hnodup' : (members'.map Prod.fst).Nodup := (hperm.map Prod.fst).nodup_iff.1 hnodup
    have hsame : componentsOfMembers .ending members = componentsOfMembers .ending members' := by
      rw [componentsOfMembers_eq hnodup, componentsOfMembers_eq hnodup', lookup_perm hnodup hperm]
    show List.Forall₂ Like (componentsOfMembers .ending members) (componentsOfMembers .ending members')
    rw [hsame]
    exact forall₂_rfl _
  | @item before after t t' hstep ih =>
    refine ⟨.nil, ?_⟩
    cases hread with
    | array hdepth hitems =>
      have hitem : Readable (depth + 1) t := hitems t (List.mem_append_right _ List.mem_cons_self)
      have hlike : Like t t' := Or.inr ⟨_, hitem, hstep⟩
      have hsplit : ∀ u : JsonTree (Scalar δ), componentsIn .ending (.array (before ++ u :: after)) =
          componentsOfItems .ending before ++ (componentsBelow .ending u ++ [u]) ++
            componentsOfItems .ending after := by
        intro u
        show componentsOfItems .ending (before ++ u :: after) = _
        rw [componentsOfItems_append, componentsOfItems]
        simp
      rw [hsplit, hsplit]
      exact forall₂_append_congr (List.rel_append (ih hitem).1 (.cons hlike .nil))
  | @member before after name t t' hstep ih =>
    refine ⟨?_, .nil⟩
    have hmember : Readable (depth + 1) t := hread.member (m := (name, t)) (List.mem_append_right _ List.mem_cons_self)
    have hsplit : ∀ u : JsonTree (Scalar δ), componentsBelow .ending (.object (before ++ (name, u) :: after)) =
        componentsOfMembers .ending before ++ componentsOfMembers .ending [(name, u)] ++
          componentsOfMembers .ending after := by
      intro u
      show componentsOfMembers .ending (before ++ (name, u) :: after) = _
      rw [← componentsOfMembers_append, ← componentsOfMembers_append]
      simp
    rw [hsplit, hsplit]
    apply forall₂_append_congr
    have hsingle : ∀ u : JsonTree (Scalar δ), componentsOfMembers .ending [(name, u)] =
        if name = "components".toList then componentsIn .ending u else [] := by
      intro u
      rw [componentsOfMembers, componentsOfMembers, List.append_nil]
    rw [hsingle, hsingle]
    split
    · exact (ih hmember).2
    · exact .nil

theorem Reorders.rejected (h : Reorders doc doc') (hread : Readable depth doc) : rejected doc = rejected doc' := by
  have hlike : Like doc doc' := Or.inr ⟨depth, hread, h⟩
  unfold Streaming.rejected
  rw [hlike.isObject, hlike.textAt, hlike.textAt, hlike.textAt,
    any_alike (fun _ _ => Like.badComponent) (h.components hread).1, hlike.any_member fun u u' hu => by rw [hu.isArray]]

/-! ### The inventory of a document -/

/-- Every component is a file, one without a package URL or one that is identified. -/
private theorem components_eq (cs : List (JsonTree (Scalar δ))) :
    (inventoryOf parse cs).components = (inventoryOf parse cs).files + (inventoryOf parse cs).unidentified +
      (cs.filterMap (identified parse)).length := by
  unfold inventoryOf
  dsimp only
  induction cs with
  | nil => rfl
  | cons c cs ih =>
    rw [List.length_cons, ih, List.countP_cons, List.countP_cons, List.filterMap_cons]
    unfold identified
    cases isFile c with
    | true => simp; omega
    | false =>
      cases purlOf parse c with
      | none => simp; omega
      | some purl => simp; omega

/-- What is recorded of a document does not depend on the order of members. -/
private theorem reordered (h : Relation.ReflTransGen Reorders doc doc') (hread : Readable 0 doc)
    (hwithin : Within parse (componentsBelow .ending doc)) :
    Readable 0 doc' ∧ Within parse (componentsBelow .ending doc') ∧ rejected doc = rejected doc' ∧
      inventoryOf parse (componentsBelow .ending doc) = inventoryOf parse (componentsBelow .ending doc') := by
  induction h with
  | refl => exact ⟨hread, hwithin, rfl, rfl⟩
  | tail hrun hstep ih =>
    obtain ⟨hread, hwithin, hrejected, hinventory⟩ := ih
    have hlike := (hstep.components hread).1
    exact ⟨hstep.readable hread, within_alike hlike hwithin, hrejected.trans (hstep.rejected hread),
      hinventory.trans (inventoryOf_alike hlike)⟩

/-- A document is rejected exactly where its tree is, and else gives the inventory of the tree, whatever the order of
the members of its objects. -/
theorem sbom_inventory (hread : Readable 0 doc) (hwithin : Within parse (componentsBelow .ending doc))
    (h : Relation.ReflTransGen Reorders doc doc') :
    Settles Error.Rejects (rejected doc = true) (inventoryOf parse (componentsBelow .ending doc))
        (sbom parse doc'.events) ∧
      (inventoryOf parse (componentsBelow .ending doc)).components =
        (inventoryOf parse (componentsBelow .ending doc)).files +
          (inventoryOf parse (componentsBelow .ending doc)).unidentified +
          ((componentsBelow .ending doc).filterMap (identified parse)).length := by
  obtain ⟨hread', hwithin', hrejected, hinventory⟩ := reordered h hread hwithin
  refine ⟨?_, components_eq _⟩
  rw [hrejected, hinventory]
  exact sbom_settles hread' hwithin'

/-! ### A component that is nested in one of the same identity -/

def nestedLicenses (license : Str) : JsonTree (Scalar Nat) :=
  .array [.object [("expression".toList, .scalar (.string license))]]

def nestedInner : JsonTree (Scalar Nat) :=
  .object [("name".toList, .scalar (.string "a".toList)), ("licenses".toList, nestedLicenses "ISC".toList)]

def nestedOuter : JsonTree (Scalar Nat) :=
  .object [("name".toList, .scalar (.string "a".toList)), ("licenses".toList, nestedLicenses "MIT".toList),
    ("components".toList, .array [nestedInner])]

def nestedMembers : List (Str × JsonTree (Scalar Nat)) :=
  [("bomFormat".toList, .scalar (.string "CycloneDX".toList)), ("specVersion".toList, .scalar (.string "1.6".toList)),
    ("components".toList, .array [nestedOuter])]

def nestedDocument : JsonTree (Scalar Nat) := .object nestedMembers

private theorem nestedLicenses_readable {license : Str} (hdepth : depth + 1 < MAX_DEPTH)
    (hshort : license.length ≤ MAX_STRING) : Readable depth (nestedLicenses license) := by
  refine .array (by omega) fun t ht => ?_
  rw [List.mem_singleton.1 ht]
  have hname : "expression".toList.length ≤ MAX_STRING := by decide +kernel
  refine .object hdepth (List.nodup_singleton _) (show 1 ≤ MAX_MEMBERS by decide)
    (show "expression".toList.length + 0 ≤ MAX_MEMBER_CHARS by decide +kernel) (fun m hm => ?_) fun m hm => ?_
  · rw [List.mem_singleton.1 hm]
    exact hname
  · rw [List.mem_singleton.1 hm]
    exact .scalar hshort

private theorem nestedInner_readable : Readable 4 nestedInner := by
  refine .object (by decide) (by decide) (by decide) (by decide +kernel) (by decide +kernel) ?_
  rw [List.forall_mem_cons, List.forall_mem_singleton]
  exact ⟨.scalar (show "a".toList.length ≤ MAX_STRING by decide +kernel),
    nestedLicenses_readable (by decide) (by decide +kernel)⟩

private theorem nestedOuter_readable : Readable 2 nestedOuter := by
  have hinner : Readable 3 (.array [nestedInner]) :=
    .array (by decide) (List.forall_mem_singleton.2 nestedInner_readable)
  refine .object (by decide) (by decide) (by decide) (by decide +kernel) (by decide +kernel) ?_
  rw [List.forall_mem_cons, List.forall_mem_cons, List.forall_mem_singleton]
  exact ⟨.scalar (show "a".toList.length ≤ MAX_STRING by decide +kernel),
    nestedLicenses_readable (by decide) (by decide +kernel), hinner⟩

private theorem nestedDocument_readable : Readable 0 nestedDocument := by
  have houter : Readable 1 (.array [nestedOuter]) :=
    .array (by decide) (List.forall_mem_singleton.2 nestedOuter_readable)
  refine .object (by decide) (by decide) (by decide) (by decide +kernel) (by decide +kernel) ?_
  unfold nestedMembers
  rw [List.forall_mem_cons, List.forall_mem_cons, List.forall_mem_singleton]
  exact ⟨.scalar (show "CycloneDX".toList.length ≤ MAX_STRING by decide +kernel),
    .scalar (show "1.6".toList.length ≤ MAX_STRING by decide +kernel), houter⟩

private theorem nestedDocument_within (order : Order) :
    Within (fun _ => none) (componentsBelow order nestedDocument) := by
  cases order <;> constructor <;> decide +kernel

private theorem nestedDocument_reorders : Reorders nestedDocument (.object nestedMembers.reverse) :=
  .members (List.reverse_perm nestedMembers).symm

theorem sbom_inventory_nested :
    Settles Error.Rejects (rejected nestedDocument = true)
        (inventoryOf (fun _ => none) (componentsBelow .ending nestedDocument))
        (sbom (fun _ => none) (JsonTree.object nestedMembers.reverse).events) ∧
      (inventoryOf (fun _ => none) (componentsBelow .ending nestedDocument)).components =
        (inventoryOf (fun _ => none) (componentsBelow .ending nestedDocument)).files +
          (inventoryOf (fun _ => none) (componentsBelow .ending nestedDocument)).unidentified +
          ((componentsBelow .ending nestedDocument).filterMap (identified fun _ => none)).length :=
  sbom_inventory nestedDocument_readable (nestedDocument_within .ending) (.single nestedDocument_reorders)

/-- The licenses do not come in the order in which the components start. -/
theorem not_sbom_inventory_starting : ¬ ∀ (parse : Str → Option PackageUrl) (doc : JsonTree (Scalar Nat)),
    Readable 0 doc → Within parse (componentsBelow .starting doc) →
      Settles Error.Rejects (rejected doc = true) (inventoryOf parse (componentsBelow .starting doc))
        (sbom parse doc.events) := by
  intro h
  have hsettles := h (fun _ => none) nestedDocument nestedDocument_readable (nestedDocument_within .starting)
  have haccepted := congrArg Except.toOption (hsettles.accepts (by decide +kernel))
  have hdiffers : (sbom (fun _ => none) nestedDocument.events).toOption ≠
      some (inventoryOf (fun _ => none) (componentsBelow .starting nestedDocument)) := by decide +kernel
  exact hdiffers haccepted

end Streaming

end TrustedReleases
