import TrustedReleases.Lib.Members
import TrustedReleases.Streaming.Counted

/-!
# The licenses of a component

The events of a component's licenses, wherever the component stands: they are rejected exactly where the licenses of
the tree are, and else leave the declarations of the tree (`licenses_settles`).
-/

namespace TrustedReleases

open Lib JsonTree

namespace Streaming

variable {δ : Type} {S : Type} {feed : S → Position → JsonEvent (Scalar δ) → Except Error S} {s : S} {p q : Position}
  {t : JsonTree (Scalar δ)} {members : List (Str × JsonTree (Scalar δ))} {name : Str}

/-! ### Members and items -/

theorem feedAll_memberTrace (hkey : ∀ s name, feed s p (.mapKey name) = .ok s) :
    feedAll feed s (memberTrace p members) =
      members.foldlM (fun s m => feedAll feed s (m.2.trace (p ++ [some m.1]))) s := by
  induction members generalizing s with
  | nil => rfl
  | cons m members ih =>
    obtain ⟨name, t⟩ := m
    rw [memberTrace, feedAll_cons, hkey, ok_bind, feedAll_append, List.foldlM_cons]
    cases feedAll feed s (t.trace (p ++ [some name])) with
    | error e => rfl
    | ok s' => exact ih

private theorem feedAll_itemTrace {items : List (JsonTree (Scalar δ))} : feedAll feed s (itemTrace p items) =
    items.foldlM (fun s t => feedAll feed s (t.trace (p ++ [none]))) s := by
  induction items generalizing s with
  | nil => rfl
  | cons t items ih =>
    rw [itemTrace, feedAll_append, List.foldlM_cons]
    cases feedAll feed s (t.trace (p ++ [none])) with
    | error e => rfl
    | ok s' => exact ih

/-- Events that change nothing. -/
theorem feedAll_same {trace : List (Position × JsonEvent (Scalar δ))} (h : ∀ e ∈ trace, feed s e.1 e.2 = .ok s) :
    feedAll feed s trace = .ok s := by
  induction trace with
  | nil => rfl
  | cons e trace ih =>
    obtain ⟨p, event⟩ := e
    rw [feedAll_cons, h _ List.mem_cons_self, ok_bind]
    exact ih fun e he => h e (List.mem_cons_of_mem _ he)

/-! ### License events -/

/-- What is done with an event below a component that belongs to its licenses. -/
def licenseFeed (c : Component δ) (suffix : Position) (event : JsonEvent (Scalar δ)) : Except Error (Component δ) :=
  match event with
  | .mapKey _ => .ok c
  | event => if suffix ∈ LICENSE_SUFFIXES then c.license suffix event else .ok c

theorem licenseFeed_outside {c : Component δ} {event : JsonEvent (Scalar δ)} (h : p ∉ LICENSE_SUFFIXES) :
    licenseFeed c p event = .ok c := by
  cases event <;> simp [licenseFeed, h]

theorem licenseFeed_license {c : Component δ} {event : JsonEvent (Scalar δ)} (h : p ∈ LICENSE_SUFFIXES)
    (hkey : ∀ name, event ≠ .mapKey name) : licenseFeed c p event = c.license p event := by
  cases event with
  | mapKey name => exact absurd rfl (hkey name)
  | scalar value => exact if_pos h
  | startMap => exact if_pos h
  | endMap => exact if_pos h
  | startArray => exact if_pos h
  | endArray => exact if_pos h

/-- An event that a license position does not admit. -/
private theorem license_rejects {c : Component δ} {event : JsonEvent (Scalar δ)} (h : licenseEvent p event = false) :
    ∃ e, c.license p event = .error e ∧ Error.Rejects e := by
  refine ⟨.malformed "CycloneDX component licenses must be an array of license or expression objects" none, ?_, trivial⟩
  unfold Component.license
  rw [raiseIf, if_pos h]
  rfl

/-- A value below a position where nothing belongs to the licenses. -/
private theorem licenseFeed_below {c : Component δ} (h : ∀ q, p ++ q ∉ LICENSE_SUFFIXES) :
    feedAll licenseFeed c (t.trace p) = .ok c := by
  apply feedAll_same
  intro e he
  obtain ⟨q, hq⟩ := prefix_of_mem_trace he
  rw [← hq]
  exact licenseFeed_outside (h q)

/-- A value that begins with an event that is not admitted. -/
private theorem feedAll_rejects {c : Component δ} {event : JsonEvent (Scalar δ)}
    {trace : List (Position × JsonEvent (Scalar δ))}
    {bad : Prop} {result : Component δ} (hbad : bad) (hp : p ∈ LICENSE_SUFFIXES) (hkey : ∀ name, event ≠ .mapKey name)
    (h : licenseEvent p event = false) :
    Settles Error.Rejects bad result (feedAll licenseFeed c ((p, event) :: trace)) := by
  obtain ⟨e, herror, he⟩ := @license_rejects δ p c event h
  rw [feedAll_cons, licenseFeed_license hp hkey, herror]
  exact .error hbad he

/-- The text of a license choice is read. -/
private theorem text_settles {c : Component δ} {choice : Choice} (hp : p ∈ [expressionSuffix, idSuffix, nameSuffix])
    (hchoice : c.choice = some choice) (hshort : ∀ text ∈ (scalarOf t).bind stringOf, text.length ≤ MAX_TEXT) :
    Settles Error.Rejects ((!(scalarOf t).any isText) = true)
      { c with choice := some (choice.setText p ((scalarOf t).bind stringOf)) } (feedAll licenseFeed c (t.trace p)) := by
  have hmem : p ∈ LICENSE_SUFFIXES := by
    revert p
    decide
  have hlength : p.length ≠ 2 := by
    revert p
    decide
  have hevent : ∀ event : JsonEvent (Scalar δ), licenseEvent p event = isScalarEvent event := by
    intro event
    have hnot : p ≠ licensesSuffix ∧ ¬ (p = choiceSuffix ∨ p = licenseSuffix) := by
      revert p
      decide
    unfold licenseEvent
    rw [if_neg hnot.1, if_neg hnot.2]
  cases t with
  | array items =>
    rw [trace]
    exact feedAll_rejects rfl hmem (fun name => by simp) (hevent _)
  | object members =>
    rw [trace]
    exact feedAll_rejects rfl hmem (fun name => by simp) (hevent _)
  | scalar value =>
    have hread := @textOf_settles δ (some value) hshort
    have hlicense : c.license p (.scalar value) = (do
        let text ← textOf (some value)
        let choice ← demand c.choice .lookup
        return { c with choice := some (choice.setText p text) }) := by
      unfold Component.license
      rw [raiseIf, if_neg (by rw [hevent]; simp [isScalarEvent]), ok_bind, if_neg hlength]
    rw [trace, feedAll_cons, licenseFeed_license hmem (fun name => by simp), hlicense, hchoice]
    have hset : Settles Error.Rejects ((some value).any (fun value => !isText value) = true)
        { c with choice := some (choice.setText p ((some value).bind stringOf)) } (do
          let text ← textOf (some value)
          let choice ← demand (some choice) .lookup
          return { c with choice := some (choice.setText p text) }) := hread.map rfl
    exact (hset.map rfl).congr Iff.rfl

/-! ### License choices -/

/-- What a member of a license does to the choice. -/
def Choice.takeText (choice : Choice) (m : Str × JsonTree (Scalar δ)) : Choice :=
  if m.1 = "id".toList then choice.setText idSuffix ((scalarOf m.2).bind stringOf)
  else if m.1 = "name".toList then choice.setText nameSuffix ((scalarOf m.2).bind stringOf)
  else choice

def membersOf : JsonTree (Scalar δ) → List (Str × JsonTree (Scalar δ))
  | .object members => members
  | _ => []

/-- What a member of a license choice does to the choice. -/
def Choice.take (choice : Choice) (m : Str × JsonTree (Scalar δ)) : Choice :=
  if m.1 = "expression".toList then choice.setText expressionSuffix ((scalarOf m.2).bind stringOf)
  else if m.1 = "license".toList then (membersOf m.2).foldl Choice.takeText { choice with license := true }
  else choice

/-- A choice that the events of a license choice lead to. -/
def choiceOf (t : JsonTree (Scalar δ)) : Choice := (membersOf t).foldl Choice.take ⟨none, false, none, none⟩

section

variable {c : Component δ} {choice : Choice}

private theorem memberTrace_settles {next : Choice → Str × JsonTree (Scalar δ) → Choice}
    {bad : Str × JsonTree (Scalar δ) → Prop}
    (h : ∀ m ∈ members, ∀ choice, Settles Error.Rejects (bad m) { c with choice := some (next choice m) }
      (feedAll licenseFeed { c with choice := some choice } (m.2.trace (p ++ [some m.1])))) :
    Settles Error.Rejects (∃ m ∈ members, bad m) { c with choice := some (members.foldl next choice) }
      (feedAll licenseFeed { c with choice := some choice } (memberTrace p members)) := by
  rw [feedAll_memberTrace fun s name => rfl]
  apply @Settles.foldlM Error (Component δ) _ Choice Error.Rejects members _ next
    (fun choice => { c with choice := some choice }) bad choice
  intro done m rest hsplit
  exact h m (by rw [hsplit]; simp) _

private theorem textAt_object {u : JsonTree (Scalar δ)} (hnodup : (members.map Prod.fst).Nodup)
    (hm : (name, u) ∈ members) :
    textAt name (.object members) = (scalarOf u).bind stringOf := by
  have hfound : member name (.object members) = some u := (lookup_eq_some_iff_mem hnodup).2 hm
  unfold textAt scalarAt
  rw [hfound]
  rfl

private theorem badText_iff (hnodup : (members.map Prod.fst).Nodup) : badText name (.object members) = true ↔
    ∃ m ∈ members, m.1 = name ∧ (!(scalarOf m.2).any isText) = true := any_lookup_iff hnodup

/-- The names at the third and at the fourth place of a license position. -/
private theorem names_of_mem : ∀ s ∈ LICENSE_SUFFIXES,
    (s[2]? = none ∨ s[2]? = some (some "expression".toList) ∨ s[2]? = some (some "license".toList)) ∧
      (s[3]? = none ∨ s[3]? = some (some "id".toList) ∨ s[3]? = some (some "name".toList)) := by decide

private theorem below_license (hname : ¬ (name = "id".toList ∨ name = "name".toList)) (q : Position) :
    licenseSuffix ++ [some name] ++ q ∉ LICENSE_SUFFIXES := by
  intro hmem
  have hfourth : (licenseSuffix ++ [some name] ++ q)[3]? = some (some name) := rfl
  obtain ⟨-, h⟩ := names_of_mem _ hmem
  rw [hfourth] at h
  rcases h with h | h | h
  · cases h
  · exact hname (Or.inl (Option.some.inj (Option.some.inj h)))
  · exact hname (Or.inr (Option.some.inj (Option.some.inj h)))

private theorem licenseMember_settles {m : Str × JsonTree (Scalar δ)}
    (hshort : m.1 = "id".toList ∨ m.1 = "name".toList →
      ∀ text ∈ (scalarOf m.2).bind stringOf, text.length ≤ MAX_TEXT) :
    Settles Error.Rejects ((m.1 = "id".toList ∨ m.1 = "name".toList) ∧ (!(scalarOf m.2).any isText) = true)
      { c with choice := some (choice.takeText m) }
      (feedAll licenseFeed { c with choice := some choice } (m.2.trace (licenseSuffix ++ [some m.1]))) := by
  obtain ⟨name, t⟩ := m
  unfold Choice.takeText
  by_cases hid : name = "id".toList
  · rw [if_pos hid]
    subst hid
    exact (@text_settles δ idSuffix t { c with choice := some choice } choice (by decide) rfl
      (hshort (Or.inl rfl))).congr (by simp)
  · by_cases hname : name = "name".toList
    · rw [if_neg hid, if_pos hname]
      subst hname
      exact (@text_settles δ nameSuffix t { c with choice := some choice } choice (by decide) rfl
        (hshort (Or.inr rfl))).congr (by simp)
    · have hother : ¬ (name = "id".toList ∨ name = "name".toList) := by
        rintro (h | h)
        · exact hid h
        · exact hname h
      rw [if_neg hid, if_neg hname, licenseFeed_below (below_license hother)]
      exact .ok fun hbad => hother hbad.1

/-- The license of a choice is read. -/
private theorem license_settles (hchoice : c.choice = some choice) (hnodup : ((membersOf t).map Prod.fst).Nodup)
    (hshort : ∀ name ∈ ["id".toList, "name".toList], ∀ text ∈ textAt name t, text.length ≤ MAX_TEXT) :
    Settles Error.Rejects (badLicense t = true)
      { c with choice := some ((membersOf t).foldl Choice.takeText { choice with license := true }) }
      (feedAll licenseFeed c (t.trace licenseSuffix)) := by
  have hmem : licenseSuffix ∈ LICENSE_SUFFIXES := by decide
  cases t with
  | scalar value =>
    rw [trace]
    exact feedAll_rejects rfl hmem (fun name => by simp) rfl
  | array items =>
    rw [trace]
    exact feedAll_rejects rfl hmem (fun name => by simp) rfl
  | object members =>
    have hstart : licenseFeed c licenseSuffix .startMap =
        .ok { c with choice := some { choice with license := true } } := by
      rw [licenseFeed_license hmem (fun name => by simp)]
      unfold Component.license
      rw [hchoice]
      rfl
    have hend : ∀ c : Component δ, licenseFeed c licenseSuffix .endMap = .ok c := fun c => rfl
    have hmembers := @memberTrace_settles δ licenseSuffix members c { choice with license := true } Choice.takeText
      (fun m => (m.1 = "id".toList ∨ m.1 = "name".toList) ∧ (!(scalarOf m.2).any isText) = true) fun m hm choice =>
        licenseMember_settles fun hname => by
          rw [← textAt_object hnodup hm]
          exact hshort m.1 (by simpa using hname)
    rw [trace, feedAll_cons, hstart, ok_bind, feedAll_append]
    refine (hmembers.map (hend _)).congr ?_
    have hid := @badText_iff δ members "id".toList hnodup
    have hname := @badText_iff δ members "name".toList hnodup
    unfold badLicense
    rw [Bool.or_eq_true, Bool.or_eq_true, hid, hname]
    constructor
    · rintro ⟨m, hm, h | h, hbad⟩
      · exact Or.inl (Or.inr ⟨m, hm, h, hbad⟩)
      · exact Or.inr ⟨m, hm, h, hbad⟩
    · rintro ((h | ⟨m, hm, h, hbad⟩) | ⟨m, hm, h, hbad⟩)
      · cases h
      · exact ⟨m, hm, Or.inl h, hbad⟩
      · exact ⟨m, hm, Or.inr h, hbad⟩

private theorem below_choice (hname : ¬ (name = "expression".toList ∨ name = "license".toList)) (q : Position) :
    choiceSuffix ++ [some name] ++ q ∉ LICENSE_SUFFIXES := by
  intro hmem
  have hthird : (choiceSuffix ++ [some name] ++ q)[2]? = some (some name) := rfl
  obtain ⟨h, -⟩ := names_of_mem _ hmem
  rw [hthird] at h
  rcases h with h | h | h
  · cases h
  · exact hname (Or.inl (Option.some.inj (Option.some.inj h)))
  · exact hname (Or.inr (Option.some.inj (Option.some.inj h)))

/-- The texts of a license choice are within the limit. -/
def ShortTexts (t : JsonTree (Scalar δ)) : Prop :=
  ∀ text ∈ (choiceTexts t).reduceOption, text.length ≤ MAX_TEXT

/-- A member of a license choice is rejected. -/
def badChoiceMember (m : Str × JsonTree (Scalar δ)) : Prop :=
  (m.1 = "expression".toList ∧ (!(scalarOf m.2).any isText) = true) ∨ (m.1 = "license".toList ∧ badLicense m.2 = true)

private theorem choiceMember_settles {m : Str × JsonTree (Scalar δ)} {depth : Nat} (hread : Readable depth m.2)
    (hexpression : m.1 = "expression".toList → ∀ text ∈ (scalarOf m.2).bind stringOf, text.length ≤ MAX_TEXT)
    (hlicense : m.1 = "license".toList →
      ∀ name ∈ ["id".toList, "name".toList], ∀ text ∈ textAt name m.2, text.length ≤ MAX_TEXT) :
    Settles Error.Rejects (badChoiceMember m) { c with choice := some (choice.take m) }
      (feedAll licenseFeed { c with choice := some choice } (m.2.trace (choiceSuffix ++ [some m.1]))) := by
  obtain ⟨name, t⟩ := m
  unfold Choice.take badChoiceMember
  by_cases hname : name = "expression".toList
  · rw [if_pos hname]
    subst hname
    exact (@text_settles δ expressionSuffix t { c with choice := some choice } choice (by decide) rfl
      (hexpression rfl)).congr (by simp)
  · by_cases hname' : name = "license".toList
    · rw [if_neg hname, if_pos hname']
      subst hname'
      have hnodup : ((membersOf t).map Prod.fst).Nodup := by
        cases hread with
        | scalar => exact List.nodup_nil
        | array => exact List.nodup_nil
        | object hdepth hnodup => exact hnodup
      exact (@license_settles δ t { c with choice := some choice } choice rfl hnodup (hlicense rfl)).congr (by simp)
    · have hother : ¬ (name = "expression".toList ∨ name = "license".toList) := by
        rintro (h | h)
        · exact hname h
        · exact hname' h
      rw [if_neg hname, if_neg hname', licenseFeed_below (below_choice hother)]
      apply Settles.ok
      rintro (⟨h, -⟩ | ⟨h, -⟩)
      · exact hname h
      · exact hname' h

end

/-! ### The declaration of a choice -/

private theorem foldl_takeText_kept (members : List (Str × JsonTree (Scalar δ))) (choice : Choice) :
    (members.foldl Choice.takeText choice).expression = choice.expression ∧
      (members.foldl Choice.takeText choice).license = choice.license := by
  induction members generalizing choice with
  | nil => exact ⟨rfl, rfl⟩
  | cons m members ih =>
    obtain ⟨hexpression, hlicense⟩ := ih (choice.takeText m)
    rw [List.foldl_cons, hexpression, hlicense]
    unfold Choice.takeText
    split_ifs <;> exact ⟨rfl, rfl⟩

section

variable {choice : Choice} {m : Str × JsonTree (Scalar δ)}

private theorem take_expression (hname : m.1 = "expression".toList) : choice.take m =
    { choice with expression := some ((scalarOf m.2).bind stringOf) } := by
  unfold Choice.take Choice.setText
  rw [if_pos hname, if_pos (Eq.refl expressionSuffix)]

private theorem take_license (hname : m.1 = "license".toList) : choice.take m =
    (membersOf m.2).foldl Choice.takeText { choice with license := true } := by
  have hne : ¬ m.1 = "expression".toList := by
    rw [hname]
    decide
  unfold Choice.take
  rw [if_neg hne, if_pos hname]

private theorem take_of_ne (hexpression : m.1 ≠ "expression".toList) (hlicense : m.1 ≠ "license".toList) :
    choice.take m = choice := by
  unfold Choice.take
  rw [if_neg hexpression, if_neg hlicense]

private theorem takeText_id (hname : m.1 = "id".toList) : choice.takeText m =
    { choice with id := some ((scalarOf m.2).bind stringOf) } := by
  have hne : idSuffix ≠ expressionSuffix := by decide
  unfold Choice.takeText Choice.setText
  rw [if_pos hname, if_neg hne, if_pos (Eq.refl idSuffix)]

private theorem takeText_name (hname : m.1 = "name".toList) : choice.takeText m =
    { choice with name := some ((scalarOf m.2).bind stringOf) } := by
  have hne : nameSuffix ≠ expressionSuffix := by decide
  have hne' : nameSuffix ≠ idSuffix := by decide
  have hid : ¬ m.1 = "id".toList := by
    rw [hname]
    decide
  unfold Choice.takeText Choice.setText
  rw [if_neg hid, if_pos hname, if_neg hne, if_neg hne']

private theorem takeText_of_ne (hid : m.1 ≠ "id".toList) (hname : m.1 ≠ "name".toList) :
    choice.takeText m = choice := by
  unfold Choice.takeText
  rw [if_neg hid, if_neg hname]

/-- A member that is not the license leaves the license and its texts. -/
private theorem take_kept (hlicense : m.1 ≠ "license".toList) : (choice.take m).license = choice.license ∧
    (choice.take m).id = choice.id ∧ (choice.take m).name = choice.name := by
  by_cases hexpression : m.1 = "expression".toList
  · rw [take_expression hexpression]
    exact ⟨rfl, rfl, rfl⟩
  · rw [take_of_ne hexpression hlicense]
    exact ⟨rfl, rfl, rfl⟩

end

private theorem member_eq (name : Str) (t : JsonTree (Scalar δ)) : member name t = (membersOf t).lookup name := by
  cases t <;> rfl

theorem Readable.nodup {depth : Nat} (h : Readable depth t) : ((membersOf t).map Prod.fst).Nodup := by
  cases h with
  | scalar => exact List.nodup_nil
  | array => exact List.nodup_nil
  | object hdepth hnodup => exact hnodup

theorem Readable.member {depth : Nat} {m : Str × JsonTree (Scalar δ)} (h : Readable depth t) (hm : m ∈ membersOf t) :
    Readable (depth + 1) m.2 := by
  cases h with
  | scalar => cases hm
  | array => cases hm
  | object hdepth hnodup hcount hchars hshort hmembers => exact hmembers m hm

private theorem foldl_takeText_id {choice : Choice} (hnodup : (members.map Prod.fst).Nodup) (hnone : choice.id = none) :
    (members.foldl Choice.takeText choice).id =
      (members.lookup "id".toList).map fun u => (scalarOf u).bind stringOf := by
  have hslot := @foldl_slot Str (JsonTree (Scalar δ)) Choice (Option (Option Str)) _ _ members "id".toList
    Choice.takeText Choice.id (fun u => some ((scalarOf u).bind stringOf)) choice hnodup
    (fun c m hm hid hkept => by rw [takeText_id hid])
    (fun c m hid => by
      by_cases hname : m.1 = "name".toList
      · rw [takeText_name hname]
      · rw [takeText_of_ne hid hname])
  rw [hslot, hnone]
  cases members.lookup "id".toList <;> rfl

private theorem foldl_takeText_name {choice : Choice} (hnodup : (members.map Prod.fst).Nodup)
    (hnone : choice.name = none) :
    (members.foldl Choice.takeText choice).name =
      (members.lookup "name".toList).map fun u => (scalarOf u).bind stringOf := by
  have hslot := @foldl_slot Str (JsonTree (Scalar δ)) Choice (Option (Option Str)) _ _ members "name".toList
    Choice.takeText Choice.name (fun u => some ((scalarOf u).bind stringOf)) choice hnodup
    (fun c m hm hname hkept => by rw [takeText_name hname])
    (fun c m hname => by
      by_cases hid : m.1 = "id".toList
      · rw [takeText_id hid]
      · rw [takeText_of_ne hid hname])
  rw [hslot, hnone]
  cases members.lookup "name".toList <;> rfl

section

variable {depth : Nat}

private theorem choiceOf_expression (hread : Readable depth t) :
    (choiceOf t).expression = (member "expression".toList t).map fun u => (scalarOf u).bind stringOf := by
  have hslot := @foldl_slot Str (JsonTree (Scalar δ)) Choice (Option (Option Str)) _ _ (membersOf t) "expression".toList
    Choice.take Choice.expression (fun u => some ((scalarOf u).bind stringOf)) ⟨none, false, none, none⟩ hread.nodup
    (fun c m hm hname hkept => by rw [take_expression hname])
    (fun c m hname => by
      by_cases hlicense : m.1 = "license".toList
      · rw [take_license hlicense]
        exact (foldl_takeText_kept _ _).1
      · rw [take_of_ne hname hlicense])
  unfold choiceOf
  rw [hslot, member_eq]
  cases (membersOf t).lookup "expression".toList <;> rfl

private theorem choiceOf_license (hread : Readable depth t) :
    (choiceOf t).license = (member "license".toList t).isSome := by
  have hslot := @foldl_slot Str (JsonTree (Scalar δ)) Choice Bool _ _ (membersOf t) "license".toList
    Choice.take Choice.license (fun _ => true) ⟨none, false, none, none⟩ hread.nodup
    (fun c m hm hname hkept => by
      rw [take_license hname]
      exact (foldl_takeText_kept _ _).2)
    (fun c m hname => (take_kept hname).1)
  unfold choiceOf
  rw [hslot, member_eq]
  cases (membersOf t).lookup "license".toList <;> rfl

private theorem getD_map_bind (name : Str) (t : JsonTree (Scalar δ)) :
    ((member name t).map fun u => (scalarOf u).bind stringOf).getD none = textAt name t := by
  unfold textAt scalarAt
  cases member name t <;> rfl

private theorem choiceOf_id (hread : Readable depth t) : ((choiceOf t).id).getD none =
    (member "license".toList t).bind (textAt "id".toList) := by
  have hslot := @foldl_slot Str (JsonTree (Scalar δ)) Choice (Option (Option Str)) _ _ (membersOf t) "license".toList
    Choice.take Choice.id (fun u => (member "id".toList u).map fun u => (scalarOf u).bind stringOf)
    ⟨none, false, none, none⟩ hread.nodup
    (fun c m hm hname hkept => by
      rw [take_license hname, member_eq]
      exact foldl_takeText_id (hread.member hm).nodup hkept)
    (fun c m hname => (take_kept hname).2.1)
  unfold choiceOf
  rw [hslot, member_eq]
  cases (membersOf t).lookup "license".toList with
  | none => rfl
  | some u => exact getD_map_bind "id".toList u

private theorem choiceOf_name (hread : Readable depth t) : ((choiceOf t).name).getD none =
    (member "license".toList t).bind (textAt "name".toList) := by
  have hslot := @foldl_slot Str (JsonTree (Scalar δ)) Choice (Option (Option Str)) _ _ (membersOf t) "license".toList
    Choice.take Choice.name (fun u => (member "name".toList u).map fun u => (scalarOf u).bind stringOf)
    ⟨none, false, none, none⟩ hread.nodup
    (fun c m hm hname hkept => by
      rw [take_license hname, member_eq]
      exact foldl_takeText_name (hread.member hm).nodup hkept)
    (fun c m hname => (take_kept hname).2.2)
  unfold choiceOf
  rw [hslot, member_eq]
  cases (membersOf t).lookup "license".toList with
  | none => rfl
  | some u => exact getD_map_bind "name".toList u

/-- A component with one more license choice. -/
def Component.takeChoice (c : Component δ) (t : JsonTree (Scalar δ)) : Component δ :=
  let declarations := c.licenses.getD []
  { c with
    choice := none
    licenses := some ((declarationOf t).elim declarations fun declaration =>
      if declaration ∈ declarations then declarations else declarations ++ [declaration]) }

/-- The end of a license choice. -/
private theorem choose_settles {c : Component δ} (hread : Readable depth t)
    (hcount : ((c.takeChoice t).licenses.getD []).length ≤ MAX_LICENSES) :
    Settles Error.Rejects ((member "license".toList t).isSome = (member "expression".toList t).isSome) (c.takeChoice t)
      (licenseFeed { c with choice := some (choiceOf t) } choiceSuffix .endMap) := by
  have hexpression : (choiceOf t).expression.isSome = (member "expression".toList t).isSome := by
    rw [choiceOf_expression hread, Option.isSome_map]
  have htext : orText (orText ((choiceOf t).expression.getD none) ((choiceOf t).id.getD none))
      ((choiceOf t).name.getD none) = (choiceTexts t).foldl orText none := by
    have hfirst : (choiceOf t).expression.getD none = textAt "expression".toList t := by
      rw [choiceOf_expression hread, getD_map_bind]
    rw [hfirst, choiceOf_id hread, choiceOf_name hread]
    rfl
  have hfeed : licenseFeed { c with choice := some (choiceOf t) } choiceSuffix .endMap =
      Component.choose { c with choice := some (choiceOf t) } .endMap := rfl
  rw [hfeed]
  unfold Component.choose
  dsimp only
  rw [show demand (some (choiceOf t)) Error.lookup = .ok (choiceOf t) from rfl, ok_bind, htext, hexpression,
    choiceOf_license hread]
  refine (Settles.raiseIf trivial).map ?_
  unfold Component.takeChoice declarationOf at hcount ⊢
  dsimp only at hcount ⊢
  by_cases hempty : ((choiceTexts t).foldl orText none).getD [] = []
  · rw [if_pos (Or.inl hempty), if_pos hempty]
    rfl
  · rw [if_neg hempty] at hcount ⊢
    dsimp only [Option.elim_some, Option.getD_some] at hcount ⊢
    by_cases hmem : (((choiceTexts t).foldl orText none).getD [], (member "expression".toList t).isSome) ∈
        c.licenses.getD []
    · rw [if_pos (Or.inr hmem), if_pos hmem]
      rfl
    · have hneither : ¬ (((choiceTexts t).foldl orText none).getD [] = [] ∨
          (((choiceTexts t).foldl orText none).getD [], (member "expression".toList t).isSome) ∈
            c.licenses.getD []) := not_or.2 ⟨hempty, hmem⟩
      rw [if_neg hmem] at hcount
      rw [if_neg hneither, if_neg hmem, (raiseIf_eq_ok (u := ())).2 (not_lt.2 hcount)]
      rfl

private theorem mem_choiceTexts_expression {m : Str × JsonTree (Scalar δ)} {text : Str}
    (hnodup : (members.map Prod.fst).Nodup) (hm : m ∈ members) (hname : m.1 = "expression".toList)
    (htext : text ∈ (scalarOf m.2).bind stringOf) : some text ∈ choiceTexts (.object members) := by
  have hfound : textAt m.1 (.object members) = (scalarOf m.2).bind stringOf := textAt_object hnodup hm
  unfold choiceTexts
  rw [← hname, hfound, Option.mem_def.1 htext]
  exact List.mem_cons_self

private theorem mem_choiceTexts_license {m : Str × JsonTree (Scalar δ)} {name text : Str}
    (hnodup : (members.map Prod.fst).Nodup) (hm : m ∈ members) (hname : m.1 = "license".toList)
    (hin : name ∈ ["id".toList, "name".toList]) (htext : text ∈ textAt name m.2) :
    some text ∈ choiceTexts (.object members) := by
  have hfound : member m.1 (.object members) = some m.2 := (lookup_eq_some_iff_mem hnodup).2 hm
  have htext' : (member m.1 (.object members)).bind (textAt name) = some text := by
    rw [hfound]
    exact htext
  unfold choiceTexts
  rw [← hname]
  rcases List.mem_pair.1 hin with rfl | rfl
  · rw [htext']
    exact List.mem_cons_of_mem _ List.mem_cons_self
  · rw [htext']
    exact List.mem_cons_of_mem _ (List.mem_cons_of_mem _ List.mem_cons_self)

/-- A license choice is read. -/
private theorem choice_settles {c : Component δ} (hread : Readable depth t) (hshort : ShortTexts t)
    (hcount : ((c.takeChoice t).licenses.getD []).length ≤ MAX_LICENSES) :
    Settles Error.Rejects (badChoice t = true) (c.takeChoice t) (feedAll licenseFeed c (t.trace choiceSuffix)) := by
  have hmem : choiceSuffix ∈ LICENSE_SUFFIXES := by decide
  cases t with
  | scalar value =>
    rw [trace]
    exact feedAll_rejects rfl hmem (fun name => by simp) rfl
  | array items =>
    rw [trace]
    exact feedAll_rejects rfl hmem (fun name => by simp) rfl
  | object members =>
    have hnodup : (members.map Prod.fst).Nodup := hread.nodup
    have hstart : licenseFeed c choiceSuffix .startMap = .ok { c with choice := some ⟨none, false, none, none⟩ } := rfl
    have htexts : ∀ text, some text ∈ choiceTexts (.object members) → text.length ≤ MAX_TEXT :=
      fun text htext => hshort text (List.reduceOption_mem_iff.2 htext)
    have hmembers := @memberTrace_settles δ choiceSuffix members c ⟨none, false, none, none⟩ Choice.take badChoiceMember
      fun m hm choice => choiceMember_settles (hread.member hm)
        (fun hname text htext => htexts text (mem_choiceTexts_expression hnodup hm hname htext))
        (fun hname name hin text htext => htexts text (mem_choiceTexts_license hnodup hm hname hin htext))
    rw [trace, feedAll_cons, hstart, ok_bind, feedAll_append]
    refine (hmembers.bind fun _ => (choose_settles hread hcount).map rfl).congr ?_
    have hexpression := @badText_iff δ members "expression".toList hnodup
    have hlicense := @any_lookup_iff Str (JsonTree (Scalar δ)) _ _ members "license".toList badLicense hnodup
    unfold badChoice
    rw [Bool.or_eq_true, Bool.or_eq_true, Bool.or_eq_true, hexpression, beq_iff_eq]
    constructor
    · rintro (⟨m, hm, ⟨hname, hbad⟩ | ⟨hname, hbad⟩⟩ | hsame)
      · exact Or.inl (Or.inl (Or.inr ⟨m, hm, hname, hbad⟩))
      · exact Or.inl (Or.inr (hlicense.2 ⟨m, hm, hname, hbad⟩))
      · exact Or.inr hsame
    · rintro (((hnot | ⟨m, hm, hname, hbad⟩) | hbad) | hsame)
      · cases hnot
      · exact Or.inl ⟨m, hm, Or.inl ⟨hname, hbad⟩⟩
      · obtain ⟨m, hm, hname, hbad⟩ := hlicense.1 hbad
        exact Or.inl ⟨m, hm, Or.inr ⟨hname, hbad⟩⟩
      · exact Or.inr hsame

end

/-! ### The licenses of a component -/

theorem licenses_foldl_takeChoice (items : List (JsonTree (Scalar δ))) (c : Component δ) :
    (items.foldl Component.takeChoice c).licenses.getD [] = (items.filterMap declarationOf).foldl
      (fun seen declaration => if declaration ∈ seen then seen else seen ++ [declaration]) (c.licenses.getD []) := by
  induction items generalizing c with
  | nil => rfl
  | cons t items ih =>
    rw [List.foldl_cons, ih]
    cases hdeclaration : declarationOf t with
    | none =>
      rw [List.filterMap_cons_none hdeclaration]
      unfold Component.takeChoice
      rw [hdeclaration]
      rfl
    | some declaration =>
      rw [List.filterMap_cons_some hdeclaration]
      unfold Component.takeChoice
      rw [hdeclaration]
      rfl

private theorem declared_eq {items : List (JsonTree (Scalar δ))} {c : Component δ} (hnone : c.licenses = none) :
    (items.foldl Component.takeChoice c).licenses.getD [] = (items.filterMap declarationOf).eraseDups := by
  rw [licenses_foldl_takeChoice, hnone]
  exact foldl_concat_eq_eraseDups _

theorem fields_foldl_takeChoice (items : List (JsonTree (Scalar δ))) (c : Component δ) :
    (items.foldl Component.takeChoice c).fields = c.fields := by
  induction items generalizing c with
  | nil => rfl
  | cons t items ih => exact ih _

/-- The licenses of a component are read. -/
theorem licenses_settles {c : Component δ} {depth : Nat} (hnone : c.licenses = none) (hread : Readable depth t)
    (hshort : ∀ choice ∈ itemsOf t, ShortTexts choice)
    (hcount : ((itemsOf t).filterMap declarationOf).eraseDups.length ≤ MAX_LICENSES) :
    Settles Error.Rejects ((!isArray t || (itemsOf t).any badChoice) = true)
      ((itemsOf t).foldl Component.takeChoice c) (feedAll licenseFeed c (t.trace licensesSuffix)) := by
  have hmem : licensesSuffix ∈ LICENSE_SUFFIXES := by decide
  cases t with
  | scalar value =>
    rw [trace]
    exact feedAll_rejects rfl hmem (fun name => by simp) rfl
  | object members =>
    rw [trace]
    exact feedAll_rejects rfl hmem (fun name => by simp) rfl
  | array items =>
    cases hread with
    | array hdepth hitems =>
      have hstart : licenseFeed c licensesSuffix .startArray = .ok c := rfl
      have hend : ∀ c : Component δ, licenseFeed c licensesSuffix .endArray = .ok c := fun c => rfl
      have hchoices := @Settles.foldlM Error (Component δ) (JsonTree (Scalar δ)) (Component δ) Error.Rejects items
        (fun c t => feedAll licenseFeed c (t.trace choiceSuffix)) Component.takeChoice id (fun t => badChoice t = true) c
        (by
          intro done choice rest hsplit
          have hin : choice ∈ items := by
            rw [hsplit]
            simp
          apply choice_settles (hitems choice hin) (hshort choice hin)
          -- the declarations so far are among those of all choices
          have hprefix : ((done ++ [choice]).foldl Component.takeChoice c).licenses.getD [] =
              ((done ++ [choice]).filterMap declarationOf).eraseDups := declared_eq hnone
          have hle := eraseDups_length_le_append ((done ++ [choice]).filterMap declarationOf)
            (rest.filterMap declarationOf)
          have hall : itemsOf (array items) = (done ++ [choice]) ++ rest := by
            show items = _
            rw [hsplit, List.append_assoc, List.singleton_append]
          rw [hall, List.filterMap_append] at hcount
          rw [List.foldl_append] at hprefix
          have hlength : ((Component.takeChoice (done.foldl Component.takeChoice c) choice).licenses.getD []).length =
              ((done ++ [choice]).filterMap declarationOf).eraseDups.length := congrArg List.length hprefix
          show ((Component.takeChoice (done.foldl Component.takeChoice c) choice).licenses.getD []).length ≤ _
          omega)
      rw [trace, feedAll_cons, hstart, ok_bind, feedAll_append, feedAll_itemTrace]
      refine (hchoices.map (hend _)).congr ?_
      show _ ↔ (false || items.any badChoice) = true
      rw [Bool.false_or, List.any_eq_true]

end Streaming

end TrustedReleases
