import TrustedReleases.Streaming.Chosen

/-!
# The walk through a document

What the walk does with an event is told by the position of the event below the component that it is in, whatever other
components are open (`feed_below`).  So the events of a component are rejected exactly where the component or one
nested in it is, and else record these components (`component_settles`).
-/

namespace TrustedReleases

open Lib JsonTree

namespace Streaming

variable {δ : Type} {parse : Str → Option PackageUrl} {p q k s : Position} {event : JsonEvent (Scalar δ)}

/-! ### Positions of components -/

def componentsSuffix : Position := [some "components".toList]

def componentSuffix : Position := [some "components".toList, none]

private theorem alternates_append (h : alternates p = true) : alternates (p ++ q) = alternates q := by
  fun_induction alternates p with
  | case1 => rfl
  | case2 name rest ih =>
    rw [Bool.and_eq_true, decide_eq_true_iff] at h
    show (decide (name = "components".toList) && alternates (rest ++ q)) = alternates q
    rw [ih h.2, decide_eq_true h.1, Bool.true_and]
  | case3 => cases h

/-- A position that alternates goes into a component or ends. -/
private theorem alternates_cases (h : alternates p = true) :
    p = [] ∨ ∃ rest, p = componentSuffix ++ rest ∧ alternates rest = true := by
  fun_induction alternates p with
  | case1 => exact Or.inl rfl
  | case2 name rest ih =>
    rw [Bool.and_eq_true, decide_eq_true_iff] at h
    exact Or.inr ⟨rest, by rw [h.1]; rfl, h.2⟩
  | case3 => cases h

/-- A position has one innermost component. -/
private theorem innermost_unique (hk : alternates k = true) (hp : alternates p = true) (heq : k ++ s = p ++ q)
    (hs : ¬ componentSuffix <+: s) (hq : ¬ componentSuffix <+: q) : k = p ∧ s = q := by
  induction k using alternates.induct generalizing p with
  | case1 =>
    rcases alternates_cases hp with rfl | ⟨rest, rfl, -⟩
    · exact ⟨rfl, heq⟩
    · rw [List.nil_append, List.append_assoc] at heq
      exact absurd ⟨rest ++ q, heq.symm⟩ hs
  | case2 name rest ih =>
    rcases alternates_cases hp with rfl | ⟨rest', rfl, hrest'⟩
    · rw [List.nil_append] at heq
      rw [alternates, Bool.and_eq_true, decide_eq_true_iff] at hk
      refine absurd ⟨rest ++ s, ?_⟩ hq
      rw [← heq, hk.1]
      rfl
    · rw [alternates, Bool.and_eq_true, decide_eq_true_iff] at hk
      have hrest : rest ++ s = rest' ++ q := by
        rw [hk.1, List.append_assoc] at heq
        exact @List.append_cancel_left _ componentSuffix _ _ heq
      obtain ⟨rfl, rfl⟩ := ih hk.2 hrest' hrest
      exact ⟨by rw [hk.1]; rfl, rfl⟩
  | case3 t hnil hpair =>
    rcases alternates_cases hk with rfl | ⟨rest, rfl, -⟩
    · exact absurd rfl hnil
    · exact absurd rfl (hpair _ _)

private theorem componentPath_append (hp : alternates p = true) (hq : q ≠ []) :
    componentPath (p ++ q) = componentPath q := by
  have hempty : (p ++ q).isEmpty = q.isEmpty := by
    cases p with
    | nil => rfl
    | cons x p => cases q with
      | nil => exact absurd rfl hq
      | cons y q => rfl
  unfold componentPath
  rw [hempty, alternates_append hp]

/-- A position that does not go into a component is not one of a component. -/
private theorem componentPath_eq_false (hq : ¬ componentSuffix <+: q) : componentPath q = false := by
  by_contra hpath
  rw [Bool.not_eq_false, componentPath, Bool.and_eq_true] at hpath
  rcases alternates_cases hpath.2 with rfl | ⟨rest, rfl, -⟩
  · cases hpath.1
  · exact hq ⟨rest, rfl⟩

private theorem not_prefix_dropLast (hq : ¬ componentSuffix <+: q) : ¬ componentSuffix <+: q.dropLast :=
  fun hstart => hq (hstart.trans (List.dropLast_prefix q))

private theorem componentArrayPath_append (hp : alternates p = true) (hq : ¬ componentSuffix <+: q) (hne : q ≠ []) :
    componentArrayPath (p ++ q) = decide (q = componentsSuffix) := by
  have hlast : (p ++ q).getLast? = q.getLast? := List.getLast?_append_of_ne_nil p hne
  have hdrop : (p ++ q).dropLast = p ++ q.dropLast := List.dropLast_append_of_ne_nil hne
  unfold componentArrayPath
  rw [hlast, hdrop]
  by_cases heq : q = componentsSuffix
  · subst heq
    rw [decide_eq_true rfl]
    by_cases hnil : p = []
    · subst hnil
      rfl
    · have hpath : componentPath (p ++ componentsSuffix.dropLast) = true := by
        rw [show componentsSuffix.dropLast = [] from rfl, List.append_nil, componentPath, hp, Bool.and_true,
          Bool.not_eq_true', List.isEmpty_eq_false_iff]
        exact hnil
      rw [hpath, Bool.or_true, Bool.and_true]
      rfl
  · rw [decide_eq_false heq, Bool.and_eq_false_iff]
    by_cases hlen : q.dropLast = []
    · left
      apply decide_eq_false
      intro hcomponents
      have hsplit := List.dropLast_append_getLast? _ hcomponents
      rw [hlen] at hsplit
      exact heq hsplit.symm
    · right
      have hlong : (p ++ q).length ≠ 1 := by
        intro hone
        have hpositive := List.length_pos_of_ne_nil hlen
        rw [List.length_dropLast] at hpositive
        rw [List.length_append] at hone
        omega
      rw [decide_eq_false hlong, Bool.false_or, componentPath_append hp hlen,
        componentPath_eq_false (not_prefix_dropLast hq)]

/-- The components that are open stand at positions of components. -/
def Opened (pending : Dict Position (Component δ)) : Prop := ∀ k, (pending.get k).isSome = true → componentPath k = true

private theorem begins_of_mem :
    ∀ s ∈ LICENSE_SUFFIXES, s.length ∈ [1, 2, 3, 4] ∧ s.head? = some (some "licenses".toList) := by
  decide

private theorem not_prefix_of_mem (hs : s ∈ LICENSE_SUFFIXES) : ¬ componentSuffix <+: s := by
  rintro ⟨rest, rfl⟩
  obtain ⟨-, hhead⟩ := begins_of_mem _ hs
  have hne : "components".toList ≠ "licenses".toList := by decide
  exact hne (Option.some.inj (Option.some.inj hhead))

/-- The component of a license position is the innermost one. -/
private theorem findLicenseSuffix_eq {pending : Dict Position (Component δ)} (hp : alternates p = true)
    (hopened : Opened pending)
    (hq : ¬ componentSuffix <+: q) : findLicenseSuffix (p ++ q) pending =
      if q ∈ LICENSE_SUFFIXES ∧ (pending.get p).isSome = true then some (p, q) else none := by
  cases hfind : findLicenseSuffix (p ++ q) pending with
  | some found =>
    unfold findLicenseSuffix at hfind
    obtain ⟨length, -, hfound⟩ := List.exists_of_findSome?_eq_some hfind
    dsimp only at hfound
    by_cases hcond : (p ++ q).drop ((p ++ q).length - length) ∈ LICENSE_SUFFIXES ∧
        (pending.get ((p ++ q).take ((p ++ q).length - length))).isSome = true
    · rw [if_pos hcond] at hfound
      have howner := hopened _ hcond.2
      rw [componentPath, Bool.and_eq_true] at howner
      obtain ⟨hk, hs⟩ := innermost_unique howner.2 hp (List.take_append_drop _ _) (not_prefix_of_mem hcond.1) hq
      rw [hk, hs] at hcond hfound
      rw [if_pos hcond, hfound]
    · rw [if_neg hcond] at hfound
      cases hfound
  | none =>
    rw [if_neg]
    rintro ⟨hmem, hpending⟩
    unfold findLicenseSuffix at hfind
    rw [List.findSome?_eq_none_iff] at hfind
    have hnone := hfind q.length (begins_of_mem q hmem).1
    have hlength : (p ++ q).length - q.length = p.length := by
      rw [List.length_append]
      omega
    dsimp only at hnone
    rw [hlength, List.take_left, List.drop_left, if_pos ⟨hmem, hpending⟩] at hnone
    cases hnone

/-! ### Events below a component -/

section

variable {w : Walk δ}

private theorem feed_eq_value (hkey : ∀ name, event ≠ .mapKey name) (hne : p ≠ []) :
    w.feed parse p event = w.value parse p event := by
  cases event with
  | mapKey name => exact absurd rfl (hkey name)
  | scalar value => exact if_neg hne
  | startMap => exact if_neg hne
  | endMap => exact if_neg hne
  | startArray => exact if_neg hne
  | endArray => exact if_neg hne

/-- The array of components. -/
private theorem feed_components (hp : alternates p = true) (hkey : ∀ name, event ≠ .mapKey name) :
    w.feed parse (p ++ componentsSuffix) event =
      if isArrayEvent event then .ok w
      else .error (.malformed "CycloneDX components must be an array" none) := by
  have hpath : componentArrayPath (p ++ componentsSuffix) = true := by
    rw [componentArrayPath_append hp (by decide) (by decide)]
    exact decide_eq_true rfl
  rw [feed_eq_value hkey (by simp [componentsSuffix])]
  unfold Walk.value
  rw [if_pos hpath]

/-- A component. -/
private theorem feed_component (hp : alternates p = true) (hkey : ∀ name, event ≠ .mapKey name) :
    w.feed parse (p ++ componentSuffix) event = w.component parse (p ++ componentSuffix) event := by
  have hne : p ++ componentSuffix ≠ [] := by simp [componentSuffix]
  have hpath : componentPath (p ++ componentSuffix) = true := by
    rw [componentPath_append hp (by decide)]
    decide
  have harray : ¬ componentArrayPath (p ++ componentSuffix) = true := by
    have hlast : (p ++ componentSuffix).getLast? = some none := List.getLast?_append_of_ne_nil p (by decide)
    unfold componentArrayPath
    rw [hlast, Bool.and_eq_true]
    rintro ⟨hcomponents, -⟩
    cases of_decide_eq_true hcomponents
  rw [feed_eq_value hkey hne]
  unfold Walk.value
  rw [if_neg harray, if_pos hpath]

/-- What else stands below a component is no component and no array of components. -/
private theorem not_paths (hp : alternates p = true) (hq : ¬ componentSuffix <+: q) (hne : q ≠ [])
    (hcomponents : q ≠ componentsSuffix) :
    p ++ q ≠ [] ∧ ¬ componentArrayPath (p ++ q) = true ∧ ¬ componentPath (p ++ q) = true := by
  refine ⟨fun h => hne (List.append_eq_nil_iff.1 h).2, ?_, ?_⟩
  · rw [componentArrayPath_append hp hq hne, decide_eq_true_iff]
    exact hcomponents
  · rw [componentPath_append hp hne, componentPath_eq_false hq]
    exact Bool.false_ne_true

/-- The licenses of the innermost component. -/
private theorem feed_license {c : Component δ} (hp : alternates p = true) (hopened : Opened w.pending)
    (hmem : q ∈ LICENSE_SUFFIXES) (hget : w.pending.get p = some c) (hkey : ∀ name, event ≠ .mapKey name) :
    w.feed parse (p ++ q) event =
      c.license q event >>= fun c => .ok { w with pending := w.pending.set p c } := by
  have hne : q ≠ [] ∧ q ≠ componentsSuffix := by
    revert q
    decide
  obtain ⟨hpos, harray, hpath⟩ := not_paths hp (not_prefix_of_mem hmem) hne.1 hne.2
  have hsome : (w.pending.get p).isSome = true := by
    rw [hget]
    rfl
  rw [feed_eq_value hkey hpos]
  unfold Walk.value
  rw [if_neg harray, if_neg hpath, findLicenseSuffix_eq hp hopened (not_prefix_of_mem hmem), if_pos ⟨hmem, hsome⟩]
  dsimp only
  rw [hget]
  rfl

/-- An event that begins or ends a value which is none of a component's. -/
private theorem feed_other (hp : alternates p = true) (hopened : Opened w.pending) (hq : ¬ componentSuffix <+: q)
    (hne : q ≠ [])
    (hcomponents : q ≠ componentsSuffix) (hlicense : q ∈ LICENSE_SUFFIXES → w.pending.get p = none)
    (hscalar : ∀ value, event ≠ .scalar value) : w.feed parse (p ++ q) event = .ok w := by
  obtain ⟨hpos, harray, hpath⟩ := not_paths hp hq hne hcomponents
  have hnot : ¬ (q ∈ LICENSE_SUFFIXES ∧ (w.pending.get p).isSome = true) := by
    rintro ⟨hmem, hsome⟩
    rw [hlicense hmem] at hsome
    cases hsome
  by_cases hkey : ∃ name, event = .mapKey name
  · obtain ⟨name, rfl⟩ := hkey
    rfl
  · rw [feed_eq_value (fun name heq => hkey ⟨name, heq⟩) hpos]
    unfold Walk.value
    rw [if_neg harray, if_neg hpath, findLicenseSuffix_eq hp hopened hq, if_neg hnot]
    cases event with
    | scalar value => exact absurd rfl (hscalar value)
    | mapKey name => rfl
    | startMap => rfl
    | endMap => rfl
    | startArray => rfl
    | endArray => rfl

/-- A scalar that is no part of the licenses. -/
theorem feed_scalar {value : Scalar δ} (hp : alternates p = true) (hopened : Opened w.pending)
    (hq : ¬ componentSuffix <+: q) (hne : q ≠ []) (hcomponents : q ≠ componentsSuffix)
    (hlicense : q ∈ LICENSE_SUFFIXES → w.pending.get p = none) : w.feed parse (p ++ q) (.scalar value) =
      if (p ++ q).length = 1 then w.declare ((p ++ q).head?.bind id) value
      else
        match w.pending.get (p ++ q).dropLast, (p ++ q).getLast?.bind id with
        | some c, some name =>
          if name ∈ Walk.COMPONENT_FIELDS then
            .ok { w with pending := w.pending.set (p ++ q).dropLast { c with fields := c.fields.set name value } }
          else .ok w
        | _, _ => .ok w := by
  obtain ⟨hpos, harray, hpath⟩ := not_paths hp hq hne hcomponents
  have hnot : ¬ (q ∈ LICENSE_SUFFIXES ∧ (w.pending.get p).isSome = true) := by
    rintro ⟨hmem, hsome⟩
    rw [hlicense hmem] at hsome
    cases hsome
  rw [feed_eq_value (fun name => by simp) hpos]
  unfold Walk.value
  have hnone : findLicenseSuffix (p ++ q) w.pending = none := by
    rw [findLicenseSuffix_eq hp hopened hq, if_neg hnot]
  rewrite [if_neg harray, if_neg hpath, hnone]
  rfl

/-- A scalar deeper than the members of a component. -/
private theorem feed_deep {value : Scalar δ} (hp : alternates p = true) (hopened : Opened w.pending)
    (hq : ¬ componentSuffix <+: q) (hdeep : 2 ≤ q.length) (hlicense : q ∈ LICENSE_SUFFIXES → w.pending.get p = none) :
    w.feed parse (p ++ q) (.scalar value) = .ok w := by
  have hne : q ≠ [] := by
    rintro rfl
    simp at hdeep
  have hcomponents : q ≠ componentsSuffix := by
    rintro rfl
    simp [componentsSuffix] at hdeep
  have hlength : ¬ (p ++ q).length = 1 := by
    rw [List.length_append]
    omega
  have hdrop : (p ++ q).dropLast = p ++ q.dropLast := List.dropLast_append_of_ne_nil hne
  have hnone : w.pending.get (p ++ q.dropLast) = none := by
    rw [← Option.not_isSome_iff_eq_none]
    intro hsome
    have hpath := hopened _ hsome
    have hinner : q.dropLast ≠ [] := by
      apply List.ne_nil_of_length_pos
      rw [List.length_dropLast]
      omega
    rw [componentPath_append hp hinner, componentPath_eq_false (not_prefix_dropLast hq)] at hpath
    cases hpath
  rw [feed_scalar hp hopened hq hne hcomponents hlicense, if_neg hlength, hdrop, hnone]

private theorem prefix_of_mem_itemTrace {items : List (JsonTree (Scalar δ))} {e : Position × JsonEvent (Scalar δ)}
    (h : e ∈ itemTrace p items) : p ++ [none] <+: e.1 := by
  induction items with
  | nil => cases h
  | cons t items ih =>
    rw [itemTrace, List.mem_append] at h
    rcases h with h | h
    · exact prefix_of_mem_trace h
    · exact ih h

/-- The scalars of an array or an object stand below it. -/
private theorem length_lt_of_scalar {t : JsonTree (Scalar δ)} {value : Scalar δ} (ht : scalarOf t = none)
    (h : (q, .scalar value) ∈ t.trace p) : p.length < q.length := by
  cases t with
  | scalar value => cases ht
  | array items =>
    rw [trace, List.mem_cons, List.mem_append, List.mem_singleton] at h
    rcases h with h | h | h
    · cases h
    · have hlength := (prefix_of_mem_itemTrace h).length_le
      rw [List.length_append, List.length_singleton] at hlength
      exact hlength
    · cases h
  | object members =>
    rw [trace, List.mem_cons, List.mem_append, List.mem_singleton] at h
    rcases h with h | h | h
    · cases h
    · obtain ⟨m, -, hkey | hprefix⟩ := mem_memberTrace h
      · cases hkey
      · have hlength := hprefix.length_le
        rw [List.length_append, List.length_singleton] at hlength
        exact hlength
    · cases h

theorem not_prefix_of_name {name : Str} (hname : name ≠ "components".toList) (q : Position) :
    ¬ componentSuffix <+: some name :: q := by
  rintro ⟨rest, heq⟩
  exact hname (Option.some.inj (List.cons.inj heq).1).symm

theorem ne_componentsSuffix {name : Str} (hname : name ≠ "components".toList) (q : Position) :
    some name :: q ≠ componentsSuffix := fun heq => hname (Option.some.inj (List.cons.inj heq).1)

/-- A member that is none of the components, the licenses and the fields of a component. -/
theorem feedAll_ignored {name : Str} {t : JsonTree (Scalar δ)} (hp : alternates p = true) (hopened : Opened w.pending)
    (hname : name ≠ "components".toList) (hlicense : name = "licenses".toList → w.pending.get p = none)
    (hscalar : ∀ value, t = .scalar value → w.feed parse (p ++ [some name]) (.scalar value) = .ok w) :
    feedAll (Walk.feed parse) w (t.trace (p ++ [some name])) = .ok w := by
  by_cases hvalue : scalarOf t = none
  · apply feedAll_same
    rintro ⟨position, event⟩ he
    obtain ⟨rest, rfl⟩ := prefix_of_mem_trace he
    have hposition : p ++ [some name] ++ rest = p ++ some name :: rest := by simp
    have hnone : some name :: rest ∈ LICENSE_SUFFIXES → w.pending.get p = none := by
      intro hmem
      exact hlicense (Option.some.inj (Option.some.inj (begins_of_mem _ hmem).2))
    dsimp only
    cases event with
    | scalar value =>
      have hlength := length_lt_of_scalar hvalue he
      rw [hposition]
      refine feed_deep hp hopened (not_prefix_of_name hname rest) ?_ hnone
      simp only [List.length_append, List.length_cons, List.length_nil] at hlength ⊢
      omega
    | mapKey name => rfl
    | startMap =>
      rw [hposition]
      exact feed_other hp hopened (not_prefix_of_name hname rest) (List.cons_ne_nil _ _) (ne_componentsSuffix hname rest)
        hnone fun value => by simp
    | endMap =>
      rw [hposition]
      exact feed_other hp hopened (not_prefix_of_name hname rest) (List.cons_ne_nil _ _) (ne_componentsSuffix hname rest)
        hnone fun value => by simp
    | startArray =>
      rw [hposition]
      exact feed_other hp hopened (not_prefix_of_name hname rest) (List.cons_ne_nil _ _) (ne_componentsSuffix hname rest)
        hnone fun value => by simp
    | endArray =>
      rw [hposition]
      exact feed_other hp hopened (not_prefix_of_name hname rest) (List.cons_ne_nil _ _) (ne_componentsSuffix hname rest)
        hnone fun value => by simp
  · cases t with
    | scalar value =>
      rw [trace, feedAll_cons, hscalar value rfl]
      rfl
    | array items => exact absurd rfl hvalue
    | object members => exact absurd rfl hvalue

/-! ### Licenses of an open component -/

private theorem feed_below_licenses {rest : Position} (hp : alternates p = true) (hopened : Opened w.pending)
    (hmem : licensesSuffix ++ rest ∉ LICENSE_SUFFIXES) : w.feed parse (p ++ (licensesSuffix ++ rest)) event = .ok w := by
  have hname : "licenses".toList ≠ "components".toList := by decide
  by_cases hscalar : ∃ value, event = .scalar value
  · obtain ⟨value, rfl⟩ := hscalar
    refine feed_deep hp hopened (not_prefix_of_name hname rest) ?_ fun hin => absurd hin hmem
    have hrest : rest ≠ [] := by
      rintro rfl
      exact hmem (by decide)
    have hlength := List.length_pos_of_ne_nil hrest
    rw [List.length_append]
    show 2 ≤ 1 + rest.length
    omega
  · exact feed_other hp hopened (not_prefix_of_name hname rest) (List.cons_ne_nil _ _) (ne_componentsSuffix hname rest)
      (fun hin => absurd hin hmem) fun value heq => hscalar ⟨value, heq⟩

/-- The events of the licenses of the innermost component change that component alone. -/
private theorem feedAll_licenses {c : Component δ} {pending : Dict Position (Component δ)}
    {declared : Dict Str (Scalar δ)}
    {tally : Tally} {trace : List (Position × JsonEvent (Scalar δ))} (hp : alternates p = true)
    (hopened : Opened (pending.set p c)) (htrace : ∀ e ∈ trace, licensesSuffix <+: e.1) :
    feedAll (Walk.feed parse) ⟨pending.set p c, declared, tally⟩ (trace.map fun e => (p ++ e.1, e.2)) =
      feedAll licenseFeed c trace >>= fun c => .ok ⟨pending.set p c, declared, tally⟩ := by
  induction trace generalizing c with
  | nil => rfl
  | cons e trace ih =>
    obtain ⟨q, event⟩ := e
    have hopened' : ∀ c' : Component δ, Opened (pending.set p c') := by
      intro c' k hk
      apply hopened k
      rw [Dict.get_set] at hk ⊢
      split
      · rfl
      · rename_i hne
        rwa [if_neg hne] at hk
    have hset : ∀ c c' : Component δ, (pending.set p c).set p c' = pending.set p c' := fun c c' => AList.insert_insert _
    have hget : (pending.set p c).get p = some c := by
      rw [Dict.get_set, if_pos rfl]
    have hrest : ∀ c : Component δ, feedAll (Walk.feed parse) ⟨pending.set p c, declared, tally⟩
        (trace.map fun e => (p ++ e.1, e.2)) =
          feedAll licenseFeed c trace >>= fun c => .ok ⟨pending.set p c, declared, tally⟩ :=
      fun c => ih (hopened' c) fun e he => htrace e (List.mem_cons_of_mem _ he)
    rw [List.map_cons, feedAll_cons, feedAll_cons]
    by_cases hkey : ∃ name, event = .mapKey name
    · obtain ⟨name, rfl⟩ := hkey
      exact hrest c
    · have hkey' : ∀ name, event ≠ .mapKey name := fun name heq => hkey ⟨name, heq⟩
      by_cases hmem : q ∈ LICENSE_SUFFIXES
      · have hstep := @feed_license δ parse p q event ⟨pending.set p c, declared, tally⟩ c hp hopened hmem hget hkey'
        rw [hstep, licenseFeed_license hmem hkey']
        cases hlicense : c.license q event with
        | error e => rfl
        | ok c' =>
          rw [ok_bind, ok_bind, ok_bind, hset]
          exact hrest c'
      · obtain ⟨rest, rfl⟩ := htrace _ List.mem_cons_self
        have hsame : Walk.feed parse ⟨pending.set p c, declared, tally⟩ (p ++ (licensesSuffix ++ rest)) event =
            .ok ⟨pending.set p c, declared, tally⟩ := feed_below_licenses hp hopened hmem
        rw [hsame, licenseFeed_outside hmem, ok_bind, ok_bind]
        exact hrest c

end

/-! ### Arrays of components -/

theorem componentsOfItems_append (items items' : List (JsonTree (Scalar δ))) :
    componentsOfItems .ending (items ++ items') =
      componentsOfItems .ending items ++ componentsOfItems .ending items' := by
  induction items with
  | nil => rfl
  | cons t items ih => simp [componentsOfItems, ih]

/-- Components are open above a position only. -/
def OpenedAbove (p : Position) (pending : Dict Position (Component δ)) : Prop :=
  ∀ k, (pending.get k).isSome = true → componentPath k = true ∧ k.length < p.length

/-- The events of a value among the components are rejected exactly where the value or a component nested in it is,
and else record them. -/
def Taken (parse : Str → Option PackageUrl) (t : JsonTree (Scalar δ)) : Prop :=
  ∀ (p : Position) (pending : Dict Position (Component δ)) (declared : Dict Str (Scalar δ))
    (cs : List (JsonTree (Scalar δ))) (depth : Nat), alternates p = true → OpenedAbove (p ++ componentSuffix) pending →
    Readable depth t → Within parse (cs ++ (componentsBelow .ending t ++ [t])) →
    Settles Error.Rejects (∃ c ∈ componentsBelow .ending t ++ [t], badComponent c = true)
      ⟨pending, declared, tallyOf parse (cs ++ (componentsBelow .ending t ++ [t]))⟩
      (feedAll (Walk.feed parse) ⟨pending, declared, tallyOf parse cs⟩ (t.trace (p ++ componentSuffix)))

section

variable {pending : Dict Position (Component δ)} {declared : Dict Str (Scalar δ)} {cs : List (JsonTree (Scalar δ))}
  {depth : Nat}

private theorem items_settles {items : List (JsonTree (Scalar δ))} (htaken : ∀ t ∈ items, Taken parse t)
    (hread : ∀ t ∈ items, Readable depth t) (hp : alternates p = true)
    (hopened : OpenedAbove (p ++ componentSuffix) pending)
    (hwithin : Within parse (cs ++ componentsOfItems .ending items)) :
    Settles Error.Rejects (∃ c ∈ componentsOfItems .ending items, badComponent c = true)
      ⟨pending, declared, tallyOf parse (cs ++ componentsOfItems .ending items)⟩
      (feedAll (Walk.feed parse) ⟨pending, declared, tallyOf parse cs⟩ (itemTrace (p ++ componentsSuffix) items)) := by
  induction items generalizing cs with
  | nil =>
    rw [componentsOfItems, List.append_nil]
    exact .ok (by simp)
  | cons t items ih =>
    have hsplit : componentsOfItems .ending (t :: items) =
        (componentsBelow .ending t ++ [t]) ++ componentsOfItems .ending items := by
      simp [componentsOfItems]
    have hposition : p ++ componentsSuffix ++ [none] = p ++ componentSuffix := by
      rw [List.append_assoc]
      rfl
    rw [hsplit, ← List.append_assoc] at hwithin
    rw [itemTrace, feedAll_append, hposition, hsplit, ← List.append_assoc]
    have hhead := htaken t List.mem_cons_self p pending declared cs depth hp hopened (hread t List.mem_cons_self)
      hwithin.of_append
    have htail := @ih (cs ++ (componentsBelow .ending t ++ [t])) (fun t ht => htaken t (List.mem_cons_of_mem _ ht))
      (fun t ht => hread t (List.mem_cons_of_mem _ ht)) hwithin
    refine (hhead.bind fun _ => htail).congr ?_
    simp only [List.mem_append, or_and_right, exists_or]

/-- The events of what is under `components`. -/
theorem components_settles {t : JsonTree (Scalar δ)} (htaken : ∀ item ∈ itemsOf t, Taken parse item)
    (hread : Readable depth t) (hp : alternates p = true) (hopened : OpenedAbove (p ++ componentSuffix) pending)
    (hwithin : Within parse (cs ++ componentsIn .ending t)) :
    Settles Error.Rejects ((!isArray t) = true ∨ ∃ c ∈ componentsIn .ending t, badComponent c = true)
      ⟨pending, declared, tallyOf parse (cs ++ componentsIn .ending t)⟩
      (feedAll (Walk.feed parse) ⟨pending, declared, tallyOf parse cs⟩ (t.trace (p ++ componentsSuffix))) := by
  cases t with
  | scalar value =>
    rw [trace, feedAll_cons, feed_components hp fun name => by simp]
    exact .error (Or.inl rfl) trivial
  | object members =>
    rw [trace, feedAll_cons, feed_components hp fun name => by simp]
    exact .error (Or.inl rfl) trivial
  | array items =>
    cases hread with
    | array hdepth hitems =>
      have hend : ∀ w : Walk δ, w.feed parse (p ++ componentsSuffix) .endArray = .ok w := by
        intro w
        rw [feed_components hp fun name => by simp]
        rfl
      have hstart : ∀ w : Walk δ, w.feed parse (p ++ componentsSuffix) .startArray = .ok w := by
        intro w
        rw [feed_components hp fun name => by simp]
        rfl
      have hcomponents := @items_settles δ parse p pending declared cs (depth + 1) items htaken hitems hp hopened hwithin
      rw [trace, feedAll_cons, hstart, ok_bind, feedAll_append]
      refine (hcomponents.map ?_).congr ?_
      · rw [feedAll_cons, hend]
        rfl
      · exact ⟨Or.inr, fun h => h.resolve_left Bool.false_ne_true⟩

end

/-! ### Members of a component -/

/-- A component and the components recorded so far, with one more member of the component. -/
def takeMember (a : Component δ × List (JsonTree (Scalar δ))) (m : Str × JsonTree (Scalar δ)) :
    Component δ × List (JsonTree (Scalar δ)) :=
  if m.1 = "components".toList then (a.1, a.2 ++ componentsIn .ending m.2)
  else if m.1 = "licenses".toList then ((itemsOf m.2).foldl Component.takeChoice a.1, a.2)
  else if m.1 ∈ Walk.COMPONENT_FIELDS then
    ((scalarOf m.2).elim a.1 fun value => { a.1 with fields := a.1.fields.set m.1 value }, a.2)
  else a

/-- What a member of a component is rejected for. -/
def badMember (m : Str × JsonTree (Scalar δ)) : Prop :=
  (m.1 = "components".toList ∧ ((!isArray m.2) = true ∨ ∃ c ∈ componentsIn .ending m.2, badComponent c = true)) ∨
    (m.1 = "licenses".toList ∧ (!isArray m.2 || (itemsOf m.2).any badChoice) = true)

section

variable {pending : Dict Position (Component δ)} {declared : Dict Str (Scalar δ)} {cs : List (JsonTree (Scalar δ))}
  {depth : Nat} {c : Component δ} {name : Str} {t : JsonTree (Scalar δ)}

theorem OpenedAbove.opened (h : OpenedAbove p pending) : Opened pending := fun k hk => (h k hk).1

theorem OpenedAbove.set (h : OpenedAbove p pending) (hpath : componentPath p = true) :
    OpenedAbove (p ++ componentSuffix) (pending.set p c) := by
  intro k hk
  rw [Dict.get_set] at hk
  rw [List.length_append]
  by_cases heq : k = p
  · subst heq
    exact ⟨hpath, by simp [componentSuffix]⟩
  · rw [if_neg heq] at hk
    obtain ⟨hcomponent, hlength⟩ := h k hk
    exact ⟨hcomponent, by omega⟩

private theorem field_ne {name : Str} (hfield : name ∈ Walk.COMPONENT_FIELDS) :
    name ≠ "components".toList ∧ name ≠ "licenses".toList := by
  revert name
  decide

/-- A field of the innermost component. -/
private theorem feedAll_field (hpath : componentPath p = true) (hopened : OpenedAbove p pending)
    (hfield : name ∈ Walk.COMPONENT_FIELDS) :
    feedAll (Walk.feed parse) ⟨pending.set p c, declared, tallyOf parse cs⟩ (t.trace (p ++ [some name])) =
      .ok ⟨pending.set p ((scalarOf t).elim c fun value => { c with fields := c.fields.set name value }), declared,
        tallyOf parse cs⟩ := by
  obtain ⟨hcomponents, hlicenses⟩ := field_ne hfield
  have hp : alternates p = true := (Bool.and_eq_true _ _ ▸ hpath).2
  cases t with
  | scalar value =>
    have hpositive : 0 < p.length := by
      apply List.length_pos_of_ne_nil
      rintro rfl
      cases hpath
    have hlength : ¬ (p ++ [some name]).length = 1 := by
      rw [List.length_append, List.length_singleton]
      omega
    have hnot : [some name] ∈ LICENSE_SUFFIXES →
        (⟨pending.set p c, declared, tallyOf parse cs⟩ : Walk δ).pending.get p = none := fun hmem =>
      absurd (Option.some.inj (Option.some.inj (begins_of_mem _ hmem).2)) hlicenses
    rw [trace, feedAll_cons, feed_scalar hp (hopened.set hpath).opened (not_prefix_of_name hcomponents [])
      (List.cons_ne_nil _ _) (ne_componentsSuffix hcomponents []) hnot, if_neg hlength, List.dropLast_concat,
      List.getLast?_concat, Dict.get_set, if_pos (Eq.refl p)]
    dsimp only [Option.bind_some, id]
    rw [if_pos hfield]
    show Except.ok (⟨(pending.set p c).set p _, declared, tallyOf parse cs⟩ : Walk δ) = _
    rw [show (pending.set p c).set p { c with fields := c.fields.set name value } = pending.set p _ from
      AList.insert_insert _]
    rfl
  | array items =>
    exact feedAll_ignored hp (hopened.set hpath).opened hcomponents (fun h => absurd h hlicenses)
      fun value h => by cases h
  | object members =>
    exact feedAll_ignored hp (hopened.set hpath).opened hcomponents (fun h => absurd h hlicenses)
      fun value h => by cases h

private theorem feed_unknown {w : Walk δ} {value : Scalar δ} (hpath : componentPath p = true)
    (hopened : OpenedAbove p pending) (hcomponents : name ≠ "components".toList) (hlicenses : name ≠ "licenses".toList)
    (hfield : name ∉ Walk.COMPONENT_FIELDS) (hw : w.pending = pending.set p c) :
    w.feed parse (p ++ [some name]) (.scalar value) = .ok w := by
  have hp : alternates p = true := (Bool.and_eq_true _ _ ▸ hpath).2
  have hpositive : 0 < p.length := by
    apply List.length_pos_of_ne_nil
    rintro rfl
    cases hpath
  have hlength : ¬ (p ++ [some name]).length = 1 := by
    rw [List.length_append, List.length_singleton]
    omega
  have hnot : [some name] ∈ LICENSE_SUFFIXES → w.pending.get p = none := fun hmem =>
    absurd (Option.some.inj (Option.some.inj (begins_of_mem _ hmem).2)) hlicenses
  have hopened' : Opened w.pending := by
    rw [hw]
    exact (hopened.set hpath).opened
  rw [feed_scalar hp hopened' (not_prefix_of_name hcomponents []) (List.cons_ne_nil _ _)
    (ne_componentsSuffix hcomponents []) hnot, if_neg hlength, List.dropLast_concat, List.getLast?_concat, hw,
    Dict.get_set, if_pos (Eq.refl p)]
  exact if_neg hfield

/-- A member of the innermost component. -/
private theorem member_settles {a : Component δ × List (JsonTree (Scalar δ))} {m : Str × JsonTree (Scalar δ)}
    (hpath : componentPath p = true) (hopened : OpenedAbove p pending) (hread : Readable depth m.2)
    (htaken : ∀ item ∈ itemsOf m.2, Taken parse item) (hwithin : Within parse (takeMember a m).2)
    (hlicenses : m.1 = "licenses".toList → a.1.licenses = none ∧ (∀ choice ∈ itemsOf m.2, ShortTexts choice) ∧
      ((itemsOf m.2).filterMap declarationOf).eraseDups.length ≤ MAX_LICENSES) :
    Settles Error.Rejects (badMember m)
      ⟨pending.set p (takeMember a m).1, declared, tallyOf parse (takeMember a m).2⟩
      (feedAll (Walk.feed parse) ⟨pending.set p a.1, declared, tallyOf parse a.2⟩ (m.2.trace (p ++ [some m.1]))) := by
  obtain ⟨name, t⟩ := m
  have hp : alternates p = true := (Bool.and_eq_true _ _ ▸ hpath).2
  unfold takeMember badMember at *
  dsimp only at *
  by_cases hcomponents : name = "components".toList
  · have hother : name ≠ "licenses".toList := by
      rw [hcomponents]
      decide
    rw [if_pos hcomponents] at hwithin ⊢
    rw [hcomponents]
    refine (components_settles htaken hread hp (hopened.set hpath) hwithin).congr ?_
    constructor
    · intro hbad
      exact Or.inl ⟨rfl, hbad⟩
    · rintro (⟨-, hbad⟩ | ⟨h, -⟩)
      · exact hbad
      · exact absurd (hcomponents.trans h) hother
  · by_cases hname : name = "licenses".toList
    · obtain ⟨hnone, hshort, hcount⟩ := hlicenses hname
      have htrace : t.trace (p ++ licensesSuffix) = (t.trace licensesSuffix).map fun e => (p ++ e.1, e.2) :=
        trace_append t p licensesSuffix
      have hevents := @feedAll_licenses δ parse p a.1 pending declared (tallyOf parse a.2) (t.trace licensesSuffix) hp
        (hopened.set hpath).opened fun e he => prefix_of_mem_trace he
      have hposition : p ++ [some name] = p ++ licensesSuffix := by
        rw [hname]
        rfl
      rw [if_neg hcomponents, if_pos hname, hposition, htrace, hevents]
      refine ((licenses_settles hnone hread hshort hcount).map
        (f := fun c => Except.ok (⟨pending.set p c, declared, tallyOf parse a.2⟩ : Walk δ)) rfl).congr ?_
      constructor
      · intro hbad
        exact Or.inr ⟨hname, hbad⟩
      · rintro (⟨h, -⟩ | ⟨-, hbad⟩)
        · exact absurd h hcomponents
        · exact hbad
    · have hgood : ¬ badMember (name, t) := by
        rintro (⟨h, -⟩ | ⟨h, -⟩)
        · exact hcomponents h
        · exact hname h
      rw [if_neg hcomponents, if_neg hname]
      by_cases hfield : name ∈ Walk.COMPONENT_FIELDS
      · rw [if_pos hfield, feedAll_field hpath hopened hfield]
        exact .ok hgood
      · rw [if_neg hfield, feedAll_ignored hp (hopened.set hpath).opened hcomponents (fun h => absurd h hname)
          fun value _ => feed_unknown hpath hopened hcomponents hname hfield rfl]
        exact .ok hgood

end

/-! ### Components -/

section

variable {members : List (Str × JsonTree (Scalar δ))} {a : Component δ × List (JsonTree (Scalar δ))} {depth : Nat}

private theorem mem_componentsOfMembers {c : JsonTree (Scalar δ)} : c ∈ componentsOfMembers .ending members ↔
    ∃ m ∈ members, m.1 = "components".toList ∧ c ∈ componentsIn .ending m.2 := by
  induction members with
  | nil => simp [componentsOfMembers]
  | cons m members ih =>
    obtain ⟨name, t⟩ := m
    simp only [List.mem_cons, or_and_right, exists_or, exists_eq_left]
    rw [componentsOfMembers]
    by_cases hname : name = "components".toList
    · rw [if_pos hname, List.mem_append, ih, and_iff_right hname]
    · rw [if_neg hname, ih, or_iff_right fun hboth => hname hboth.1]

theorem componentsOfMembers_append (members members' : List (Str × JsonTree (Scalar δ))) :
    componentsOfMembers .ending (members ++ members') =
      componentsOfMembers .ending members ++ componentsOfMembers .ending members' := by
  induction members with
  | nil => rfl
  | cons m members ih =>
    obtain ⟨name, t⟩ := m
    rw [List.cons_append, componentsOfMembers, componentsOfMembers, ih]
    split
    · rw [List.append_assoc]
    · rfl

/-- The components that the members of a component record. -/
private theorem foldl_takeMember_snd : (members.foldl takeMember a).2 = a.2 ++ componentsOfMembers .ending members := by
  induction members generalizing a with
  | nil => rw [componentsOfMembers, List.append_nil, List.foldl_nil]
  | cons m members ih =>
    obtain ⟨name, t⟩ := m
    rw [List.foldl_cons, ih, componentsOfMembers]
    unfold takeMember
    dsimp only
    split_ifs <;> simp

private theorem takeMember_licenses {m : Str × JsonTree (Scalar δ)} (hname : m.1 = "licenses".toList) :
    (takeMember a m).1 = (itemsOf m.2).foldl Component.takeChoice a.1 := by
  have hne : ¬ m.1 = "components".toList := by
    rw [hname]
    decide
  unfold takeMember
  rw [if_neg hne, if_pos hname]

private theorem takeMember_of_ne {m : Str × JsonTree (Scalar δ)} (hname : m.1 ≠ "licenses".toList) :
    (takeMember a m).1.licenses = a.1.licenses := by
  unfold takeMember
  rw [if_neg hname]
  split_ifs
  · rfl
  · cases scalarOf m.2 <;> rfl
  · rfl

/-- No licenses are read before the member that has them. -/
private theorem licenses_before {done rest : List (Str × JsonTree (Scalar δ))} {m : Str × JsonTree (Scalar δ)}
    (hnodup : ((done ++ m :: rest).map Prod.fst).Nodup) (hname : m.1 = "licenses".toList) (hnone : a.1.licenses = none) :
    (done.foldl takeMember a).1.licenses = none := by
  have hnot : "licenses".toList ∉ done.map Prod.fst := by
    intro hmem
    rw [List.map_append, List.nodup_append] at hnodup
    exact hnodup.2.2 _ hmem _ List.mem_cons_self hname.symm
  have hkept := @foldl_other Str (JsonTree (Scalar δ)) (Component δ × List (JsonTree (Scalar δ))) _ done
    "licenses".toList takeMember (fun a => a.1.licenses) a hnot fun a m hm => takeMember_of_ne hm
  rw [hkept]
  exact hnone

/-- The fields of a component are the scalars of its members. -/
private theorem foldl_takeMember_fields {name : Str} (hfield : name ∈ Walk.COMPONENT_FIELDS)
    (hnodup : (members.map Prod.fst).Nodup) (hempty : a.1.fields.get name = none) :
    (members.foldl takeMember a).1.fields.get name = (members.lookup name).bind scalarOf := by
  obtain ⟨hcomponents, hlicenses⟩ := field_ne hfield
  have hslot := @foldl_slot Str (JsonTree (Scalar δ)) (Component δ × List (JsonTree (Scalar δ))) _ _ _ members name
    takeMember (fun a => a.1.fields.get name) scalarOf a hnodup
    (fun a' m hm hname hkept => by
      unfold takeMember
      rw [hname, if_neg hcomponents, if_neg hlicenses, if_pos hfield]
      cases hvalue : scalarOf m.2 with
      | none => exact hkept.trans hempty
      | some value =>
        show (a'.1.fields.set name value).get name = some value
        rw [Dict.get_set, if_pos rfl])
    (fun a' m hname => by
      unfold takeMember
      split_ifs
      · rfl
      · rw [fields_foldl_takeChoice]
      · cases hvalue : scalarOf m.2 with
        | none => rfl
        | some value =>
          show (a'.1.fields.set m.1 value).get name = a'.1.fields.get name
          rw [Dict.get_set, if_neg hname.symm]
      · rfl)
  rw [hslot]
  cases members.lookup name with
  | none => exact hempty
  | some t => rfl

/-- The licenses of a component are those of its member. -/
private theorem foldl_takeMember_licenses (hnodup : (members.map Prod.fst).Nodup) (hnone : a.1.licenses = none) :
    (members.foldl takeMember a).1.licenses.getD [] = declarationsOf (.object members) := by
  have hempty : a.1.licenses.getD [] = [] := by rw [hnone]; rfl
  have hslot := @foldl_slot Str (JsonTree (Scalar δ)) (Component δ × List (JsonTree (Scalar δ))) _ _ _ members
    "licenses".toList takeMember (fun a => a.1.licenses.getD [])
    (fun t => ((itemsOf t).filterMap declarationOf).eraseDups) a hnodup
    (fun a' m hm hname hkept => by
      rw [takeMember_licenses hname, licenses_foldl_takeChoice, hkept, hempty]
      exact foldl_concat_eq_eraseDups _)
    (fun a' m hname => by rw [takeMember_of_ne hname])
  have hmember : member "licenses".toList (.object members) = members.lookup "licenses".toList := rfl
  unfold declarationsOf choicesOf
  rw [hslot, hmember, hempty]
  cases members.lookup "licenses".toList <;> rfl

/-- What has been read of a component shows it. -/
private theorem shows_foldl_takeMember (hread : Readable depth (.object members)) (cs : List (JsonTree (Scalar δ))) :
    Shows (members.foldl takeMember ((⟨∅, none, none⟩ : Component δ), cs)).1 (.object members) :=
  ⟨fun _ hfield => foldl_takeMember_fields hfield hread.nodup rfl, foldl_takeMember_licenses hread.nodup rfl⟩

theorem exists_bad_below : (∃ c ∈ componentsBelow .ending (.object members), badComponent c = true) ↔
    ∃ m ∈ members, m.1 = "components".toList ∧ ∃ c ∈ componentsIn .ending m.2, badComponent c = true := by
  constructor
  · rintro ⟨c, hc, hbad⟩
    obtain ⟨m, hm, hname, hin⟩ := mem_componentsOfMembers.1 hc
    exact ⟨m, hm, hname, c, hin, hbad⟩
  · rintro ⟨m, hm, hname, c, hin, hbad⟩
    exact ⟨c, mem_componentsOfMembers.2 ⟨m, hm, hname, hin⟩, hbad⟩

/-- What a component and those nested in it are rejected for. -/
private theorem bad_iff (hread : Readable depth (.object members)) :
    ((∃ m ∈ members, badMember m) ∨ (isLicensed (.object members) &&
        (badName "name".toList (.object members) || badName "version".toList (.object members))) = true) ↔
      ∃ c ∈ componentsBelow .ending (.object members) ++ [.object members], badComponent c = true := by
  have hcomponents := @any_lookup_iff Str (JsonTree (Scalar δ)) _ _ members "components".toList
    (fun t => !isArray t) hread.nodup
  have hlicenses := @any_lookup_iff Str (JsonTree (Scalar δ)) _ _ members "licenses".toList
    (fun t => !isArray t || (itemsOf t).any badChoice) hread.nodup
  have hself : badComponent (.object members) = true ↔
      ((∃ m ∈ members, m.1 = "components".toList ∧ (!isArray m.2) = true) ∨
        (∃ m ∈ members, m.1 = "licenses".toList ∧ (!isArray m.2 || (itemsOf m.2).any badChoice) = true)) ∨
      (isLicensed (.object members) &&
        (badName "name".toList (.object members) || badName "version".toList (.object members))) = true := by
    rw [← hcomponents, ← hlicenses, ← Bool.or_eq_true, ← Bool.or_eq_true]
    rfl
  simp only [List.mem_append, List.mem_singleton, or_and_right, exists_or, exists_eq_left, hself, exists_bad_below]
  constructor
  · rintro (⟨m, hm, ⟨hname, harray | hin⟩ | ⟨hname, hbad⟩⟩ | hnames)
    · exact Or.inr (Or.inl (Or.inl ⟨m, hm, hname, harray⟩))
    · exact Or.inl ⟨m, hm, hname, hin⟩
    · exact Or.inr (Or.inl (Or.inr ⟨m, hm, hname, hbad⟩))
    · exact Or.inr (Or.inr hnames)
  · rintro (⟨m, hm, hname, hin⟩ | (⟨m, hm, hname, harray⟩ | ⟨m, hm, hname, hbad⟩) | hnames)
    · exact Or.inl ⟨m, hm, Or.inl ⟨hname, Or.inr hin⟩⟩
    · exact Or.inl ⟨m, hm, Or.inl ⟨hname, Or.inl harray⟩⟩
    · exact Or.inl ⟨m, hm, Or.inr ⟨hname, hbad⟩⟩
    · exact Or.inr hnames

private theorem pop_set {pending : Dict Position (Component δ)} {c : Component δ} (hnone : pending.get p = none) :
    (pending.set p c).pop p = pending := by
  have hnot : p ∉ pending := AList.lookup_eq_none.1 hnone
  apply AList.ext
  show ((AList.insert p c pending).entries).kerase p = pending.entries
  rw [AList.entries_insert_of_notMem hnot]
  exact List.kerase_cons_eq rfl

theorem OpenedAbove.get_eq_none {pending : Dict Position (Component δ)} (h : OpenedAbove p pending) :
    pending.get p = none := by
  rw [← Option.not_isSome_iff_eq_none]
  intro hsome
  exact absurd (h p hsome).2 (lt_irrefl _)

/-- The end of the innermost component, which is recorded. -/
private theorem feed_endMap {pending : Dict Position (Component δ)} {c : Component δ} {declared : Dict Str (Scalar δ)}
    {tally : Tally} (hp : alternates p = true) (hopened : OpenedAbove (p ++ componentSuffix) pending) :
    Walk.feed parse ⟨pending.set (p ++ componentSuffix) c, declared, tally⟩ (p ++ componentSuffix) .endMap =
      tally.record parse c >>= fun tally => .ok ⟨pending, declared, tally⟩ := by
  rw [feed_component hp fun name => by simp]
  unfold Walk.component
  dsimp only
  rw [Dict.get_set, if_pos (Eq.refl _), demand, ok_bind, pop_set hopened.get_eq_none]
  rfl

/-- The licenses of a component within the limits. -/
private theorem Within.licenses_of_mem {cs : List (JsonTree (Scalar δ))} {m : Str × JsonTree (Scalar δ)}
    (h : Within parse cs) (hc : .object members ∈ cs) (hread : Readable depth (.object members)) (hm : m ∈ members)
    (hname : m.1 = "licenses".toList) : (∀ choice ∈ itemsOf m.2, ShortTexts choice) ∧
      ((itemsOf m.2).filterMap declarationOf).eraseDups.length ≤ MAX_LICENSES := by
  have hfound : member "licenses".toList (.object members) = some m.2 := by
    rw [← hname]
    exact (lookup_eq_some_iff_mem hread.nodup).2 hm
  have hchoices : choicesOf (.object members) = itemsOf m.2 := by
    unfold choicesOf
    rw [hfound]
    rfl
  have hcount := h.declarations _ hc
  unfold declarationsOf at hcount
  rw [hchoices] at hcount
  refine ⟨fun choice hchoice => ?_, hcount⟩
  exact h.choices _ hc choice (by rw [hchoices]; exact hchoice)

/-- The events of a component. -/
private theorem component_settles (htaken : ∀ m ∈ members, ∀ item ∈ itemsOf m.2, Taken parse item) :
    Taken parse (.object members) := by
  intro p pending declared cs depth hp hopened hread hwithin
  have hpath : componentPath (p ++ componentSuffix) = true := by
    rw [componentPath_append hp (by decide)]
    decide
  have hall : cs ++ (componentsBelow .ending (.object members) ++ [.object members]) =
      (cs ++ componentsOfMembers .ending members) ++ [.object members] := by
    rw [List.append_assoc]
    rfl
  rw [hall] at hwithin ⊢
  have hself : JsonTree.object members ∈ (cs ++ componentsOfMembers .ending members) ++ [.object members] :=
    List.mem_append_right _ (List.mem_singleton_self _)
  have hstart : Walk.feed parse ⟨pending, declared, tallyOf parse cs⟩ (p ++ componentSuffix) .startMap =
      .ok ⟨pending.set (p ++ componentSuffix) ⟨∅, none, none⟩, declared, tallyOf parse cs⟩ := by
    rw [feed_component hp fun name => by simp]
    rfl
  have hmembers := @Settles.foldlM Error (Walk δ) (Str × JsonTree (Scalar δ))
    (Component δ × List (JsonTree (Scalar δ))) Error.Rejects members
    (fun w m => feedAll (Walk.feed parse) w (m.2.trace (p ++ componentSuffix ++ [some m.1]))) takeMember
    (fun a => ⟨pending.set (p ++ componentSuffix) a.1, declared, tallyOf parse a.2⟩) badMember
    (⟨∅, none, none⟩, cs) (by
      intro done m rest hsplit
      have hin : m ∈ members := by
        rw [hsplit]
        simp
      have hnodup : ((done ++ m :: rest).map Prod.fst).Nodup := hsplit ▸ hread.nodup
      apply member_settles hpath hopened (hread.member hin) (htaken m hin)
      · -- the components up to this member are the first of all
        have hfirst : (takeMember (done.foldl takeMember (⟨∅, none, none⟩, cs)) m).2 =
            cs ++ componentsOfMembers .ending (done ++ [m]) := by
          have hconcat := @foldl_takeMember_snd δ (done ++ [m]) (⟨∅, none, none⟩, cs)
          rwa [List.foldl_append] at hconcat
        have hrest : cs ++ componentsOfMembers .ending members =
            cs ++ componentsOfMembers .ending (done ++ [m]) ++ componentsOfMembers .ending rest := by
          rw [List.append_assoc, ← componentsOfMembers_append, hsplit]
          simp
        rw [hfirst]
        have hbefore := hwithin.of_append
        rw [hrest] at hbefore
        exact hbefore.of_append
      · intro hname
        exact ⟨licenses_before hnodup hname rfl, hwithin.licenses_of_mem hself hread hin hname⟩)
  have hsecond : (members.foldl takeMember ((⟨∅, none, none⟩ : Component δ), cs)).2 =
      cs ++ componentsOfMembers .ending members := foldl_takeMember_snd
  have hrecord := record_settles (shows_foldl_takeMember hread cs) hwithin
  have hend : Settles Error.Rejects ((isLicensed (.object members) &&
      (badName "name".toList (.object members) || badName "version".toList (.object members))) = true)
      (⟨pending, declared, tallyOf parse ((cs ++ componentsOfMembers .ending members) ++ [.object members])⟩ : Walk δ)
      (feedAll (Walk.feed parse) ⟨pending.set (p ++ componentSuffix)
        (members.foldl takeMember ((⟨∅, none, none⟩ : Component δ), cs)).1, declared,
        tallyOf parse (cs ++ componentsOfMembers .ending members)⟩ [(p ++ componentSuffix, .endMap)]) := by
    rw [feedAll_cons, feed_endMap hp hopened]
    exact (hrecord.map (f := fun tally => Except.ok (⟨pending, declared, tally⟩ : Walk δ)) rfl).map rfl
  rw [trace, feedAll_cons, hstart, ok_bind, feedAll_append, feedAll_memberTrace fun w name => rfl]
  rw [hsecond] at hmembers
  exact (hmembers.bind fun _ => hend).congr (bad_iff hread)

/-- The events of every value among the components. -/
theorem taken (t : JsonTree (Scalar δ)) : Taken parse t ∧ ∀ item ∈ itemsOf t, Taken parse item := by
  induction t with
  | scalar value =>
    refine ⟨?_, fun item hitem => by cases hitem⟩
    intro p pending declared cs depth hp hopened hread hwithin
    rw [trace, feedAll_cons, feed_component hp fun name => by simp]
    exact .error ⟨_, List.mem_singleton_self _, rfl⟩ trivial
  | array items ih =>
    refine ⟨?_, fun item hitem => (ih item hitem).1⟩
    intro p pending declared cs depth hp hopened hread hwithin
    rw [trace, feedAll_cons, feed_component hp fun name => by simp]
    exact .error ⟨_, List.mem_singleton_self _, rfl⟩ trivial
  | object members ih =>
    exact ⟨component_settles fun m hm => (ih m hm).2, fun item hitem => by cases hitem⟩

end

end Streaming

end TrustedReleases
