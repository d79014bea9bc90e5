import TrustedReleases.Streaming.Projection

/-!
# What a projection is

The projection of a streamed document is its restriction to the paths of the fields (`restrict`), apart from the marks
of the objects that have members.  It fails exactly where a value other than `null` and objects stands in the place of
an object, where a record is not an object, and where records are asked for and there is no array of them.
-/

namespace TrustedReleases

open Lib JsonTree

namespace Streaming

variable {δ φ : Type} {fields : Finset Position} {float : δ → φ} {p q : Position} {t : JsonTree (Scalar δ)}
  {r : JsonTree (Scalar φ)}

/-- No field lies below another. -/
def PrefixFree (fields : Finset Position) : Prop := ∀ path ∈ fields, ∀ other ∈ fields, path <+: other → path = other

private theorem mem_paths : p ∈ paths fields ↔ ∃ path ∈ fields, p <+: path := by
  simp [paths]

private theorem mem_objects : p ∈ objects fields ↔ p ∈ paths fields ∧ p ∉ fields ∧ p ≠ [] := by
  simp [objects, and_assoc]

private theorem mem_paths_of_append (h : p ++ q ∈ paths fields) : p ∈ paths fields := by
  obtain ⟨path, hpath, hinitial⟩ := mem_paths.1 h
  exact mem_paths.2 ⟨path, hpath, (List.prefix_append p q).trans hinitial⟩

private theorem mem_paths_of_mem (h : p ∈ fields) : p ∈ paths fields := mem_paths.2 ⟨p, h, List.prefix_rfl⟩

/-- Nothing below a field is on the way to another. -/
private theorem PrefixFree.notMem_paths (hfields : PrefixFree fields) (hp : p ∈ fields) {x : Option Str} :
    p ++ [x] ∉ paths fields := by
  intro hmem
  obtain ⟨path, hpath, hinitial⟩ := mem_paths.1 hmem
  have heq : p = path := hfields p hp path hpath ((List.prefix_append p [x]).trans hinitial)
  have hlength := hinitial.length_le
  rw [← heq, List.length_append, List.length_singleton] at hlength
  omega

/-! ### The restriction -/

section Restrict

variable (fields) (float)

mutual

/-- A document at a path, restricted to the paths of the fields: a field that is an array has as many placeholders, and
a field that is an object is empty. -/
def restrict (p : Position) : JsonTree (Scalar δ) → JsonTree (Scalar φ)
  | .scalar value => .scalar (projectScalar float value)
  | .array items => .array (items.map fun _ => .scalar .null)
  | .object members => .object (restrictMembers p members)

def restrictMembers (p : Position) : List (Str × JsonTree (Scalar δ)) → List (Str × JsonTree (Scalar φ))
  | [] => []
  | (name, t) :: members =>
    if p ++ [some name] ∈ paths fields then (name, restrict (p ++ [some name]) t) :: restrictMembers p members
    else restrictMembers p members

end

mutual

/-- The restriction in which each member marks its object. -/
def observed (p : Position) : JsonTree (Scalar δ) → JsonTree (Scalar φ)
  | .scalar value => .scalar (projectScalar float value)
  | .array items => .array (items.map fun _ => .scalar .null)
  | .object members => .object (observedMembers p members [])

def observedMembers (p : Position) :
    List (Str × JsonTree (Scalar δ)) → List (Str × JsonTree (Scalar φ)) → List (Str × JsonTree (Scalar φ))
  | [], kept => kept
  | (name, t) :: members, kept =>
    let kept := if p ∈ paths fields then setMember observedName (.scalar (.boolean true)) kept else kept
    let kept :=
      if p ++ [some name] ∈ paths fields then setMember name (observed (p ++ [some name]) t) kept else kept
    observedMembers p members kept

end

end Restrict

mutual

/-- A record without its marks. -/
def unmarked : JsonTree (Scalar φ) → JsonTree (Scalar φ)
  | .scalar value => .scalar value
  | .array items => .array items
  | .object members => .object (unmarkedMembers members)

def unmarkedMembers : List (Str × JsonTree (Scalar φ)) → List (Str × JsonTree (Scalar φ))
  | [] => []
  | (name, t) :: members =>
    if name = observedName then unmarkedMembers members else (name, unmarked t) :: unmarkedMembers members

end

/-- A value other than `null` and objects stands where a path needs an object. -/
inductive Clash (fields : Finset Position) : Position → JsonTree (Scalar δ) → Prop
  | scalar {p : Position} {value : Scalar δ} : p ∈ objects fields → value ≠ .null → Clash fields p (.scalar value)
  | array {p : Position} {items : List (JsonTree (Scalar δ))} : p ∈ objects fields → Clash fields p (.array items)
  | member {p : Position} {name : Str} {t : JsonTree (Scalar δ)} {members : List (Str × JsonTree (Scalar δ))} :
    (name, t) ∈ members → Clash fields (p ++ [some name]) t → Clash fields p (.object members)

/-- A document within the limits of a projection. -/
inductive Small (fields : Finset Position) : Position → JsonTree (Scalar δ) → Prop
  | scalar {p : Position} {value : Scalar δ} :
    (∀ text ∈ eventText (.scalar value), text.length ≤ MAX_FIELD) → Small fields p (.scalar value)
  | outside {p : Position} {t : JsonTree (Scalar δ)} : p ∉ paths fields → Small fields p t
  | array {p : Position} {items : List (JsonTree (Scalar δ))} :
    (p ∈ fields → items.length ≤ MAX_PACKAGES) → Small fields p (.array items)
  | object {p : Position} {members : List (Str × JsonTree (Scalar δ))} :
    (∀ m ∈ members, Small fields (p ++ [some m.1]) m.2) → Small fields p (.object members)

/-! ### Events that change nothing -/

/-- What is done with an event that brings a value in. -/
private theorem feed_of_value {event : JsonEvent (Scalar δ)} {value : JsonTree (Scalar φ)}
    (hvalue : eventValue float event = some value) : projectionFeed fields float r p event =
      if p.getLast? = some none ∧ p.dropLast ∈ fields then placeholder p.dropLast r
      else if p ∉ paths fields then .ok r
      else (do
        raiseIf (p ∈ objects fields ∧ objectOrNull event = false)
          (.malformed "Provider member %r must be an object" (p.getLast?.bind id))
        raiseIf (∃ text ∈ eventText event, MAX_FIELD < text.length)
          (.limit "Provider field exceeds the analysis limit")
        setPath p value r) := by
  have hsome : (eventValue float event).isSome = true := by
    rw [hvalue]
    rfl
  cases event with
  | mapKey name => cases hvalue
  | endMap => cases hvalue
  | endArray => cases hvalue
  | scalar _ =>
    unfold projectionFeed
    dsimp only
    rw [if_pos hsome, hvalue]
  | startMap =>
    unfold projectionFeed
    dsimp only
    rw [if_pos hsome, hvalue]
  | startArray =>
    unfold projectionFeed
    dsimp only
    rw [if_pos hsome, hvalue]

/-- A value that ends changes nothing. -/
private theorem feed_of_end {event : JsonEvent (Scalar δ)} (h : event = .endMap ∨ event = .endArray) :
    projectionFeed fields float r p event = .ok r := by
  rcases h with rfl | rfl
  · exact ite_self _
  · exact ite_self _

/-- A position that is neither on the way to a field nor that of an item of one. -/
def Quiet (fields : Finset Position) (p : Position) : Prop :=
  p ∉ paths fields ∧ ¬ (p.getLast? = some none ∧ p.dropLast ∈ fields)

private theorem quiet_append {x : Option Str} (h : p ∉ paths fields) : Quiet fields (p ++ [x]) := by
  refine ⟨fun hmem => h (mem_paths_of_append hmem), ?_⟩
  rintro ⟨-, hmem⟩
  rw [List.dropLast_concat] at hmem
  exact h (mem_paths_of_mem hmem)

private theorem feed_quiet (h : Quiet fields p) (event : JsonEvent (Scalar δ)) :
    projectionFeed fields float r p event = .ok r := by
  cases event with
  | mapKey name => exact if_neg h.1
  | endMap => exact feed_of_end (Or.inl rfl)
  | endArray => exact feed_of_end (Or.inr rfl)
  | scalar value => rw [feed_of_value rfl, if_neg h.2, if_pos h.1]
  | startMap => rw [feed_of_value rfl, if_neg h.2, if_pos h.1]
  | startArray => rw [feed_of_value rfl, if_neg h.2, if_pos h.1]

private theorem feedAll_itemTrace_quiet {items : List (JsonTree (Scalar δ))}
    (h : ∀ t ∈ items, feedAll (projectionFeed fields float) r (t.trace (p ++ [none])) = .ok r) :
    feedAll (projectionFeed fields float) r (itemTrace p items) = .ok r := by
  induction items with
  | nil => rfl
  | cons t items ih =>
    rw [itemTrace, feedAll_append, h t List.mem_cons_self, ok_bind]
    exact ih fun t ht => h t (List.mem_cons_of_mem _ ht)

private theorem feedAll_memberTrace_quiet {members : List (Str × JsonTree (Scalar δ))} (hp : p ∉ paths fields)
    (h : ∀ m ∈ members, feedAll (projectionFeed fields float) r (m.2.trace (p ++ [some m.1])) = .ok r) :
    feedAll (projectionFeed fields float) r (memberTrace p members) = .ok r := by
  induction members with
  | nil => rfl
  | cons m members ih =>
    obtain ⟨name, t⟩ := m
    have hkey : projectionFeed fields float r p (.mapKey name) = .ok r := if_neg hp
    rw [memberTrace, feedAll_cons, hkey, ok_bind, feedAll_append, h (name, t) List.mem_cons_self, ok_bind]
    exact ih fun m hm => h m (List.mem_cons_of_mem _ hm)

private theorem feedAll_quiet (t : JsonTree (Scalar δ)) (h : Quiet fields p) :
    feedAll (projectionFeed fields float) r (t.trace p) = .ok r := by
  induction t generalizing p with
  | scalar value =>
    rw [trace, feedAll_cons, feed_quiet h]
    rfl
  | array items ih =>
    rw [trace, feedAll_cons, feed_quiet h, ok_bind, feedAll_append,
      feedAll_itemTrace_quiet fun t ht => ih t ht (quiet_append h.1), ok_bind, feedAll_cons, feed_quiet h]
    rfl
  | object members ih =>
    rw [trace, feedAll_cons, feed_quiet h, ok_bind, feedAll_append,
      feedAll_memberTrace_quiet h.1 fun m hm => ih m hm (quiet_append h.1), ok_bind, feedAll_cons, feed_quiet h]
    rfl

/-! ### Fields that are arrays -/

/-- The first event of an item of a field puts a placeholder in. -/
private theorem feed_item (hp : p ∈ fields) {event : JsonEvent (Scalar δ)} {value : JsonTree (Scalar φ)}
    (hvalue : eventValue float event = some value) :
    projectionFeed fields float r (p ++ [none]) event = placeholder p r := by
  rw [feed_of_value hvalue, List.dropLast_concat, if_pos ⟨List.getLast?_concat, hp⟩]

/-- An item of a field puts one placeholder in, whatever it is. -/
private theorem feedAll_item (hfields : PrefixFree fields) (hp : p ∈ fields) (t : JsonTree (Scalar δ)) :
    feedAll (projectionFeed fields float) r (t.trace (p ++ [none])) = placeholder p r := by
  have hout : p ++ [none] ∉ paths fields := hfields.notMem_paths hp
  cases t with
  | scalar value =>
    rw [trace, feedAll_cons, feed_item hp rfl]
    cases placeholder p r <;> rfl
  | array items =>
    rw [trace, feedAll_cons, feed_item hp rfl]
    cases placeholder p r with
    | error e => rfl
    | ok r' =>
      rw [ok_bind, feedAll_append, feedAll_itemTrace_quiet fun t _ => feedAll_quiet t (quiet_append hout), ok_bind,
        feedAll_cons, feed_of_end (Or.inr rfl)]
      rfl
  | object members =>
    rw [trace, feedAll_cons, feed_item hp rfl]
    cases placeholder p r with
    | error e => rfl
    | ok r' =>
      rw [ok_bind, feedAll_append, feedAll_memberTrace_quiet hout fun m _ => feedAll_quiet m.2 (quiet_append hout),
        ok_bind, feedAll_cons, feed_of_end (Or.inl rfl)]
      rfl

private theorem placeholder_ok {r' : JsonTree (Scalar φ)} {values : List (JsonTree (Scalar φ))}
    (hset : setAt p (.array values) r = some r') (hlength : values.length < MAX_PACKAGES) :
    ∃ r'', setAt p (.array (values ++ [.scalar .null])) r = some r'' ∧ placeholder p r' = .ok r'' := by
  obtain ⟨hsame, hsome⟩ := @setAt_setAt _ p (.array values) (.array (values ++ [.scalar .null])) r r' hset
  obtain ⟨r'', hr''⟩ := Option.isSome_iff_exists.1 hsome
  refine ⟨r'', hr'', ?_⟩
  unfold placeholder
  rw [getAt_setAt hset]
  dsimp only
  rw [raiseIf, if_neg (not_le.2 hlength), ok_bind, setPath, hsame, hr'']
  rfl

/-- The items of a field put in as many placeholders. -/
private theorem feedAll_items (hfields : PrefixFree fields) (hp : p ∈ fields) {items : List (JsonTree (Scalar δ))}
    {values : List (JsonTree (Scalar φ))} {r' : JsonTree (Scalar φ)} (hset : setAt p (.array values) r = some r')
    (hlength : values.length + items.length ≤ MAX_PACKAGES) :
    ∃ r'', setAt p (.array (values ++ items.map fun _ => .scalar .null)) r = some r'' ∧
      feedAll (projectionFeed fields float) r' (itemTrace p items) = .ok r'' := by
  induction items generalizing values r' with
  | nil =>
    refine ⟨r', ?_, rfl⟩
    rw [List.map_nil, List.append_nil]
    exact hset
  | cons t items ih =>
    rw [List.length_cons] at hlength
    obtain ⟨r₁, hset₁, hplace⟩ := placeholder_ok hset (by omega)
    have hcount : (values ++ [JsonTree.scalar Scalar.null]).length + items.length ≤ MAX_PACKAGES := by
      rw [List.length_append, List.length_singleton]
      omega
    obtain ⟨r'', hset'', hrest⟩ := ih hset₁ hcount
    refine ⟨r'', ?_, ?_⟩
    · rw [List.append_assoc] at hset''
      exact hset''
    · rw [itemTrace, feedAll_append, feedAll_item hfields hp, hplace, ok_bind]
      exact hrest

/-! ### Values on the way to fields -/

/-- The outcome of a value that is taken in at a path: it fails if there is a clash, and is put in otherwise. -/
structure TakenIn (clash : Prop) (p : Position) (value r : JsonTree (Scalar φ))
    (outcome : Except Error (JsonTree (Scalar φ))) : Prop where
  clashes : clash → ∃ text shown, outcome = .error (.malformed text shown)
  fits : ¬ clash → ∃ r', setAt p value r = some r' ∧ outcome = .ok r'

private theorem PrefixFree.not_item (hfields : PrefixFree fields) (hp : p ∈ paths fields) :
    ¬ (p.getLast? = some none ∧ p.dropLast ∈ fields) := by
  rintro ⟨hlast, hmem⟩
  rw [← List.dropLast_append_getLast? _ hlast] at hp
  exact hfields.notMem_paths hmem hp

/-- The first event of a value at a path on the way to a field. -/
private theorem feed_first (hfields : PrefixFree fields) (hp : p ∈ paths fields) {event : JsonEvent (Scalar δ)}
    {value : JsonTree (Scalar φ)} (hvalue : eventValue float event = some value)
    (hshort : ∀ text ∈ eventText event, text.length ≤ MAX_FIELD) (hset : (setAt p value r).isSome) :
    TakenIn (p ∈ objects fields ∧ objectOrNull event = false) p value r
      (projectionFeed fields float r p event) := by
  obtain ⟨r', hr'⟩ := Option.isSome_iff_exists.1 hset
  have hfits : ¬ ∃ text ∈ eventText event, MAX_FIELD < text.length := by
    rintro ⟨text, hmem, hlong⟩
    have htext := hshort text hmem
    omega
  constructor
  · intro hclash
    refine ⟨"Provider member %r must be an object", p.getLast?.bind id, ?_⟩
    rw [feed_of_value hvalue, if_neg (hfields.not_item hp), if_neg (not_not.2 hp), raiseIf, if_pos hclash]
    rfl
  · intro hnot
    refine ⟨r', hr', ?_⟩
    rw [feed_of_value hvalue, if_neg (hfields.not_item hp), if_neg (not_not.2 hp), raiseIf, if_neg hnot, ok_bind, raiseIf,
      if_neg hfits, ok_bind, setPath, hr']
    rfl

private theorem Clash.mem_paths (h : Clash fields p t) : p ∈ paths fields := by
  induction h with
  | scalar hobject _ => exact (mem_objects.1 hobject).1
  | array hobject => exact (mem_objects.1 hobject).1
  | member _ _ ih => exact mem_paths_of_append ih

/-- The mark of a member. -/
private theorem feed_mapKey (hp : p ∈ paths fields) {kept : List (Str × JsonTree (Scalar φ))} {r' : JsonTree (Scalar φ)}
    (hset : setAt p (.object kept) r = some r') (name : Str) :
    ∃ r'', setAt p (.object (setMember observedName (.scalar (.boolean true)) kept)) r = some r'' ∧
      projectionFeed fields float r' p (.mapKey name) = .ok r'' := by
  obtain ⟨r'', hr''⟩ := Option.isSome_iff_exists.1
    (@setAt_setAt _ p _ (.object (setMember observedName (.scalar (.boolean true)) kept)) r r' hset).2
  refine ⟨r'', hr'', ?_⟩
  unfold projectionFeed
  dsimp only
  rw [if_pos hp, setPath, setAt_append hset, hr'']
  rfl

/-- The members of an object, each of which is taken in. -/
private theorem feedAll_members (hp : p ∈ paths fields) {members : List (Str × JsonTree (Scalar δ))}
    {kept : List (Str × JsonTree (Scalar φ))} {r' : JsonTree (Scalar φ)}
    (hvalues : ∀ m ∈ members, ∀ r, p ++ [some m.1] ∈ paths fields →
      (setAt (p ++ [some m.1]) (.object []) r).isSome → TakenIn (Clash fields (p ++ [some m.1]) m.2) (p ++ [some m.1])
        (observed fields float (p ++ [some m.1]) m.2) r
        (feedAll (projectionFeed fields float) r (m.2.trace (p ++ [some m.1]))))
    (hset : setAt p (.object kept) r = some r') :
    TakenIn (∃ m ∈ members, Clash fields (p ++ [some m.1]) m.2) p
      (.object (observedMembers fields float p members kept)) r
      (feedAll (projectionFeed fields float) r' (memberTrace p members)) := by
  induction members generalizing kept r' with
  | nil =>
    refine ⟨?_, fun _ => ⟨r', hset, rfl⟩⟩
    rintro ⟨m, hm, -⟩
    cases hm
  | cons m members ih =>
    obtain ⟨name, t⟩ := m
    obtain ⟨r₁, hset₁, hkey⟩ := @feed_mapKey δ φ fields float p r hp kept r' hset name
    have hrest {kept r'} := @ih kept r' fun m hm => hvalues m (List.mem_cons_of_mem _ hm)
    rw [memberTrace, feedAll_cons, hkey, ok_bind, feedAll_append, observedMembers, if_pos hp]
    by_cases hname : p ++ [some name] ∈ paths fields
    · rw [if_pos hname]
      have hsettable : (setAt (p ++ [some name]) (.object []) r₁).isSome := by
        rw [setAt_append hset₁]
        exact (setAt_setAt hset₁).2
      have hvalue := hvalues (name, t) List.mem_cons_self r₁ hname hsettable
      by_cases hclash : Clash fields (p ++ [some name]) t
      · obtain ⟨text, shown, herror⟩ := hvalue.clashes hclash
        rw [herror, error_bind]
        exact ⟨fun _ => ⟨text, shown, rfl⟩, fun hnot => absurd ⟨(name, t), List.mem_cons_self, hclash⟩ hnot⟩
      · obtain ⟨r₂, hset₂, hok⟩ := hvalue.fits hclash
        rw [setAt_append hset₁] at hset₂
        rw [hok, ok_bind]
        have htaken := hrest hset₂
        constructor
        · rintro ⟨m, hm, hclashes⟩
          rcases List.mem_cons.1 hm with rfl | hm
          · exact absurd hclashes hclash
          · exact htaken.clashes ⟨m, hm, hclashes⟩
        · intro hnot
          refine htaken.fits ?_
          rintro ⟨m, hm, hclashes⟩
          exact hnot ⟨m, List.mem_cons_of_mem _ hm, hclashes⟩
    · have hquiet : feedAll (projectionFeed fields float) r₁ (t.trace (p ++ [some name])) = .ok r₁ := by
        refine feedAll_quiet t ⟨hname, ?_⟩
        rw [List.getLast?_concat]
        rintro ⟨hlast, -⟩
        cases hlast
      rw [if_neg hname, hquiet, ok_bind]
      have htaken := hrest hset₁
      constructor
      · rintro ⟨m, hm, hclashes⟩
        rcases List.mem_cons.1 hm with rfl | hm
        · exact absurd hclashes.mem_paths hname
        · exact htaken.clashes ⟨m, hm, hclashes⟩
      · intro hnot
        refine htaken.fits ?_
        rintro ⟨m, hm, hclashes⟩
        exact hnot ⟨m, List.mem_cons_of_mem _ hm, hclashes⟩

/-- A scalar is put in where no object is expected. -/
private theorem feedAll_scalar (hfields : PrefixFree fields) (value : Scalar δ) (hp : p ∈ paths fields)
    (hsmall : Small fields p (.scalar value)) (hsettable : ∀ u : JsonTree (Scalar φ), (setAt p u r).isSome) :
    TakenIn (Clash fields p (.scalar value)) p (observed fields float p (.scalar value)) r
      (feedAll (projectionFeed fields float) r ((JsonTree.scalar value).trace p)) := by
  have hshort : ∀ text ∈ eventText (.scalar value), text.length ≤ MAX_FIELD := by
    cases hsmall with
    | scalar hshort => exact hshort
    | outside hout => exact absurd hp hout
  have hfirst := feed_first hfields hp (rfl : eventValue float (.scalar value) = _) hshort (hsettable _)
  have hclash : Clash fields p (.scalar value) ↔ p ∈ objects fields ∧ objectOrNull (.scalar value) = false := by
    constructor
    · rintro (⟨hobject, hnull⟩ | _)
      refine ⟨hobject, ?_⟩
      cases value with
      | null => exact absurd rfl hnull
      | boolean b => rfl
      | integer n => rfl
      | decimal d => rfl
      | string s => rfl
    · rintro ⟨hobject, hnot⟩
      refine .scalar hobject ?_
      rintro rfl
      cases hnot
  rw [trace, feedAll_cons, observed]
  constructor
  · intro h
    obtain ⟨text, shown, herror⟩ := hfirst.clashes (hclash.1 h)
    exact ⟨text, shown, by rw [herror, error_bind]⟩
  · intro h
    obtain ⟨r', hset', hok⟩ := hfirst.fits fun hbad => h (hclash.2 hbad)
    exact ⟨r', hset', by rw [hok, ok_bind, feedAll_nil]⟩

/-- An array at the path of a field is put in with the number of its items, and it clashes elsewhere. -/
private theorem feedAll_array (hfields : PrefixFree fields) (items : List (JsonTree (Scalar δ))) (hp : p ∈ paths fields)
    (hne : p ≠ []) (hsmall : Small fields p (.array items))
    (hsettable : ∀ u : JsonTree (Scalar φ), (setAt p u r).isSome) :
    TakenIn (Clash fields p (.array items)) p (observed fields float p (.array items)) r
      (feedAll (projectionFeed fields float) r ((JsonTree.array items).trace p)) := by
  have hfirst := feed_first hfields hp (rfl : eventValue float (.startArray : JsonEvent (Scalar δ)) = _)
    (fun text hmem => by cases hmem) (hsettable (.array []))
  rw [trace, feedAll_cons, observed]
  constructor
  · intro h
    cases h with
    | array hobject =>
      obtain ⟨text, shown, herror⟩ := hfirst.clashes ⟨hobject, rfl⟩
      exact ⟨text, shown, by rw [herror, error_bind]⟩
  · intro h
    obtain ⟨r', hset', hok⟩ := hfirst.fits fun hbad => h (.array hbad.1)
    -- the path is that of a field, for an array elsewhere clashes
    have hfield : p ∈ fields := by
      by_contra hnot
      exact h (.array (mem_objects.2 ⟨hp, hnot, hne⟩))
    have hlength : items.length ≤ MAX_PACKAGES := by
      cases hsmall with
      | array hlength => exact hlength hfield
      | outside hout => exact absurd hp hout
    obtain ⟨r'', hset'', hitems⟩ := @feedAll_items δ φ fields float p r hfields hfield items [] r' hset'
      (by rw [List.length_nil, Nat.zero_add]; exact hlength)
    refine ⟨r'', hset'', ?_⟩
    rw [hok, ok_bind, feedAll_append, hitems, ok_bind, feedAll_cons, feed_of_end (Or.inr rfl)]
    rfl

/-- A value at a path on the way to a field is restricted, and is put in there. -/
private theorem feedAll_value (hfields : PrefixFree fields) (t : JsonTree (Scalar δ)) (hp : p ∈ paths fields)
    (hroot : p = [] → ∃ members, t = .object members) (hsmall : Small fields p t)
    (hset : (setAt p (.object []) r).isSome) : TakenIn (Clash fields p t) p (observed fields float p t) r
      (feedAll (projectionFeed fields float) r (t.trace p)) := by
  obtain ⟨r₀, hr₀⟩ := Option.isSome_iff_exists.1 hset
  have hsettable (value : JsonTree (Scalar φ)) : (setAt p value r).isSome := (setAt_setAt hr₀).2
  induction t generalizing p r r₀ with
  | scalar value => exact feedAll_scalar hfields value hp hsmall hsettable
  | array items ih =>
    refine feedAll_array hfields items hp ?_ hsmall hsettable
    intro hnil
    obtain ⟨members, hmembers⟩ := hroot hnil
    cases hmembers
  | object members ih =>
    have hfirst := feed_first hfields hp (rfl : eventValue float (.startMap : JsonEvent (Scalar δ)) = _)
      (fun text hmem => by cases hmem) (hsettable (.object []))
    obtain ⟨r', hset', hok⟩ := hfirst.fits fun hbad => by cases hbad.2
    have hmembers := @feedAll_members δ φ fields float p r hp members [] r' (fun m hm r hname hset => by
      obtain ⟨r₁, hr₁⟩ := Option.isSome_iff_exists.1 hset
      refine ih m hm hname (fun hnil => absurd hnil (by simp)) ?_ hset r₁ hr₁ fun value => (setAt_setAt hr₁).2
      cases hsmall with
      | object hsmall => exact hsmall m hm
      | outside hout => exact absurd hp hout) hset'
    have hclash : Clash fields p (.object members) ↔ ∃ m ∈ members, Clash fields (p ++ [some m.1]) m.2 := by
      constructor
      · intro h
        cases h with
        | member hm hclash => exact ⟨_, hm, hclash⟩
      · rintro ⟨m, hm, hclash⟩
        exact .member hm hclash
    rw [trace, feedAll_cons, hok, ok_bind, feedAll_append, observed]
    constructor
    · intro h
      obtain ⟨text, shown, herror⟩ := hmembers.clashes (hclash.1 h)
      exact ⟨text, shown, by rw [herror, error_bind]⟩
    · intro h
      obtain ⟨r'', hset'', hall⟩ := hmembers.fits fun hbad => h (hclash.2 hbad)
      refine ⟨r'', hset'', ?_⟩
      rw [hall, ok_bind, feedAll_cons, feed_of_end (Or.inl rfl)]
      rfl

/-! ### Without the marks -/

private theorem unmarkedMembers_append (members members' : List (Str × JsonTree (Scalar φ))) :
    unmarkedMembers (members ++ members') = unmarkedMembers members ++ unmarkedMembers members' := by
  induction members with
  | nil => rfl
  | cons m members ih =>
    obtain ⟨name, t⟩ := m
    rw [List.cons_append, unmarkedMembers, unmarkedMembers, ih]
    split <;> rfl

private theorem unmarkedMembers_observe (t : JsonTree (Scalar φ)) (members : List (Str × JsonTree (Scalar φ))) :
    unmarkedMembers (setMember observedName t members) = unmarkedMembers members := by
  induction members with
  | nil => simp [setMember, unmarkedMembers]
  | cons m members ih =>
    obtain ⟨name, u⟩ := m
    unfold setMember
    by_cases hname : name = observedName
    · rw [if_pos hname, unmarkedMembers, if_pos rfl, unmarkedMembers, if_pos hname]
    · rw [if_neg hname, unmarkedMembers, if_neg hname, unmarkedMembers, if_neg hname, ih]

private theorem setMember_fresh {name : Str} {t : JsonTree (Scalar φ)} {members : List (Str × JsonTree (Scalar φ))}
    (h : name ∉ members.map Prod.fst) : setMember name t members = members ++ [(name, t)] := by
  induction members with
  | nil => rfl
  | cons m members ih =>
    rw [List.map_cons, List.mem_cons, not_or] at h
    unfold setMember
    rw [if_neg fun heq => h.1 heq.symm, ih h.2, List.cons_append]

private theorem names_setMember {name : Str} {t : JsonTree (Scalar φ)} {members : List (Str × JsonTree (Scalar φ))}
    {q : Str}
    (h : q ∈ (setMember name t members).map Prod.fst) : q = name ∨ q ∈ members.map Prod.fst := by
  induction members with
  | nil => exact Or.inl (List.mem_singleton.1 h)
  | cons m members ih =>
    unfold setMember at h
    split at h
    · rw [List.map_cons, List.mem_cons] at h
      rcases h with hq | hq
      · exact Or.inl hq
      · exact Or.inr (List.mem_cons_of_mem _ hq)
    · rw [List.map_cons, List.mem_cons] at h
      rcases h with hq | hq
      · exact Or.inr (by rw [hq]; exact List.mem_cons_self)
      · rcases ih hq with hq | hq
        · exact Or.inl hq
        · exact Or.inr (List.mem_cons_of_mem _ hq)

/-- The names under which other members are put in are fresh. -/
def Fresh (kept : List (Str × JsonTree (Scalar φ))) (members : List (Str × JsonTree (Scalar δ))) : Prop :=
  ∀ name ∈ members.map Prod.fst, name ≠ observedName → name ∉ kept.map Prod.fst

private theorem unmarkedMembers_observedMembers {members : List (Str × JsonTree (Scalar δ))}
    {kept : List (Str × JsonTree (Scalar φ))} (hnodup : (members.map Prod.fst).Nodup) (hfresh : Fresh kept members)
    (h : ∀ m ∈ members, ∀ p, unmarked (observed fields float p m.2) = unmarked (restrict fields float p m.2)) :
    unmarkedMembers (observedMembers fields float p members kept) =
      unmarkedMembers kept ++ unmarkedMembers (restrictMembers fields float p members) := by
  induction members generalizing kept with
  | nil => simp [observedMembers, restrictMembers, unmarkedMembers]
  | cons m members ih =>
    obtain ⟨name, t⟩ := m
    rw [List.map_cons, List.nodup_cons] at hnodup
    have hrest := fun m hm => h m (List.mem_cons_of_mem _ hm)
    rw [observedMembers, restrictMembers]
    -- the mark makes no difference
    generalize hkept' : (if p ∈ paths fields then setMember observedName (.scalar (.boolean true)) kept else kept) = kept'
    have hmark : unmarkedMembers kept' = unmarkedMembers kept := by
      rw [← hkept']
      split
      · exact unmarkedMembers_observe _ _
      · rfl
    have hfresh' : Fresh kept' ((name, t) :: members) := by
      intro q hq hne hmem
      rw [← hkept'] at hmem
      split at hmem
      · rcases names_setMember hmem with hobserved | hmem
        · exact hne hobserved
        · exact hfresh q hq hne hmem
      · exact hfresh q hq hne hmem
    by_cases hname : p ++ [some name] ∈ paths fields
    · rw [if_pos hname, if_pos hname]
      by_cases hobserved : name = observedName
      · have hafter : Fresh (setMember name (observed fields float (p ++ [some name]) t) kept') members := by
          intro q hq hne hmem
          rcases names_setMember hmem with hq' | hmem
          · exact hne (hq'.trans hobserved)
          · exact hfresh' q (List.mem_cons_of_mem _ hq) hne hmem
        rw [ih hnodup.2 hafter hrest, unmarkedMembers, if_pos hobserved, ← hmark, hobserved, unmarkedMembers_observe]
      · have hnew : name ∉ kept'.map Prod.fst := hfresh' name List.mem_cons_self hobserved
        have hafter : Fresh (setMember name (observed fields float (p ++ [some name]) t) kept') members := by
          intro q hq hne hmem
          rcases names_setMember hmem with rfl | hmem
          · exact hnodup.1 hq
          · exact hfresh' q (List.mem_cons_of_mem _ hq) hne hmem
        rw [ih hnodup.2 hafter hrest, setMember_fresh hnew, unmarkedMembers_append, hmark, unmarkedMembers,
          if_neg hobserved, unmarkedMembers, unmarkedMembers, if_neg hobserved, h (name, t) List.mem_cons_self,
          List.append_assoc]
        rfl
    · have hafter : Fresh kept' members := fun q hq => hfresh' q (List.mem_cons_of_mem _ hq)
      rw [if_neg hname, if_neg hname, ih hnodup.2 hafter hrest, hmark]

/-- Apart from the marks, a document is restricted to the paths of the fields. -/
private theorem unmarked_observed {depth : Nat} (hread : Readable depth t) (p : Position) :
    unmarked (observed fields float p t) = unmarked (restrict fields float p t) := by
  induction t generalizing depth p with
  | scalar value => rfl
  | array items => rfl
  | object members ih =>
    cases hread with
    | object hdepth hnodup hcount hchars hshort hvalues =>
      have hmembers := @unmarkedMembers_observedMembers δ φ fields float p members [] hnodup
        (fun _ _ _ => List.not_mem_nil) fun m hm p => ih m hm (hvalues m hm) p
      rw [observed, restrict, unmarked, unmarked, hmembers]
      rfl

/-! ### Records -/

/-- The events at the root of an object between its first and its last are those of its members. -/
private theorem mapKey_of_mem {members : List (Str × JsonTree (Scalar δ))} {e : Position × JsonEvent (Scalar δ)}
    (h : e ∈ memberTrace [] members) (hroot : e.1 = []) : ∃ name, e.2 = .mapKey name := by
  obtain ⟨m, -, rfl | hinitial⟩ := mem_memberTrace h
  · exact ⟨m.1, rfl⟩
  · rw [hroot] at hinitial
    exact absurd (List.prefix_nil.1 hinitial) (by simp)

private theorem projectFeed_single {s : Projecting φ} {event : JsonEvent (Scalar δ)}
    (h : p = [] → containerEvent false event = true) : projectFeed fields float false s p event =
      projectionFeed fields float s.record p event >>= fun record => .ok { s with record := record } := by
  have hcontainer : ¬ (p = [] ∧ containerEvent false event = false) := by
    rintro ⟨hp, hevent⟩
    rw [h hp] at hevent
    cases hevent
  unfold projectFeed
  rw [raiseIf, if_neg hcontainer, ok_bind, if_neg (by simp), if_neg (by simp)]
  rfl

private theorem feedAll_single {s : Projecting φ} {trace : List (Position × JsonEvent (Scalar δ))}
    (h : ∀ e ∈ trace, e.1 = [] → containerEvent false e.2 = true) : feedAll (projectFeed fields float false) s trace =
      feedAll (projectionFeed fields float) s.record trace >>= fun record => .ok { s with record := record } := by
  induction trace generalizing s with
  | nil => rfl
  | cons e trace ih =>
    obtain ⟨path, event⟩ := e
    rw [feedAll_cons, feedAll_cons, projectFeed_single (h (path, event) List.mem_cons_self)]
    cases projectionFeed fields float s.record path event with
    | error e => rfl
    | ok record =>
      rw [ok_bind, ok_bind, ok_bind]
      exact ih fun e he => h e (List.mem_cons_of_mem _ he)

/-- An event of a record other than its last. -/
private theorem projectFeed_record {s : Projecting φ} {event : JsonEvent (Scalar δ)}
    (h : p = [] → event = .startMap ∨ ∃ name, event = .mapKey name) :
    projectFeed fields float true s ([none] ++ p) event =
      projectionFeed fields float s.record p event >>= fun record => .ok { s with record := record } := by
  unfold projectFeed
  rw [raiseIf, if_neg fun hboth => List.cons_ne_nil _ _ hboth.1, ok_bind, if_neg fun hboth => List.cons_ne_nil _ _ hboth.1]
  by_cases hp : p = []
  · subst hp
    rcases h rfl with rfl | ⟨name, rfl⟩ <;> rfl
  · have hinner : ¬ (true = true ∧ [none] ++ p = [none]) := fun hboth => hp (List.cons.inj hboth.2).2
    dsimp only
    rw [if_neg hinner]
    rfl

private theorem feedAll_record {s : Projecting φ} {trace : List (Position × JsonEvent (Scalar δ))}
    (h : ∀ e ∈ trace, e.1 = [] → e.2 = .startMap ∨ ∃ name, e.2 = .mapKey name) :
    feedAll (projectFeed fields float true) s (trace.map fun e => ([none] ++ e.1, e.2)) =
      feedAll (projectionFeed fields float) s.record trace >>= fun record => .ok { s with record := record } := by
  induction trace generalizing s with
  | nil => rfl
  | cons e trace ih =>
    obtain ⟨path, event⟩ := e
    rw [List.map_cons, feedAll_cons, feedAll_cons, projectFeed_record (h (path, event) List.mem_cons_self)]
    cases projectionFeed fields float s.record path event with
    | error e => rfl
    | ok record =>
      rw [ok_bind, ok_bind, ok_bind]
      exact ih fun e he => h e (List.mem_cons_of_mem _ he)

/-- The last event of a record completes it. -/
private theorem projectFeed_end {s : Projecting φ} (hcount : s.records.length < MAX_PACKAGES) :
    projectFeed fields float true s [none] (.endMap : JsonEvent (Scalar δ)) =
      .ok ⟨s.record, s.records ++ [s.record]⟩ := by
  have hlength : ¬ MAX_PACKAGES < (s.records ++ [s.record]).length := by
    rw [List.length_append, List.length_singleton]
    omega
  unfold projectFeed boundary
  dsimp only
  rw [raiseIf, if_neg fun hboth => List.cons_ne_nil _ _ hboth.1, ok_bind, if_neg fun hboth => List.cons_ne_nil _ _ hboth.1,
    if_pos ⟨rfl, rfl⟩, raiseIf, if_neg hlength, ok_bind, pure_eq_ok, ok_bind, feed_of_end (Or.inl rfl)]
  rfl

/-- Without fields, a record stays empty. -/
private theorem observedMembers_outside {members : List (Str × JsonTree (Scalar δ))}
    {kept : List (Str × JsonTree (Scalar φ))}
    (hp : p ∉ paths fields) : observedMembers fields float p members kept = kept := by
  induction members generalizing kept with
  | nil => rfl
  | cons m members ih =>
    obtain ⟨name, t⟩ := m
    rw [observedMembers, if_neg hp, if_neg fun hmem => hp (mem_paths_of_append hmem), ih]

/-- An object is taken in at the root. -/
private theorem feedAll_root (hfields : PrefixFree fields) {members : List (Str × JsonTree (Scalar δ))}
    (hsmall : Small fields [] (.object members)) (hempty : [] ∉ paths fields → r = .object []) :
    TakenIn (Clash fields [] (.object members)) [] (observed fields float [] (.object members)) r
      (feedAll (projectionFeed fields float) r ((JsonTree.object members).trace [])) := by
  by_cases hroot : [] ∈ paths fields
  · exact feedAll_value hfields _ hroot (fun _ => ⟨members, rfl⟩) hsmall rfl
  · have hquiet : Quiet fields [] := ⟨hroot, fun hboth => by cases hboth.1⟩
    refine ⟨fun hclash => absurd hclash.mem_paths hroot, fun _ => ⟨_, rfl, ?_⟩⟩
    rw [feedAll_quiet _ hquiet, hempty hroot, observed, observedMembers_outside hroot]

/-- What is returned for a document, which is rejected under a condition. -/
structure Returns {α : Type} (rejected : Prop) (result : α) (outcome : Except Error α) : Prop where
  rejects : rejected → ∃ text shown, outcome = .error (.malformed text shown)
  accepts : ¬ rejected → outcome = .ok result

def IsObject (t : JsonTree (Scalar δ)) : Prop := ∃ members, t = .object members

/-- The records of an array. -/
def recordsOf : JsonTree (Scalar δ) → Option (List (JsonTree (Scalar δ)))
  | .array items => some items
  | _ => none

/-- A record that is not an object, or in which there is a clash. -/
def BadRecord (fields : Finset Position) (t : JsonTree (Scalar δ)) : Prop := ¬ IsObject t ∨ Clash fields [] t

/-- Records within the limits of a projection. -/
def SmallRecords (fields : Finset Position) (t : JsonTree (Scalar δ)) : Prop :=
  ∀ items ∈ recordsOf t, items.length ≤ MAX_PACKAGES ∧ ∀ item ∈ items, Small fields [] item

/-- A record that is not an object is rejected with its first event. -/
private theorem feedAll_notObject {s : Projecting φ} (h : ¬ IsObject t) : ∃ text shown,
    feedAll (projectFeed fields float true) s (t.trace [none]) = .error (.malformed text shown) := by
  refine ⟨"Invalid provider record", none, ?_⟩
  cases t with
  | scalar value => rfl
  | array items => rfl
  | object members => exact absurd ⟨members, rfl⟩ h

/-- An object is taken in as a record. -/
private theorem feedAll_object (hfields : PrefixFree fields) {s : Projecting φ}
    {members : List (Str × JsonTree (Scalar δ))}
    (hsmall : Small fields [] (.object members)) (hempty : [] ∉ paths fields → s.record = .object [])
    (hcount : s.records.length < MAX_PACKAGES) :
    Returns (Clash fields [] (.object members))
      (⟨observed fields float [] (.object members), s.records ++ [observed fields float [] (.object members)]⟩ :
        Projecting φ)
      (feedAll (projectFeed fields float true) s ((JsonTree.object members).trace [none])) := by
  have htaken := @feedAll_root δ φ fields float s.record hfields members hsmall hempty
  have htrace : (JsonTree.object members).trace [none] =
      (([], JsonEvent.startMap) :: memberTrace [] members).map (fun e => ([none] ++ e.1, e.2)) ++
        [([none], (.endMap : JsonEvent (Scalar δ)))] := by
    have happend := trace_append (JsonTree.object members) [none] []
    rw [List.append_nil] at happend
    rw [happend, trace, ← List.cons_append, List.map_append]
    rfl
  have hinit : ∀ e ∈ ([], JsonEvent.startMap) :: memberTrace [] members, e.1 = [] →
      e.2 = .startMap ∨ ∃ name, e.2 = .mapKey name := by
    intro e he hroot
    rcases List.mem_cons.1 he with rfl | he
    · exact Or.inl rfl
    · exact Or.inr (mapKey_of_mem he hroot)
  -- the last event of the object changes nothing
  have hwhole : feedAll (projectionFeed fields float) s.record ((JsonTree.object members).trace []) =
      feedAll (projectionFeed fields float) s.record (([], JsonEvent.startMap) :: memberTrace [] members) := by
    rw [trace, ← List.cons_append, feedAll_append]
    cases feedAll (projectionFeed fields float) s.record (([], JsonEvent.startMap) :: memberTrace [] members) with
    | error e => rfl
    | ok r =>
      rw [ok_bind, feedAll_cons, feed_of_end (Or.inl rfl)]
      rfl
  rw [hwhole] at htaken
  rw [htrace, feedAll_append, feedAll_record hinit]
  constructor
  · intro hclash
    obtain ⟨text, shown, herror⟩ := htaken.clashes hclash
    exact ⟨text, shown, by rw [herror, error_bind, error_bind]⟩
  · intro hnot
    obtain ⟨r, hset, hok⟩ := htaken.fits hnot
    rw [setAt] at hset
    obtain rfl := Option.some.inj hset
    have hend := @projectFeed_end δ φ fields float ⟨observed fields float [] (.object members), s.records⟩ hcount
    rw [hok, ok_bind, ok_bind, feedAll_cons, hend, ok_bind, feedAll_nil]

/-- The records of an array are taken in one after the other. -/
private theorem feedAll_records (hfields : PrefixFree fields) {items : List (JsonTree (Scalar δ))} {s : Projecting φ}
    (hsmall : ∀ t ∈ items, Small fields [] t) (hempty : [] ∉ paths fields → s.record = .object [])
    (hcount : s.records.length + items.length ≤ MAX_PACKAGES) :
    ((∃ t ∈ items, BadRecord fields t) → ∃ text shown,
      feedAll (projectFeed fields float true) s (itemTrace [] items) = .error (.malformed text shown)) ∧
    ((¬ ∃ t ∈ items, BadRecord fields t) → ∃ s',
      feedAll (projectFeed fields float true) s (itemTrace [] items) = .ok s' ∧
        s'.records = s.records ++ items.map (observed fields float [])) := by
  induction items generalizing s with
  | nil =>
    refine ⟨?_, fun _ => ⟨s, rfl, by simp⟩⟩
    rintro ⟨t, ht, -⟩
    cases ht
  | cons t items ih =>
    rw [List.length_cons] at hcount
    rw [itemTrace, feedAll_append, List.nil_append]
    by_cases hobject : IsObject t
    · obtain ⟨members, rfl⟩ := hobject
      have hreturns := @feedAll_object δ φ fields float hfields s members (hsmall _ List.mem_cons_self) hempty (by omega)
      by_cases hclash : Clash fields [] (.object members)
      · obtain ⟨text, shown, herror⟩ := hreturns.rejects hclash
        rw [herror, error_bind]
        exact ⟨fun _ => ⟨text, shown, rfl⟩, fun hnot => absurd ⟨_, List.mem_cons_self, Or.inr hclash⟩ hnot⟩
      · rw [hreturns.accepts hclash, ok_bind]
        have hnext : [] ∉ paths fields → observed fields float [] (.object members) = .object [] := by
          intro hroot
          rw [observed, observedMembers_outside hroot]
        have hlength : (s.records ++ [observed fields float [] (.object members)]).length + items.length ≤
            MAX_PACKAGES := by
          rw [List.length_append, List.length_singleton]
          omega
        obtain ⟨hbad, hgood⟩ := @ih ⟨observed fields float [] (.object members),
          s.records ++ [observed fields float [] (.object members)]⟩ (fun t ht => hsmall t (List.mem_cons_of_mem _ ht))
          hnext hlength
        constructor
        · rintro ⟨t, ht, hbadRecord⟩
          rcases List.mem_cons.1 ht with rfl | ht
          · rcases hbadRecord with hnot | hclashes
            · exact absurd ⟨members, rfl⟩ hnot
            · exact absurd hclashes hclash
          · exact hbad ⟨t, ht, hbadRecord⟩
        · intro hnot
          have hrest : ¬ ∃ t ∈ items, BadRecord fields t := by
            rintro ⟨t, ht, hbadRecord⟩
            exact hnot ⟨t, List.mem_cons_of_mem _ ht, hbadRecord⟩
          obtain ⟨s', hok, hrecords⟩ := hgood hrest
          refine ⟨s', hok, ?_⟩
          rw [hrecords, List.map_cons, List.append_assoc]
          rfl
    · obtain ⟨text, shown, herror⟩ := @feedAll_notObject δ φ fields float t s hobject
      rw [herror, error_bind]
      exact ⟨fun _ => ⟨text, shown, rfl⟩, fun hnot => absurd ⟨t, List.mem_cons_self, Or.inl hobject⟩ hnot⟩

/-! ### The two functions -/

/-- What is fed to a projection for the events of a document. -/
private theorem projectEvents_eq (multiple : Bool) (hread : Readable 0 t) :
    projectEvents fields float multiple t.events =
    feedAll (projectFeed fields float multiple) ⟨.object [], []⟩ (t.trace []) >>= fun s =>
      .ok (if multiple then s.records else [s.record]) := by
  have hfollow := @follow_events δ _ (projectFeed fields float multiple) t [] ⟨.object [], []⟩ hread
  unfold projectEvents
  rw [hfollow]
  show (feedAll (projectFeed fields float multiple) _ (t.trace []) >>= _) >>= _ = _
  cases feedAll (projectFeed fields float multiple) (⟨.object [], []⟩ : Projecting φ) (t.trace []) <;> rfl

private theorem project_returns (hfields : PrefixFree fields) (hread : Readable 0 t) (hsmall : Small fields [] t) :
    Returns (BadRecord fields t) (observed fields float [] t) (project fields float t.events) := by
  unfold project
  rw [projectEvents_eq false hread]
  cases t with
  | scalar value =>
    refine ⟨fun _ => ⟨"Invalid provider response", none, rfl⟩, fun hgood => ?_⟩
    exact absurd (Or.inl fun ⟨members, hobject⟩ => by cases hobject) hgood
  | array items =>
    refine ⟨fun _ => ⟨"Invalid provider response", none, rfl⟩, fun hgood => ?_⟩
    exact absurd (Or.inl fun ⟨members, hobject⟩ => by cases hobject) hgood
  | object members =>
    have htaken := @feedAll_root δ φ fields float (.object []) hfields members hsmall fun _ => rfl
    have hcontainer : ∀ e ∈ (JsonTree.object members).trace [], e.1 = [] → containerEvent false e.2 = true := by
      intro e he hroot
      rw [trace, List.mem_cons, List.mem_append, List.mem_singleton] at he
      rcases he with rfl | he | rfl
      · rfl
      · obtain ⟨name, hname⟩ := mapKey_of_mem he hroot
        rw [hname]
        rfl
      · rfl
    rw [feedAll_single hcontainer]
    constructor
    · rintro (hnot | hclash)
      · exact absurd ⟨members, rfl⟩ hnot
      · obtain ⟨text, shown, herror⟩ := htaken.clashes hclash
        exact ⟨text, shown, by rw [herror]; rfl⟩
    · intro hgood
      obtain ⟨r, hset, hok⟩ := htaken.fits fun hclash => hgood (Or.inr hclash)
      rw [setAt] at hset
      obtain rfl := Option.some.inj hset
      rw [hok]
      rfl

private theorem projectRecords_returns (hfields : PrefixFree fields) (hread : Readable 0 t)
    (hsmall : SmallRecords fields t) :
    Returns (recordsOf t = none ∨ ∃ item ∈ (recordsOf t).getD [], BadRecord fields item)
      (((recordsOf t).getD []).map (observed fields float [])) (projectRecords fields float t.events) := by
  unfold projectRecords
  rw [projectEvents_eq true hread]
  cases t with
  | scalar value =>
    refine ⟨fun _ => ⟨"Invalid provider response", none, rfl⟩, fun hgood => ?_⟩
    exact absurd (Or.inl rfl) hgood
  | object members =>
    refine ⟨fun _ => ⟨"Invalid provider response", none, rfl⟩, fun hgood => ?_⟩
    exact absurd (Or.inl rfl) hgood
  | array items =>
    obtain ⟨hlength, hitems⟩ := hsmall items rfl
    obtain ⟨hbad, hgood⟩ := @feedAll_records δ φ fields float hfields items ⟨.object [], []⟩ hitems (fun _ => rfl)
      (by simpa using hlength)
    have hstart (s : Projecting φ) (event : JsonEvent (Scalar δ)) (hevent : containerEvent true event = true) :
        projectFeed fields float true s [] event = .ok s := by
      have hcontainer : ¬ (([] : Position) = [] ∧ containerEvent true event = false) := by
        rintro ⟨-, hnot⟩
        rw [hevent] at hnot
        cases hnot
      unfold projectFeed
      rw [raiseIf, if_neg hcontainer, ok_bind, if_pos ⟨rfl, rfl⟩]
      rfl
    rw [trace, feedAll_cons, hstart _ _ rfl, ok_bind, feedAll_append]
    constructor
    · rintro (hnone | hrejected)
      · cases hnone
      · obtain ⟨text, shown, herror⟩ := hbad hrejected
        exact ⟨text, shown, by rw [herror]; rfl⟩
    · intro hnot
      obtain ⟨s', hok, hrecords⟩ := hgood fun hrejected => hnot (Or.inr hrejected)
      rw [hok, ok_bind, feedAll_cons, hstart _ _ rfl]
      show Except.ok s'.records = _
      rw [hrecords]
      rfl

/-- A projection returns the document restricted to the paths of the fields, and one record is returned for each item of
an array in their order, apart from the marks.  It is rejected exactly where a value other than `null` and objects stands
where a field needs an object, where a record is not an object, and where records are asked for and there is no array. -/
theorem projections_restrict (fields : Finset Position) (float : δ → φ) (doc : JsonTree (Scalar δ))
    (hfields : PrefixFree fields) (hread : Readable 0 doc) :
    (Small fields [] doc → Returns (¬ IsObject doc ∨ Clash fields [] doc) (observed fields float [] doc)
      (project fields float doc.events)) ∧
    (SmallRecords fields doc →
      Returns (recordsOf doc = none ∨ ∃ item ∈ (recordsOf doc).getD [], ¬ IsObject item ∨ Clash fields [] item)
        (((recordsOf doc).getD []).map (observed fields float [])) (projectRecords fields float doc.events)) ∧
    unmarked (observed fields float [] doc) = unmarked (restrict fields float [] doc) ∧
    ∀ item ∈ (recordsOf doc).getD [],
      unmarked (observed fields float [] item) = unmarked (restrict fields float [] item) := by
  refine ⟨project_returns hfields hread, projectRecords_returns hfields hread, unmarked_observed hread [], ?_⟩
  intro item hitem
  cases hread with
  | scalar hshort => cases hitem
  | object => cases hitem
  | array hdepth hitems => exact unmarked_observed (hitems item hitem) []

/-! ### A document with two members, and an array of records -/

def sampleFields : Finset Position := {[some "a".toList, some "x".toList], [some "b".toList]}

def sampleDocument : JsonTree (Scalar Int) :=
  .object [("a".toList, .object [("x".toList, .scalar (.integer 1))]), ("b".toList, .array [.scalar .null])]

private theorem sampleDocument_readable {depth : Nat} (hdepth : depth ≤ 1) : Readable depth sampleDocument := by
  have hroom : depth + 1 < MAX_DEPTH := by
    unfold MAX_DEPTH
    omega
  have hmember : Readable (depth + 1) (.object [("x".toList, .scalar (.integer 1))] : JsonTree (Scalar Int)) := by
    refine .object hroom (by decide) (by decide) (by decide +kernel) (by decide +kernel) ?_
    intro m hm
    rw [List.mem_singleton.1 hm]
    exact .scalar trivial
  have hitems : Readable (depth + 1) (.array [.scalar .null] : JsonTree (Scalar Int)) := by
    refine .array hroom ?_
    intro item hitem
    rw [List.mem_singleton.1 hitem]
    exact .scalar trivial
  refine .object (Nat.lt_of_succ_lt hroom) (by decide) (by decide) (by decide +kernel) (by decide +kernel) ?_
  intro m hm
  rcases List.mem_cons.1 hm with rfl | hm
  · exact hmember
  · rw [List.mem_singleton.1 hm]
    exact hitems

private theorem sampleDocument_small : Small sampleFields [] sampleDocument := by
  refine .object fun m hm => ?_
  rcases List.mem_cons.1 hm with rfl | hm
  · refine .object fun m hm => ?_
    rw [List.mem_singleton.1 hm]
    exact .scalar (by decide)
  · rw [List.mem_singleton.1 hm]
    exact .array fun _ => by decide

private theorem not_clash_sampleDocument : ¬ Clash sampleFields [] sampleDocument := by
  rintro (⟨hobject, -⟩ | ⟨hobject⟩ | ⟨hmem, hclash⟩)
  rcases List.mem_cons.1 hmem with hmem | hmem
  · cases hmem
    rcases hclash with ⟨hobject, -⟩ | ⟨hobject⟩ | ⟨hmem, hclash⟩
    cases List.mem_singleton.1 hmem
    rcases hclash with ⟨hobject, -⟩ | _ | _
    exact absurd hobject (by decide)
  · cases List.mem_singleton.1 hmem
    rcases hclash with _ | ⟨hobject⟩ | _
    exact absurd hobject (by decide)

/-- Two records, of which the second one has none of the fields. -/
def sampleRecords : JsonTree (Scalar Int) := .array [sampleDocument, .object []]

private theorem sampleRecords_readable : Readable 0 sampleRecords := by
  refine .array (by decide) fun item hitem => ?_
  rcases List.mem_cons.1 hitem with rfl | hitem
  · exact sampleDocument_readable le_rfl
  · rw [List.mem_singleton.1 hitem]
    exact .object (by decide) .nil (Nat.zero_le _) (Nat.zero_le _) nofun nofun

/-- What is returned for the document. -/
def sampleRecord : JsonTree (Scalar Int) :=
  .object [(observedName, .scalar (.boolean true)),
    ("a".toList, .object [(observedName, .scalar (.boolean true)), ("x".toList, .scalar (.integer 1))]),
    ("b".toList, .array [.scalar .null])]

private theorem observed_sampleDocument : observed sampleFields id [] sampleDocument = sampleRecord := by
  rfl

theorem projections_restrict_sampleDocument :
    project sampleFields id sampleDocument.events = .ok sampleRecord ∧
      projectRecords sampleFields id sampleRecords.events = .ok [sampleRecord, .object []] ∧
      unmarked sampleRecord = unmarked (restrict sampleFields id [] sampleDocument) := by
  have hfields : PrefixFree sampleFields := by
    unfold PrefixFree
    decide
  obtain ⟨hproject, -, hsame, -⟩ :=
    projections_restrict sampleFields id sampleDocument hfields (sampleDocument_readable (Nat.zero_le 1))
  obtain ⟨-, hrecords, -, -⟩ := projections_restrict sampleFields id sampleRecords hfields sampleRecords_readable
  rw [observed_sampleDocument] at hproject hsame
  refine ⟨(hproject sampleDocument_small).accepts ?_, ?_, hsame⟩
  · rintro (hnot | hclash)
    · exact hnot ⟨_, rfl⟩
    · exact not_clash_sampleDocument hclash
  · have hsmall : SmallRecords sampleFields sampleRecords := by
      rintro items ⟨⟩
      refine ⟨by decide, fun item hitem => ?_⟩
      rcases List.mem_cons.1 hitem with rfl | hitem
      · exact sampleDocument_small
      · rw [List.mem_singleton.1 hitem]
        exact .object nofun
    have haccepted := (hrecords hsmall).accepts (by
      rintro (hnone | ⟨item, hitem, hbad⟩)
      · cases hnone
      · rcases List.mem_cons.1 hitem with rfl | hitem
        · rcases hbad with hnot | hclash
          · exact hnot ⟨_, rfl⟩
          · exact not_clash_sampleDocument hclash
        · rw [List.mem_singleton.1 hitem] at hbad
          rcases hbad with hnot | hclash
          · exact hnot ⟨_, rfl⟩
          · cases hclash with
            | member hmem => cases hmem)
    rw [haccepted]
    rfl

/-- Records are asked for and there is an object: that is rejected, without a record. -/
theorem not_projectRecords_returns : ¬ ∀ (fields : Finset Position) (doc : JsonTree (Scalar Int)), PrefixFree fields →
    Readable 0 doc → SmallRecords fields doc →
      Returns (∃ item ∈ (recordsOf doc).getD [], ¬ IsObject item ∨ Clash fields [] item)
        (((recordsOf doc).getD []).map (observed fields id [])) (projectRecords fields id doc.events) := by
  intro h
  have hreturns := h sampleFields sampleDocument (by unfold PrefixFree; decide)
    (sampleDocument_readable (Nat.zero_le 1)) fun items hitems => by cases hitems
  have haccepted := hreturns.accepts fun ⟨item, hitem, _⟩ => by cases hitem
  have hrejected := (@projectRecords_returns Int Int sampleFields id sampleDocument (by unfold PrefixFree; decide)
    (sampleDocument_readable (Nat.zero_le 1)) fun items hitems => by cases hitems).rejects (Or.inl rfl)
  obtain ⟨text, shown, herror⟩ := hrejected
  rw [herror] at haccepted
  cases haccepted

end Streaming

end TrustedReleases
