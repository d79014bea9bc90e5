import TrustedReleases.Sbom.Patching

/-!
# What a patch of an SBOM leaves

A patched document has its version increased, its old properties with the record of the task, the additions of the
operations, and one more service, or the tool's own service refreshed; everything else is as it was
(`applyPatch_records_iff`).  The patch cannot be carried out where the tools are an array, as they were in earlier
versions of the format.
-/

namespace TrustedReleases

open Lib JsonTree

namespace Sbom

variable {δ : Type} {s : Surroundings} {doc own : Doc δ} {ops : List (Op δ)}

/-- The members of an object. -/
def membersOf : Option (Doc δ) → List (Str × Doc δ)
  | some (.object members) => members
  | _ => []

/-- A document in which the parts that are patched have the shapes that the format gives them. -/
structure Accepted (doc : Doc δ) : Prop where
  object : ∃ members, doc = .object members
  metadata : ∀ m, getPointer doc metadataPath = some m → ∃ members, m = .object members
  tools : ∀ t, getPointer doc toolsPath = some t → (∃ members, t = .object members) ∨ ∃ items, t = .array items
  services : ∀ t, getPointer doc servicesPath = some t → ∃ items, t = .array items
  properties : ∀ t, getPointer doc propertiesPath = some t → ∃ items, t = .array items
  version : ∀ t, getPointer doc versionPath = some t → ∃ n, t = .scalar (.integer n)

/-- The tools are an array, as they were in earlier versions of the format. -/
def LegacyTools (doc : Doc δ) : Prop := ∃ items, getPointer doc toolsPath = some (.array items)

/-- The services with the tool, which is in the place of itself if it is there. -/
def refreshed (s : Surroundings) (services : List (Doc δ)) : List (Doc δ) :=
  match services.findIdx? isTool with
  | none => services ++ [toolMetadata s]
  | some index => services.set index (toolMetadata s)

/-- The version of a patched document, the first one if it had none. -/
def versionAfter (doc : Doc δ) : Int :=
  match integerOf (getPointer doc versionPath) with
  | some version => version + 1
  | none => 1

/-- The members of a document with the record of a task, below those that the operations leave. -/
def recordedMembers (s : Surroundings) (task revision : Str) (doc : Doc δ) (members : List (Str × Doc δ)) :
    List (Str × Doc δ) :=
  let properties := itemsOf (getPointer doc propertiesPath) ++ [taskRecord task revision]
  let services := refreshed s (itemsOf (getPointer doc servicesPath))
  let tools := setMember "services".toList (.array services) (membersOf (getPointer doc toolsPath))
  let metadata := setMember "tools".toList (.object tools) (membersOf (members.lookup "metadata".toList))
  setMember "version".toList (.scalar (.integer (versionAfter doc)))
    (setMember "metadata".toList (.object metadata) (setMember "properties".toList (.array properties) members))

/-! ### Pointers -/

private theorem getPointer_eq_some {path : List Str} {t : Doc δ} :
    getPointer doc path = some t ↔ resolve path doc = some t ∧ t ≠ .scalar .null := by
  unfold getPointer
  split
  · rename_i hnull
    constructor
    · intro h
      cases h
    · rintro ⟨h, hne⟩
      exact absurd (Option.some.inj (h.symm.trans hnull)) hne
  · rename_i hnot
    constructor
    · intro h
      refine ⟨h, ?_⟩
      rintro rfl
      exact hnot h
    · exact fun h => h.1

private theorem getPointer_eq_none {path : List Str} :
    getPointer doc path = none ↔ resolve path doc = none ∨ resolve path doc = some (.scalar .null) := by
  unfold getPointer
  split
  · rename_i hnull
    simp [hnull]
  · rename_i hnot
    constructor
    · exact Or.inl
    · rintro (h | h)
      · exact h
      · exact absurd h hnot

private theorem lookup_setMember_ne {name q : Str} {t : Doc δ} {members : List (Str × Doc δ)} (h : q ≠ name) :
    (setMember name t members).lookup q = members.lookup q := by
  rw [lookup_setMember, if_neg h]

private theorem resolve_single (token : Str) (members : List (Str × Doc δ)) :
    resolve [token] (.object members) = members.lookup token := by
  rw [resolve, child]
  cases members.lookup token <;> rfl

/-- What a pointer of two or more tokens points to. -/
private theorem resolve_cons (token : Str) (p : List Str) (members : List (Str × Doc δ)) :
    resolve (token :: p) (.object members) = (members.lookup token).bind (resolve p) := rfl

/-! ### Single operations -/

private theorem apply_replace_member {token : Str} {value old : Doc δ} {members : List (Str × Doc δ)}
    (h : members.lookup token = some old) :
    (PatchOp.replace [token] value).apply (.object members) = some (.object (setMember token value members)) := by
  show (child token (.object members)).map _ = _
  rw [child, h]
  rfl

private theorem modify_member {f : Doc δ → Option (Doc δ)} {token : Str} {p : List Str} {u : Doc δ}
    {members : List (Str × Doc δ)} (h : members.lookup token = some u) :
    modify f (token :: p) (.object members) =
      (modify f p u).map fun u => .object (setMember token u members) := by
  show (child token (.object members)).bind _ = _
  rw [child, h]
  rfl

/-- A patch followed by one more operation. -/
private theorem applyPatch_append (ops ops' : List (Op δ)) (t : Doc δ) :
    Lib.applyPatch (ops ++ ops') t = (Lib.applyPatch ops t).bind (Lib.applyPatch ops') := by
  unfold Lib.applyPatch
  rw [List.foldlM_append]
  rfl

private theorem applyPatch_singleton (op : Op δ) (t : Doc δ) : Lib.applyPatch [op] t = op.apply t := by
  unfold Lib.applyPatch
  rw [List.foldlM_cons]
  cases op.apply t <;> rfl

/-! ### What the operations of the checks leave -/

/-- The state of the metadata before the task is recorded. -/
inductive MetadataReady (doc : Doc δ) (ops : List (Op δ)) (members : List (Str × Doc δ)) : Prop
  | present (metadata : List (Str × Doc δ)) : members.lookup "metadata".toList = some (.object metadata) →
      ((getPointer doc metadataPath).isSome ∨ ops.any addsMetadata = true) → MetadataReady doc ops members
  | absent : getPointer doc metadataPath = none → ops.any addsMetadata = false →
      (members.lookup "metadata".toList = none ∨ members.lookup "metadata".toList = some (.scalar .null)) →
      MetadataReady doc ops members

/-- A document that operations leave, in which a task can be recorded. -/
structure Ready (doc : Doc δ) (ops : List (Op δ)) (members : List (Str × Doc δ)) : Prop where
  applied : Lib.applyPatch ops doc = some (.object members)
  properties : members.lookup "properties".toList = resolve propertiesPath doc
  version : members.lookup "version".toList = resolve versionPath doc
  tools : resolve toolsPath (.object members) = resolve toolsPath doc
  metadata : MetadataReady doc ops members

section Recording

variable {members : List (Str × Doc δ)} (task revision : Str)

/-- The operation on the properties. -/
private theorem properties_recorded (h : Ready doc ops members) :
    ∃ op, (∀ ops', recordTask s task revision doc ops' = recordAtrTool s doc (ops' ++ [op])) ∧ addsMetadata op = false ∧
      Lib.applyPatch (ops ++ [op]) doc = some (.object (setMember "properties".toList
        (.array (itemsOf (getPointer doc propertiesPath) ++ [taskRecord task revision])) members)) := by
  cases hproperties : getPointer doc propertiesPath with
  | none =>
    refine ⟨.add propertiesPath (.array [taskRecord task revision]), ?_, rfl, ?_⟩
    · intro ops'
      unfold recordTask
      rw [hproperties]
    · rw [applyPatch_append, h.applied, Option.bind_some, applyPatch_singleton]
      rfl
  | some old =>
    obtain ⟨hresolve, -⟩ := getPointer_eq_some.1 hproperties
    refine ⟨.replace propertiesPath (.array (itemsOf (some old) ++ [taskRecord task revision])), ?_, rfl, ?_⟩
    · intro ops'
      unfold recordTask
      rw [hproperties]
    · rw [applyPatch_append, h.applied, Option.bind_some, applyPatch_singleton]
      exact apply_replace_member (h.properties.trans hresolve)

/-- The metadata are there. -/
private theorem metadata_ensured {members : List (Str × Doc δ)} {t : Doc δ}
    (happlied : Lib.applyPatch ops doc = some t) (ht : t = .object members)
    (hmetadata : MetadataReady doc ops members) : ∃ members' metadata,
      Lib.applyPatch (ensureMetadata doc ops) doc = some (.object members') ∧
        members'.lookup "metadata".toList = some (.object metadata) ∧
        metadata = membersOf (members.lookup "metadata".toList) ∧
        ∀ u, setMember "metadata".toList u members' = setMember "metadata".toList u members := by
  subst ht
  unfold ensureMetadata
  cases hmetadata with
  | present metadata hlookup hthere =>
    refine ⟨members, metadata, ?_, hlookup, by rw [hlookup]; rfl, fun _ => rfl⟩
    rcases hthere with hpointer | hadds
    · rw [if_pos hpointer]
      exact happlied
    · rw [if_pos hadds, ite_self]
      exact happlied
  | absent hpointer hadds hlookup =>
    refine ⟨setMember "metadata".toList (.object []) members, [], ?_, ?_, ?_, ?_⟩
    · rw [if_neg (by rw [hpointer]; simp), if_neg (by rw [hadds]; simp), applyPatch_append, happlied, Option.bind_some,
        applyPatch_singleton]
      rfl
    · rw [lookup_setMember, if_pos rfl]
    · rcases hlookup with hlookup | hlookup <;> rw [hlookup] <;> rfl
    · exact fun u => setMember_setMember _ _ _ _

private theorem lookup_tools (h : MetadataReady doc ops members) :
    (membersOf (members.lookup "metadata".toList)).lookup "tools".toList = resolve toolsPath (.object members) := by
  unfold toolsPath
  rw [resolve_cons]
  cases h with
  | present metadata hlookup _ =>
    rw [hlookup, Option.bind_some, resolve_single]
    rfl
  | absent _ _ hlookup => rcases hlookup with hlookup | hlookup <;> rw [hlookup] <;> rfl

/-- The tools are there. -/
private theorem tools_ensured (haccepted : Accepted doc) (hnew : ¬ LegacyTools doc) {metadata : List (Str × Doc δ)}
    (happlied : Lib.applyPatch ops doc = some (.object members))
    (hlookup : members.lookup "metadata".toList = some (.object metadata))
    (htools : metadata.lookup "tools".toList = resolve toolsPath doc) : ∃ members' metadata',
      Lib.applyPatch (if (getPointer doc toolsPath).isNone then ops ++ [.add toolsPath (.object [])] else ops) doc =
        some (.object members') ∧ members'.lookup "metadata".toList = some (.object metadata') ∧
      metadata'.lookup "tools".toList = some (.object (membersOf (getPointer doc toolsPath))) ∧
      (∀ u, setMember "metadata".toList u members' = setMember "metadata".toList u members) ∧
      ∀ u, setMember "tools".toList u metadata' = setMember "tools".toList u metadata := by
  cases hpointer : getPointer doc toolsPath with
  | none =>
    refine ⟨setMember "metadata".toList (.object (setMember "tools".toList (.object []) metadata)) members,
      setMember "tools".toList (.object []) metadata, ?_, ?_, ?_, fun _ => setMember_setMember _ _ _ _,
      fun _ => setMember_setMember _ _ _ _⟩
    · rw [if_pos Option.isNone_none, applyPatch_append, happlied, Option.bind_some, applyPatch_singleton]
      show modify (addChild "tools".toList (.object [])) ["metadata".toList] (.object members) = _
      rw [modify_member hlookup]
      rfl
    · rw [lookup_setMember, if_pos rfl]
    · rw [lookup_setMember, if_pos rfl]
      rfl
  | some tools =>
    obtain ⟨hresolve, -⟩ := getPointer_eq_some.1 hpointer
    refine ⟨members, metadata, ?_, hlookup, ?_, fun _ => rfl, fun _ => rfl⟩
    · rw [if_neg (by simp)]
      exact happlied
    · rw [htools, hresolve]
      rcases haccepted.tools tools hpointer with ⟨old, rfl⟩ | ⟨items, rfl⟩
      · rfl
      · exact absurd ⟨items, hpointer⟩ hnew

private theorem lookup_services (haccepted : Accepted doc) (hnew : ¬ LegacyTools doc) :
    (membersOf (getPointer doc toolsPath)).lookup "services".toList = resolve servicesPath doc := by
  have hservices : resolve servicesPath doc = (resolve toolsPath doc).bind (resolve ["services".toList]) :=
    resolve_append toolsPath ["services".toList] doc
  rw [hservices]
  cases hpointer : getPointer doc toolsPath with
  | none =>
    rcases getPointer_eq_none.1 hpointer with hresolve | hresolve <;> rw [hresolve] <;> rfl
  | some tools =>
    obtain ⟨hresolve, -⟩ := getPointer_eq_some.1 hpointer
    rw [hresolve]
    rcases haccepted.tools tools hpointer with ⟨old, rfl⟩ | ⟨items, rfl⟩
    · exact (resolve_single _ _).symm
    · exact absurd ⟨items, hpointer⟩ hnew

/-- The services are there. -/
private theorem services_ensured (haccepted : Accepted doc) {metadata tools : List (Str × Doc δ)}
    (happlied : Lib.applyPatch ops doc = some (.object members))
    (hmetadata : members.lookup "metadata".toList = some (.object metadata))
    (htools : metadata.lookup "tools".toList = some (.object tools))
    (hservices : tools.lookup "services".toList = resolve servicesPath doc) : ∃ members' metadata' tools',
      Lib.applyPatch (if (getPointer doc servicesPath).isNone then ops ++ [.add servicesPath (.array [])] else ops) doc =
        some (.object members') ∧ members'.lookup "metadata".toList = some (.object metadata') ∧
      metadata'.lookup "tools".toList = some (.object tools') ∧
      tools'.lookup "services".toList = some (.array (itemsOf (getPointer doc servicesPath))) ∧
      (∀ u, setMember "metadata".toList u members' = setMember "metadata".toList u members) ∧
      (∀ u, setMember "tools".toList u metadata' = setMember "tools".toList u metadata) ∧
      ∀ u, setMember "services".toList u tools' = setMember "services".toList u tools := by
  cases hpointer : getPointer doc servicesPath with
  | none =>
    refine ⟨setMember "metadata".toList (.object (setMember "tools".toList
      (.object (setMember "services".toList (.array []) tools)) metadata)) members,
      setMember "tools".toList (.object (setMember "services".toList (.array []) tools)) metadata,
      setMember "services".toList (.array []) tools, ?_, ?_, ?_, ?_, fun _ => setMember_setMember _ _ _ _,
      fun _ => setMember_setMember _ _ _ _, fun _ => setMember_setMember _ _ _ _⟩
    · rw [if_pos Option.isNone_none, applyPatch_append, happlied, Option.bind_some, applyPatch_singleton]
      show modify (addChild "services".toList (.array [])) ["metadata".toList, "tools".toList] (.object members) = _
      rw [modify_member hmetadata, modify_member htools]
      rfl
    · rw [lookup_setMember, if_pos rfl]
    · rw [lookup_setMember, if_pos rfl]
    · rw [lookup_setMember, if_pos rfl]
      rfl
  | some services =>
    obtain ⟨hresolve, -⟩ := getPointer_eq_some.1 hpointer
    refine ⟨members, metadata, tools, ?_, hmetadata, htools, ?_, fun _ => rfl, fun _ => rfl, fun _ => rfl⟩
    · rw [if_neg (by simp)]
      exact happlied
    · obtain ⟨items, rfl⟩ := haccepted.services services hpointer
      rw [hservices, hresolve]
      rfl

/-- The tool is recorded among the services. -/
private theorem tool_recorded {metadata tools : List (Str × Doc δ)} {services : List (Doc δ)}
    (happlied : Lib.applyPatch ops doc = some (.object members))
    (hmetadata : members.lookup "metadata".toList = some (.object metadata))
    (htools : metadata.lookup "tools".toList = some (.object tools))
    (hservices : tools.lookup "services".toList = some (.array services)) :
    Lib.applyPatch (match services.findIdx? isTool with
      | none => ops ++ [.add (servicesPath ++ [indexToken services.length]) (toolMetadata s)]
      | some index => ops ++ [.replace (servicesPath ++ [indexToken index]) (toolMetadata s)]) doc =
      some (.object (setMember "metadata".toList (.object (setMember "tools".toList (.object (setMember "services".toList
        (.array (refreshed s services)) tools)) metadata)) members)) := by
  unfold refreshed
  cases hindex : services.findIdx? isTool with
  | none =>
    dsimp only
    rw [applyPatch_append, happlied, Option.bind_some, applyPatch_singleton, PatchOp.apply_add]
    unfold servicesPath
    rw [modify_member hmetadata, modify_member htools, modify_member hservices]
    show ((((addChild (indexToken services.length) (toolMetadata s) (.array services)).map _).map _).map _) = _
    rw [addChild_end]
    rfl
  | some index =>
    have hlt : index < services.length := by
      obtain ⟨hlt, -⟩ := List.findIdx?_eq_some_iff_getElem.1 hindex
      exact hlt
    have hreplace : replaceChild (indexToken index) (toolMetadata s) (.array services) =
        some (.array (services.set index (toolMetadata s))) := by
      unfold replaceChild child setChild
      dsimp only
      rw [tokenIndex_indexToken, Option.bind_some, List.getElem?_eq_getElem hlt]
      rfl
    dsimp only
    rw [applyPatch_append, happlied, Option.bind_some, applyPatch_singleton, PatchOp.apply_replace]
    unfold servicesPath
    rw [modify_member hmetadata, modify_member htools, modify_member hservices]
    show ((((replaceChild (indexToken index) (toolMetadata s) (.array services)).map _).map _).map _) = _
    rw [hreplace]
    rfl

/-- The version is increased. -/
private theorem version_incremented (haccepted : Accepted doc)
    (happlied : Lib.applyPatch ops doc = some (.object members))
    (hversion : members.lookup "version".toList = resolve versionPath doc) :
    (incrementVersion doc ops).1 = versionAfter doc ∧ Lib.applyPatch (incrementVersion doc ops).2 doc =
      some (.object (setMember "version".toList (.scalar (.integer (versionAfter doc))) members)) := by
  unfold incrementVersion versionAfter
  cases hpointer : getPointer doc versionPath with
  | none =>
    refine ⟨rfl, ?_⟩
    show Lib.applyPatch (ops ++ [.add versionPath (.scalar (.integer 1))]) doc = _
    rw [applyPatch_append, happlied, Option.bind_some, applyPatch_singleton]
    rfl
  | some old =>
    obtain ⟨n, rfl⟩ := haccepted.version old hpointer
    obtain ⟨hresolve, -⟩ := getPointer_eq_some.1 hpointer
    refine ⟨rfl, ?_⟩
    show Lib.applyPatch (ops ++ [.replace versionPath (.scalar (.integer (n + 1)))]) doc = _
    rw [applyPatch_append, happlied, Option.bind_some, applyPatch_singleton]
    exact apply_replace_member (hversion.trans hresolve)

theorem MetadataReady.append {op : Op δ} (h : MetadataReady doc ops members) (hop : addsMetadata op = false)
    {members' : List (Str × Doc δ)} (hlookup : members'.lookup "metadata".toList = members.lookup "metadata".toList) :
    MetadataReady doc (ops ++ [op]) members' := by
  have hany : (ops ++ [op]).any addsMetadata = ops.any addsMetadata := by
    simp [hop]
  cases h with
  | present metadata hmetadata hthere =>
    refine .present metadata (hlookup.trans hmetadata) ?_
    rw [hany]
    exact hthere
  | absent hpointer hadds hmetadata =>
    refine .absent hpointer (hany.trans hadds) ?_
    rw [hlookup]
    exact hmetadata

/-- The operations before the tool is recorded, if the tools are not an array. -/
private theorem services_prepared (haccepted : Accepted doc) (hnew : ¬ LegacyTools doc)
    (happlied : Lib.applyPatch ops doc = some (.object members)) (hmetadata : MetadataReady doc ops members)
    (htools : resolve toolsPath (.object members) = resolve toolsPath doc) :
    Lib.applyPatch (recordAtrTool s doc ops) doc = some (.object (setMember "metadata".toList (.object
      (setMember "tools".toList (.object (setMember "services".toList
        (.array (refreshed s (itemsOf (getPointer doc servicesPath)))) (membersOf (getPointer doc toolsPath))))
        (membersOf (members.lookup "metadata".toList)))) members)) := by
  obtain ⟨members₁, metadata₁, happlied₁, hlookup₁, hmembers₁, hset₁⟩ := metadata_ensured happlied rfl hmetadata
  have htools₁ : metadata₁.lookup "tools".toList = resolve toolsPath doc := by
    rw [hmembers₁, lookup_tools hmetadata, htools]
  obtain ⟨members₂, metadata₂, happlied₂, hlookup₂, htools₂, hset₂, hsetTools₂⟩ :=
    tools_ensured haccepted hnew happlied₁ hlookup₁ htools₁
  obtain ⟨members₃, metadata₃, tools₃, happlied₃, hlookup₃, htools₃, hservices₃, hset₃, hsetTools₃, hsetServices₃⟩ :=
    services_ensured haccepted happlied₂ hlookup₂ htools₂ (lookup_services haccepted hnew)
  have hrecorded := @tool_recorded δ s doc _ members₃ metadata₃ tools₃ _ happlied₃ hlookup₃ htools₃ hservices₃
  rw [hset₃, hset₂, hset₁, hsetTools₃, hsetTools₂, hsetServices₃, hmembers₁] at hrecorded
  exact hrecorded

/-- The task is recorded below what the operations leave. -/
private theorem applyPatch_ready (haccepted : Accepted doc) (hnew : ¬ LegacyTools doc) (hops : ops ≠ [])
    (h : Ready doc ops members) (bomVersion : Int) : applyPatch s task revision bomVersion doc ops =
      .ok (versionAfter doc, .object (recordedMembers s task revision doc members)) := by
  obtain ⟨op, hrecord, hadds, happlied⟩ := properties_recorded task revision h
  have hmetadata := h.metadata.append hadds (@lookup_setMember_ne δ "properties".toList "metadata".toList
    (.array (itemsOf (getPointer doc propertiesPath) ++ [taskRecord task revision])) members (by decide))
  have htools : resolve toolsPath (.object (setMember "properties".toList
      (.array (itemsOf (getPointer doc propertiesPath) ++ [taskRecord task revision])) members)) =
        resolve toolsPath doc := by
    rw [← h.tools]
    unfold toolsPath
    rw [resolve_cons, resolve_cons, lookup_setMember_ne (by decide)]
  have htool := @services_prepared δ s doc _ _ haccepted hnew happlied hmetadata htools
  have hversion := version_incremented haccepted htool (by
    rw [lookup_setMember_ne (by decide), lookup_setMember_ne (by decide), ← h.version])
  have hempty : ¬ ops.isEmpty = true := by
    rw [List.isEmpty_iff]
    exact hops
  unfold applyPatch
  rw [if_neg hempty, hrecord]
  show (patchDocument doc (incrementVersion doc (recordAtrTool s doc (ops ++ [op]))).2 >>= fun patched =>
    Except.ok ((incrementVersion doc (recordAtrTool s doc (ops ++ [op]))).1, patched)) = _
  unfold patchDocument
  rw [hversion.1, hversion.2]
  show Except.ok _ = Except.ok _
  unfold recordedMembers
  rw [lookup_setMember_ne (by decide)]

private theorem services_of_legacy (hlegacy : LegacyTools doc) : getPointer doc servicesPath = none := by
  obtain ⟨items, hpointer⟩ := hlegacy
  obtain ⟨hresolve, -⟩ := getPointer_eq_some.1 hpointer
  have hservices : resolve servicesPath doc = (resolve toolsPath doc).bind (resolve ["services".toList]) :=
    resolve_append toolsPath ["services".toList] doc
  rw [getPointer_eq_none, hservices, hresolve]
  exact Or.inl rfl

private theorem metadata_of_legacy (hlegacy : LegacyTools doc) : (getPointer doc metadataPath).isSome := by
  obtain ⟨items, hpointer⟩ := hlegacy
  obtain ⟨hresolve, -⟩ := getPointer_eq_some.1 hpointer
  have htools : resolve toolsPath doc = (resolve metadataPath doc).bind (resolve ["tools".toList]) :=
    resolve_append metadataPath ["tools".toList] doc
  rw [hresolve] at htools
  by_contra hnot
  rcases getPointer_eq_none.1 (Option.not_isSome_iff_eq_none.1 hnot) with hnone | hnull
  · rw [hnone] at htools
    cases htools
  · rw [hnull] at htools
    cases htools

/-- A service cannot be added to an array of tools. -/
private theorem recordAtrTool_legacy (hlegacy : LegacyTools doc) {t : Doc δ}
    (happlied : Lib.applyPatch ops doc = some t)
    (htools : resolve toolsPath t = resolve toolsPath doc) : Lib.applyPatch (recordAtrTool s doc ops) doc = none := by
  have hadd : Lib.applyPatch (ops ++ [.add servicesPath (.array [])]) doc = none := by
    rw [applyPatch_append, happlied, Option.bind_some, applyPatch_singleton]
    cases hmodify : (PatchOp.add servicesPath (.array [])).apply t with
    | none => rfl
    | some t' =>
      have hbelow : modify (addChild "services".toList (.array [])) toolsPath t = some t' := hmodify
      obtain ⟨u, u', hu, hf, -⟩ := modify_eq_some hbelow
      obtain ⟨items, hpointer⟩ := hlegacy
      rw [htools, (getPointer_eq_some.1 hpointer).1] at hu
      obtain rfl := Option.some.inj hu
      cases hf
  have hsome : ¬ (getPointer doc toolsPath).isNone = true := by
    obtain ⟨items, hpointer⟩ := hlegacy
    rw [hpointer]
    exact Bool.false_ne_true
  unfold recordAtrTool ensureMetadata
  dsimp only
  rw [services_of_legacy hlegacy, if_pos Option.isNone_none, if_pos (metadata_of_legacy hlegacy), if_neg hsome]
  split <;> rw [applyPatch_append, hadd] <;> rfl

private theorem applyPatch_legacy (hlegacy : LegacyTools doc) (hops : ops ≠ []) (h : Ready doc ops members)
    (bomVersion : Int) : applyPatch s task revision bomVersion doc ops = .error .notApplicable := by
  obtain ⟨op, hrecord, -, happlied⟩ := properties_recorded task revision h
  have htools : resolve toolsPath (.object (setMember "properties".toList
      (.array (itemsOf (getPointer doc propertiesPath) ++ [taskRecord task revision])) members)) =
        resolve toolsPath doc := by
    rw [← h.tools]
    unfold toolsPath
    rw [resolve_cons, resolve_cons, lookup_setMember_ne (by decide)]
  have htool := @recordAtrTool_legacy δ s doc _ hlegacy _ happlied htools
  have hversion : Lib.applyPatch (incrementVersion doc (recordAtrTool s doc (ops ++ [op]))).2 doc = none := by
    unfold incrementVersion
    split <;> rw [applyPatch_append, htool] <;> rfl
  have hempty : ¬ ops.isEmpty = true := by
    rw [List.isEmpty_iff]
    exact hops
  unfold applyPatch
  rw [if_neg hempty, hrecord]
  show (patchDocument doc (incrementVersion doc (recordAtrTool s doc (ops ++ [op]))).2 >>= fun patched =>
    Except.ok ((incrementVersion doc (recordAtrTool s doc (ops ++ [op]))).1, patched)) = _
  unfold patchDocument
  rw [hversion]
  rfl

end Recording

/-! ### The operations of the checks -/

/-- The findings are about components of the document. -/
def Reported (doc : Doc δ) (errors : List Missing) : Prop :=
  ∀ property index, Missing.componentProperty property (some index) ∈ errors →
    ∃ members, resolve ["components".toList, indexToken index] doc = some (.object members)

/-- The pointer is one of those to which the checks add. -/
def CheckPath (path : List Str) : Prop :=
  path = metadataPath ∨ path = supplierPath ∨ path = timestampPath ∨ ∃ index, path = componentSupplierPath index

/-- A document that operations of the checks leave. -/
structure Built (doc : Doc δ) (ops : List (Op δ)) (t : Doc δ) : Prop where
  applied : Lib.applyPatch ops doc = some t
  root : ∃ members, resolve [] t = some (.object members)
  paths : ∀ op ∈ ops, CheckPath op.path
  elsewhere : ∀ q, (∀ op ∈ ops, Diverge op.path q) → resolve q t = resolve q doc
  metadata : (getPointer doc metadataPath).isSome ∨ ops.any addsMetadata = true →
    ∃ members, resolve metadataPath t = some (.object members)
  untouched : getPointer doc metadataPath = none → ops.any addsMetadata = false →
    resolve metadataPath t = resolve metadataPath doc
  tools : resolve toolsPath t = resolve toolsPath doc
  components : ∀ index members, resolve ["components".toList, indexToken index] doc = some (.object members) →
    ∃ members', resolve ["components".toList, indexToken index] t = some (.object members')

/-- An operation that adds to an object. -/
theorem Built.add {t : Doc δ} (h : Built doc ops t) {p : List Str} {token : Str} {value : Doc δ}
    {members : List (Str × Doc δ)} (hpath : CheckPath (p ++ [token])) (hobject : resolve p t = some (.object members)) :
    ∃ t', PatchOp.Added (p ++ [token]) value t t' ∧
      Lib.applyPatch (ops ++ [.add (p ++ [token]) value]) doc = some t' ∧
      (∃ members, resolve [] t' = some (.object members)) ∧
      (∀ op ∈ ops ++ [.add (p ++ [token]) value], CheckPath op.path) ∧
      ∀ q, (∀ op ∈ ops ++ [.add (p ++ [token]) value], Diverge op.path q) → resolve q t' = resolve q doc := by
  obtain ⟨t', happly, hadded⟩ := @PatchOp.add_added _ p token value t members hobject
  refine ⟨t', hadded, ?_, ?_, ?_, ?_⟩
  · rw [applyPatch_append, h.applied, Option.bind_some, applyPatch_singleton]
    exact happly
  · obtain ⟨root, hroot⟩ := h.root
    exact hadded.objects [] (by simp) root hroot
  · intro op hop
    rcases List.mem_append.1 hop with hop | hop
    · exact h.paths op hop
    · rw [List.mem_singleton.1 hop]
      exact hpath
  · intro q hq
    rw [hadded.elsewhere q (hq _ (List.mem_append_right _ (List.mem_singleton_self _)))]
    exact h.elsewhere q fun op hop => hq op (List.mem_append_left _ hop)

private theorem diverge_tools {path : List Str} (h : CheckPath path) (hne : path ≠ metadataPath) :
    Diverge path toolsPath := by
  rcases h with rfl | rfl | rfl | ⟨index, rfl⟩
  · exact absurd rfl hne
  · unfold supplierPath toolsPath Diverge
    decide
  · unfold timestampPath toolsPath Diverge
    decide
  · exact diverge_cons.2 (Or.inl (by decide))

private theorem not_prefix_metadata {path : List Str} (h : CheckPath path) (hne : path ≠ metadataPath) :
    ¬ path <+: metadataPath := by
  rcases h with rfl | rfl | rfl | ⟨index, rfl⟩
  · exact absurd rfl hne
  · decide
  · decide
  · unfold componentSupplierPath metadataPath
    rw [List.cons_prefix_cons]
    rintro ⟨hsame, -⟩
    exact absurd hsame (by decide)

private theorem not_prefix_component {path : List Str} (h : CheckPath path) (index : Nat) :
    ¬ path <+: ["components".toList, indexToken index] := by
  rcases h with rfl | rfl | rfl | ⟨index', rfl⟩
  · unfold metadataPath
    rw [List.cons_prefix_cons]
    exact fun hboth => absurd hboth.1 (by decide)
  · unfold supplierPath
    rw [List.cons_prefix_cons]
    exact fun hboth => absurd hboth.1 (by decide)
  · unfold timestampPath
    rw [List.cons_prefix_cons]
    exact fun hboth => absurd hboth.1 (by decide)
  · intro hinitial
    have hlength : 3 ≤ 2 := hinitial.length_le
    omega

/-- The metadata are ensured. -/
private theorem Built.ensureMetadata {t : Doc δ} (h : Built doc ops t) : ∃ t', Built doc (ensureMetadata doc ops) t' ∧
    ∃ members, resolve metadataPath t' = some (.object members) := by
  unfold Sbom.ensureMetadata
  by_cases hpointer : (getPointer doc metadataPath).isSome
  · rw [if_pos hpointer]
    exact ⟨t, h, h.metadata (Or.inl hpointer)⟩
  · by_cases hadds : ops.any addsMetadata = true
    · rw [if_neg hpointer, if_pos hadds]
      exact ⟨t, h, h.metadata (Or.inr hadds)⟩
    · rw [if_neg hpointer, if_neg hadds]
      obtain ⟨root, hroot⟩ := h.root
      have hpath : CheckPath ([] ++ ["metadata".toList]) := Or.inl rfl
      obtain ⟨t', hadded, happlied, hroot', hpaths, helsewhere⟩ :=
        @Built.add δ doc ops t h [] "metadata".toList (.object []) root hpath hroot
      have hobject : resolve metadataPath t' = some (.object []) := hadded.value
      have hany : (ops ++ [PatchOp.add metadataPath (.object [])]).any addsMetadata = true := by
        rw [List.any_append]
        exact Bool.or_eq_true_iff.2 (Or.inr rfl)
      have hnone : resolve toolsPath doc = none := by
        have htools : resolve toolsPath doc = (resolve metadataPath doc).bind (resolve ["tools".toList]) :=
          resolve_append metadataPath ["tools".toList] doc
        rw [htools]
        rcases getPointer_eq_none.1 (Option.not_isSome_iff_eq_none.1 hpointer) with hmetadata | hmetadata <;>
          rw [hmetadata] <;> rfl
      refine ⟨t', ⟨happlied, hroot', hpaths, helsewhere, fun _ => ⟨[], hobject⟩, ?_, ?_, ?_⟩, [], hobject⟩
      · intro _ hnot
        rw [hany] at hnot
        cases hnot
      · have htools : resolve toolsPath t' = (resolve metadataPath t').bind (resolve ["tools".toList]) :=
          resolve_append metadataPath ["tools".toList] t'
        rw [htools, hobject, hnone]
        rfl
      · intro index members hcomponent
        obtain ⟨members', hmembers'⟩ := h.components index members hcomponent
        exact hadded.objects _ (not_prefix_component hpath index) members' hmembers'

/-- An operation that adds below the metadata or a component. -/
private theorem Built.addBelow {t : Doc δ} (h : Built doc ops t) {p : List Str} {token : Str} {value : Doc δ}
    {members : List (Str × Doc δ)} (hpath : CheckPath (p ++ [token])) (hne : p ++ [token] ≠ metadataPath)
    (hmetadata : Diverge (p ++ [token]) metadataPath ∨
      (getPointer doc metadataPath).isSome ∨ ops.any addsMetadata = true)
    (hobject : resolve p t = some (.object members)) :
    ∃ t', Built doc (ops ++ [.add (p ++ [token]) value]) t' := by
  obtain ⟨t', hadded, happlied, hroot', hpaths, helsewhere⟩ := @Built.add δ doc ops t h p token value members hpath hobject
  have hany : (ops ++ [PatchOp.add (p ++ [token]) value]).any addsMetadata = ops.any addsMetadata := by
    have hop : addsMetadata (.add (p ++ [token]) value : Op δ) = false := decide_eq_false hne
    simp [hop]
  refine ⟨t', happlied, hroot', hpaths, helsewhere, ?_, ?_, ?_, ?_⟩
  · rw [hany]
    intro hthere
    obtain ⟨metadata, hold⟩ := h.metadata hthere
    exact hadded.objects _ (not_prefix_metadata hpath hne) metadata hold
  · rw [hany]
    intro hpointer hadds
    rcases hmetadata with hdiverge | hsome | hyes
    · rw [hadded.elsewhere _ hdiverge]
      exact h.untouched hpointer hadds
    · rw [hpointer] at hsome
      cases hsome
    · rw [hadds] at hyes
      cases hyes
  · rw [hadded.elsewhere _ (diverge_tools hpath hne)]
    exact h.tools
  · intro index old hcomponent
    obtain ⟨members', hmembers'⟩ := h.components index old hcomponent
    exact hadded.objects _ (not_prefix_component hpath index) members' hmembers'

private theorem any_ensureMetadata (doc : Doc δ) (ops : List (Op δ)) :
    (getPointer doc metadataPath).isSome ∨ (ensureMetadata doc ops).any addsMetadata = true := by
  unfold ensureMetadata
  by_cases hpointer : (getPointer doc metadataPath).isSome
  · exact Or.inl hpointer
  · rw [if_neg hpointer]
    right
    split
    · assumption
    · rw [List.any_append]
      exact Bool.or_eq_true_iff.2 (Or.inr rfl)

/-- The operations for a finding. -/
private theorem Built.assemble {t : Doc δ} (h : Built doc ops t) {error : Missing} {ops' : List (Op δ)}
    (herror : ∀ property index, error = .componentProperty property (some index) →
      ∃ members, resolve ["components".toList, indexToken index] doc = some (.object members))
    (hok : assemble s doc ops error = .ok ops') : ∃ t', Built doc ops' t' := by
  obtain ⟨t₁, hbuilt, members, hmembers⟩ := h.ensureMetadata
  have hthere := any_ensureMetadata doc ops
  cases error with
  | property property =>
    cases property with
    | metadata =>
      obtain rfl := Except.ok.inj hok
      exact ⟨t₁, hbuilt⟩
    | metadataComponent => cases hok
    | metadataAuthorOrManufacturer =>
      obtain rfl := Except.ok.inj hok
      exact ⟨t, h⟩
    | dependencies =>
      obtain rfl := Except.ok.inj hok
      exact ⟨t, h⟩
    | metadataSupplier =>
      obtain rfl := Except.ok.inj hok
      exact @Built.addBelow δ doc _ t₁ hbuilt metadataPath "supplier".toList ASF_ENTITY members (Or.inr (Or.inl rfl))
        (by decide) (Or.inr hthere) hmembers
    | metadataTimestamp =>
      obtain rfl := Except.ok.inj hok
      unfold assembleMetadataTimestamp
      split
      · exact ⟨t₁, hbuilt⟩
      · exact @Built.addBelow δ doc _ t₁ hbuilt metadataPath "timestamp".toList (.scalar (.string s.now)) members
          (Or.inr (Or.inr (Or.inl rfl))) (by decide) (Or.inr hthere) hmembers
  | componentProperty property index =>
    cases index with
    | none =>
      have hsame : ops' = ops := by
        cases property <;> exact (Except.ok.inj hok).symm
      rw [hsame]
      exact ⟨t, h⟩
    | some index =>
      cases property with
      | name =>
        obtain rfl := Except.ok.inj hok
        exact ⟨t, h⟩
      | version =>
        obtain rfl := Except.ok.inj hok
        exact ⟨t, h⟩
      | identifier =>
        obtain rfl := Except.ok.inj hok
        exact ⟨t, h⟩
      | supplier =>
        obtain rfl := Except.ok.inj hok
        obtain ⟨old, hold⟩ := herror _ _ rfl
        obtain ⟨component, hcomponent⟩ := h.components index old hold
        unfold assembleComponentSupplier
        split
        · exact ⟨t, h⟩
        · exact @Built.addBelow δ doc ops t h ["components".toList, indexToken index] "supplier".toList _ component
            (Or.inr (Or.inr (Or.inr ⟨index, rfl⟩))) (fun heq => absurd (List.cons.inj heq).1 (by decide))
            (Or.inl (diverge_cons.2 (Or.inl (by decide)))) hcomponent

private theorem built_nil (haccepted : Accepted doc) : Built doc [] doc where
  applied := rfl
  root := by
    obtain ⟨members, rfl⟩ := haccepted.object
    exact ⟨members, rfl⟩
  paths _ hop := by cases hop
  elsewhere _ _ := rfl
  metadata hthere := by
    rcases hthere with hsome | hany
    · obtain ⟨metadata, hmetadata⟩ := Option.isSome_iff_exists.1 hsome
      obtain ⟨members, rfl⟩ := haccepted.metadata metadata hmetadata
      exact ⟨members, (getPointer_eq_some.1 hmetadata).1⟩
    · cases hany
  untouched _ _ := rfl
  tools := rfl
  components _ members hmembers := ⟨members, hmembers⟩

/-- The operations of the checks can be carried out, whatever was found. -/
private theorem ntia2021Patch_built (haccepted : Accepted doc) {errors : List Missing} (hreported : Reported doc errors)
    (hok : ntia2021Patch s doc errors = .ok ops) : ∃ t, Built doc ops t := by
  refine foldlM_preserves (fun _ ops => ∃ t, Built doc ops t) ⟨doc, built_nil haccepted⟩ ?_ hok
  intro done error rest ops₁ ops₂ herrors hbuilt hstep
  obtain ⟨t, ht⟩ := hbuilt
  refine ht.assemble ?_ hstep
  rintro property index rfl
  refine hreported property index ?_
  rw [herrors]
  exact List.mem_append_right _ List.mem_cons_self

private theorem Built.ready {t : Doc δ} (h : Built doc ops t) :
    ∃ members, t = .object members ∧ Ready doc ops members := by
  obtain ⟨members, hroot⟩ := h.root
  obtain rfl : t = .object members := Option.some.inj hroot
  have hmember (name : Str) (hname : ∀ path, CheckPath path → path.head? ≠ some name) :
      members.lookup name = resolve [name] doc := by
    rw [← resolve_single, h.elsewhere]
    intro op hop
    have hpath := h.paths op hop
    have hhead := hname op.path hpath
    cases hcons : op.path with
    | nil =>
      rw [hcons] at hpath
      rcases hpath with hp | hp | hp | ⟨index, hp⟩ <;> cases hp
    | cons token p =>
      refine diverge_cons.2 (Or.inl fun heq => ?_)
      rw [hcons] at hhead
      exact hhead (congrArg some heq)
  have hother (name : Str) (hmetadata : "metadata".toList ≠ name) (hcomponents : "components".toList ≠ name) (path : List Str)
      (hpath : CheckPath path) : path.head? ≠ some name := by
    intro hhead
    rcases hpath with rfl | rfl | rfl | ⟨index, rfl⟩
    · exact hmetadata (Option.some.inj hhead)
    · exact hmetadata (Option.some.inj hhead)
    · exact hmetadata (Option.some.inj hhead)
    · exact hcomponents (Option.some.inj hhead)
  refine ⟨members, rfl, h.applied, hmember _ (hother _ (by decide) (by decide)),
    hmember _ (hother _ (by decide) (by decide)), h.tools, ?_⟩
  by_cases hthere : (getPointer doc metadataPath).isSome ∨ ops.any addsMetadata = true
  · obtain ⟨metadata, hmetadata⟩ := h.metadata hthere
    exact .present metadata ((resolve_single _ _).symm.trans hmetadata) hthere
  · rw [not_or] at hthere
    have hpointer := Option.not_isSome_iff_eq_none.1 hthere.1
    have hadds : ops.any addsMetadata = false := Bool.eq_false_iff.2 hthere.2
    refine .absent hpointer hadds ?_
    have hsame := h.untouched hpointer hadds
    unfold metadataPath at hsame
    rw [resolve_single] at hsame
    rw [hsame]
    exact getPointer_eq_none.1 hpointer

/-! ### The operations for vulnerabilities -/

private theorem lookup_filter_ne {token name : Str} {members : List (Str × Doc δ)} (h : name ≠ token) :
    (members.filter fun m => decide (m.1 ≠ token)).lookup name = members.lookup name := by
  induction members with
  | nil => rfl
  | cons m members ih =>
    by_cases hm : m.1 = token
    · rw [List.filter_cons_of_neg (by simp [hm]), ih, lookup_cons_ite, if_neg (by rw [hm]; exact h)]
    · rw [List.filter_cons_of_pos (by simp [hm]), lookup_cons_ite, lookup_cons_ite, ih]

/-- An item is added at the end of an array that is a member. -/
private theorem apply_add_item {name : Str} {items : List (Doc δ)} {value : Doc δ} {members : List (Str × Doc δ)}
    (h : members.lookup name = some (.array items)) :
    (PatchOp.add ([name] ++ [indexToken items.length]) value).apply (.object members) =
      some (.object (setMember name (.array (items ++ [value])) members)) := by
  rw [PatchOp.apply_add, modify_member h]
  show (addChild (indexToken items.length) value (.array items)).map _ = _
  rw [addChild_end]
  rfl

/-- What the operations leave: the vulnerabilities, and the other members as they were. -/
structure Listed (members₀ : List (Str × Doc δ)) (values : List (Doc δ)) (members : List (Str × Doc δ)) : Prop where
  listed : members.lookup "vulnerabilities".toList = some (.array values)
  others : ∀ name ≠ "vulnerabilities".toList, members.lookup name = members₀.lookup name

private theorem vulnerabilitiesFrom_listed {members₀ members : List (Str × Doc δ)} {done : List (Doc δ)}
    (h : Listed members₀ done members) (values : List (Doc δ)) : ∃ members',
      Lib.applyPatch (assembleVulnerabilitiesFrom done.length values) (.object members) = some (.object members') ∧
        Listed members₀ (done ++ values) members' := by
  induction values generalizing done members with
  | nil => exact ⟨members, rfl, by rw [List.append_nil]; exact h⟩
  | cons value values ih =>
    have hnext : Listed members₀ (done ++ [value])
        (setMember "vulnerabilities".toList (.array (done ++ [value])) members) := by
      refine ⟨by rw [lookup_setMember, if_pos rfl], fun name hname => ?_⟩
      rw [lookup_setMember_ne hname]
      exact h.others name hname
    obtain ⟨members', happlied, hlisted⟩ := ih hnext
    rw [List.length_append, List.length_singleton] at happlied
    refine ⟨members', ?_, by rw [List.append_assoc] at hlisted; exact hlisted⟩
    rw [assembleVulnerabilitiesFrom]
    show ((PatchOp.add (vulnerabilitiesPath ++ [indexToken done.length]) value).apply (.object members)).bind
      (Lib.applyPatch (assembleVulnerabilitiesFrom (done.length + 1) values)) = _
    unfold vulnerabilitiesPath
    rw [apply_add_item h.listed, Option.bind_some]
    exact happlied

private theorem vulnPatch_listed {members₀ : List (Str × Doc δ)} (values : List (Doc δ)) : ∃ members,
    Lib.applyPatch (vulnPatch (.object members₀) values) (.object members₀) = some (.object members) ∧
      Listed members₀ values members := by
  have hempty : ∃ members,
      Lib.applyPatch (assembleVulnerabilities (.object members₀)) (.object members₀) = some (.object members) ∧
        Listed members₀ [] members := by
    unfold assembleVulnerabilities
    by_cases hpointer : (getPointer (.object members₀) vulnerabilitiesPath).isSome
    · obtain ⟨old, hold⟩ := Option.isSome_iff_exists.1 hpointer
      obtain ⟨hresolve, -⟩ := getPointer_eq_some.1 hold
      unfold vulnerabilitiesPath at hresolve
      rw [resolve_single] at hresolve
      have hremove : Lib.applyPatch [.remove vulnerabilitiesPath] (.object members₀) =
          some (.object (members₀.filter fun m => decide (m.1 ≠ "vulnerabilities".toList))) := by
        rw [applyPatch_singleton]
        show (child "vulnerabilities".toList (.object members₀)).bind _ = _
        rw [child, hresolve]
        rfl
      refine ⟨setMember "vulnerabilities".toList (.array [])
        (members₀.filter fun m => decide (m.1 ≠ "vulnerabilities".toList)), ?_, ?_, ?_⟩
      · rw [if_pos hpointer, applyPatch_append, hremove, Option.bind_some, applyPatch_singleton]
        rfl
      · rw [lookup_setMember, if_pos rfl]
      · intro name hname
        rw [lookup_setMember_ne hname, lookup_filter_ne hname]
    · refine ⟨setMember "vulnerabilities".toList (.array []) members₀, ?_, ?_, ?_⟩
      · rw [if_neg hpointer, List.nil_append, applyPatch_singleton]
        rfl
      · rw [lookup_setMember, if_pos rfl]
      · intro name hname
        rw [lookup_setMember_ne hname]
  obtain ⟨members₁, happlied₁, hlisted₁⟩ := hempty
  obtain ⟨members, happlied, hlisted⟩ := vulnerabilitiesFrom_listed hlisted₁ values
  refine ⟨members, ?_, hlisted⟩
  unfold vulnPatch
  rw [applyPatch_append, happlied₁, Option.bind_some]
  exact happlied

private theorem vulnPatch_addsMetadata (doc : Doc δ) (values : List (Doc δ)) :
    (vulnPatch doc values).any addsMetadata = false := by
  have hfrom : ∀ index, (assembleVulnerabilitiesFrom index values).any addsMetadata = false := by
    induction values with
    | nil => exact fun _ => rfl
    | cons value values ih =>
      intro index
      have hne : vulnerabilitiesPath ++ [indexToken index] ≠ metadataPath := by
        intro heq
        have hhead : "vulnerabilities".toList = "metadata".toList := (List.cons.inj heq).1
        exact absurd hhead (by decide)
      have hop : addsMetadata (.add (vulnerabilitiesPath ++ [indexToken index]) value : Op δ) = false :=
        decide_eq_false hne
      rw [assembleVulnerabilitiesFrom, List.any_cons, hop, ih]
      rfl
  unfold vulnPatch assembleVulnerabilities
  rw [List.any_append, hfrom, List.any_append]
  split <;> rfl

/-- The operations for vulnerabilities can be carried out, and change nothing else. -/
private theorem vulnPatch_ready (haccepted : Accepted doc) (values : List (Doc δ)) : ∃ members,
    Ready doc (vulnPatch doc values) members ∧
      ∀ q, Diverge vulnerabilitiesPath q → resolve q (.object members) = resolve q doc := by
  obtain ⟨members₀, rfl⟩ := haccepted.object
  obtain ⟨members, happlied, hlisted⟩ := @vulnPatch_listed δ members₀ values
  have hsame (name : Str) (hname : name ≠ "vulnerabilities".toList) (p : List Str) :
      resolve (name :: p) (.object members) = resolve (name :: p) (.object members₀) := by
    rw [resolve_cons, resolve_cons, hlisted.others name hname]
  refine ⟨members, ⟨happlied, ?_, ?_, hsame _ (by decide) _, ?_⟩, ?_⟩
  · rw [hlisted.others _ (by decide), ← resolve_single]
    rfl
  · rw [hlisted.others _ (by decide), ← resolve_single]
    rfl
  · have hmetadata : members.lookup "metadata".toList = resolve metadataPath (.object members₀) := by
      rw [hlisted.others _ (by decide), ← resolve_single]
      rfl
    cases hpointer : getPointer (.object members₀) metadataPath with
    | none =>
      refine .absent hpointer (vulnPatch_addsMetadata _ values) ?_
      rw [hmetadata]
      exact getPointer_eq_none.1 hpointer
    | some old =>
      obtain ⟨metadata, rfl⟩ := haccepted.metadata old hpointer
      exact .present metadata (hmetadata.trans (getPointer_eq_some.1 hpointer).1) (Or.inl (by rw [hpointer]; rfl))
  · intro q hq
    cases q with
    | nil => exact absurd List.nil_prefix hq.2
    | cons name p =>
      refine hsame name ?_ p
      rintro rfl
      rcases diverge_cons.1 hq with hne | hrest
      · exact hne rfl
      · exact hrest.1 List.nil_prefix

/-! ### The two patches -/

/-- A patch is carried out: the version is increased, the task is recorded below what the operations alone leave, and
nothing changes where no operation points to. -/
def Records (s : Surroundings) (task revision : Str) (doc : Doc δ) (ops : List (Op δ))
    (outcome : Except Error (Int × Doc δ)) : Prop :=
  ∃ members, Lib.applyPatch ops doc = some (.object members) ∧
    (∀ q, (∀ op ∈ ops, Diverge op.path q) → resolve q (.object members) = resolve q doc) ∧
    outcome = .ok (versionAfter doc, .object (recordedMembers s task revision doc members))

/-- A patch of operations that can be carried out is carried out as a whole exactly if the tools are not an array. -/
private theorem records_iff (haccepted : Accepted doc) (hops : ops ≠ []) {members : List (Str × Doc δ)}
    (hready : Ready doc ops members)
    (helsewhere : ∀ q, (∀ op ∈ ops, Diverge op.path q) → resolve q (.object members) = resolve q doc)
    (task revision : Str) (bomVersion : Int) :
    Records s task revision doc ops (applyPatch s task revision bomVersion doc ops) ↔ ¬ LegacyTools doc := by
  constructor
  · rintro ⟨_, -, -, houtcome⟩ hlegacy
    rw [applyPatch_legacy task revision hlegacy hops hready] at houtcome
    cases houtcome
  · intro hnew
    exact ⟨members, hready.applied, helsewhere, applyPatch_ready task revision haccepted hnew hops hready bomVersion⟩

/-- A patch of the checks or for vulnerabilities is carried out exactly if the tools of the document are not an array. -/
theorem applyPatch_records_iff (s : Surroundings) (doc : Doc δ) (haccepted : Accepted doc) (task revision : Str)
    (bomVersion : Int) :
    (∀ errors ops, Reported doc errors → ntia2021Patch s doc errors = .ok ops → ops ≠ [] →
      (Records s task revision doc ops (applyPatch s task revision bomVersion doc ops) ↔ ¬ LegacyTools doc)) ∧
    ∀ values, Records s task revision doc (vulnPatch doc values)
      (applyPatch s task revision bomVersion doc (vulnPatch doc values)) ↔ ¬ LegacyTools doc := by
  constructor
  · intro errors ops hreported hok hops
    obtain ⟨t, hbuilt⟩ := ntia2021Patch_built haccepted hreported hok
    obtain ⟨members, rfl, hready⟩ := hbuilt.ready
    exact records_iff haccepted hops hready hbuilt.elsewhere task revision bomVersion
  · intro values
    obtain ⟨members, hready, helsewhere⟩ := vulnPatch_ready haccepted values
    have hadd : .add vulnerabilitiesPath (.array []) ∈ vulnPatch doc values :=
      List.mem_append_left _ (List.mem_append_right _ (List.mem_singleton_self _))
    refine records_iff haccepted (List.ne_nil_of_mem hadd) hready ?_ task revision bomVersion
    intro q hq
    exact helsewhere q (hq _ hadd)

/-! ### A document with an array of tools -/

def sampleSurroundings : Surroundings := ⟨fun _ => none, "2026-01-01T00:00:00Z".toList, "1".toList⟩

/-- A document with the tools in the old form, or without tools. -/
def sampleBom (legacy : Bool) : Doc Int :=
  .object [("version".toList, .scalar (.integer 1)),
    ("metadata".toList, .object (if legacy then [("tools".toList, .array [])] else []))]

private theorem sampleBom_accepted (legacy : Bool) : Accepted (sampleBom legacy) := by
  cases legacy
  · refine ⟨⟨_, rfl⟩, ?_, ?_, ?_, ?_, ?_⟩
    · rintro m ⟨⟩
      exact ⟨_, rfl⟩
    · rintro t ⟨⟩
    · rintro t ⟨⟩
    · rintro t ⟨⟩
    · rintro t ⟨⟩
      exact ⟨_, rfl⟩
  · refine ⟨⟨_, rfl⟩, ?_, ?_, ?_, ?_, ?_⟩
    · rintro m ⟨⟩
      exact ⟨_, rfl⟩
    · rintro t ⟨⟩
      exact Or.inr ⟨_, rfl⟩
    · rintro t ⟨⟩
    · rintro t ⟨⟩
    · rintro t ⟨⟩
      exact ⟨_, rfl⟩

/-- The supplier is added to a document without tools, and vulnerabilities to the same document. -/
theorem applyPatch_records_iff_sampleBom :
    ntia2021Patch sampleSurroundings (sampleBom false) [.property .metadataSupplier] =
        .ok [.add supplierPath ASF_ENTITY] ∧
      applyPatch sampleSurroundings "augment".toList "00001".toList 1 (sampleBom false) [.add supplierPath ASF_ENTITY] =
        .ok (2, .object (recordedMembers sampleSurroundings "augment".toList "00001".toList (sampleBom false)
          [("version".toList, .scalar (.integer 1)),
            ("metadata".toList, .object [("supplier".toList, ASF_ENTITY)])])) ∧
      applyPatch sampleSurroundings "osv-scan".toList "00001".toList 1 (sampleBom false)
          (vulnPatch (sampleBom false) [text "CVE-2026-0001"]) =
        .ok (2, .object (recordedMembers sampleSurroundings "osv-scan".toList "00001".toList (sampleBom false)
          [("version".toList, .scalar (.integer 1)), ("metadata".toList, .object []),
            ("vulnerabilities".toList, .array [text "CVE-2026-0001"])])) := by
  have hnew : ¬ LegacyTools (sampleBom false) := by
    rintro ⟨items, hitems⟩
    cases hitems
  have hreported : Reported (sampleBom false) [.property .metadataSupplier] := by
    intro property index hmem
    cases List.mem_singleton.1 hmem
  have hpatch : ntia2021Patch sampleSurroundings (sampleBom false) [.property .metadataSupplier] =
      .ok [.add supplierPath ASF_ENTITY] := rfl
  refine ⟨hpatch, ?_, ?_⟩
  · obtain ⟨members, happlied, -, houtcome⟩ := ((applyPatch_records_iff sampleSurroundings (sampleBom false)
      (sampleBom_accepted false) "augment".toList "00001".toList 1).1 _ _ hreported hpatch (List.cons_ne_nil _ _)).2 hnew
    rw [houtcome]
    cases happlied
    rfl
  · obtain ⟨members, happlied, -, houtcome⟩ := ((applyPatch_records_iff sampleSurroundings (sampleBom false)
      (sampleBom_accepted false) "osv-scan".toList "00001".toList 1).2 [text "CVE-2026-0001"]).2 hnew
    rw [houtcome]
    cases happlied
    rfl

/-- The supplier of a document with an array of tools is missing: the patch of the checks cannot be carried out. -/
theorem not_applyPatch_records : ¬ ∀ (doc : Doc Int) (errors : List Missing) (ops : List (Op Int)), Accepted doc →
    Reported doc errors → ntia2021Patch sampleSurroundings doc errors = .ok ops → ops ≠ [] →
      Records sampleSurroundings "augment".toList "00001".toList doc ops
        (applyPatch sampleSurroundings "augment".toList "00001".toList 1 doc ops) := by
  intro h
  have hreported : Reported (sampleBom true) [.property .metadataSupplier] := by
    intro property index hmem
    cases List.mem_singleton.1 hmem
  obtain ⟨_, -, -, houtcome⟩ := h (sampleBom true) [.property .metadataSupplier] [.add supplierPath ASF_ENTITY]
    (sampleBom_accepted true) hreported rfl (List.cons_ne_nil _ _)
  have herror : applyPatch sampleSurroundings "augment".toList "00001".toList 1 (sampleBom true)
      [.add supplierPath ASF_ENTITY] = .error .notApplicable := rfl
  rw [herror] at houtcome
  cases houtcome

end Sbom

end TrustedReleases
