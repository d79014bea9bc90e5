import TrustedReleases.Lib.Except
import TrustedReleases.Lib.Str

/-!
# Trees of arrays and objects

Documents of scalars, arrays and objects, their events in the order in which they are read, and the position of each
event.  The positions leave the indices of arrays out.  Objects are lists of members: `setMember` puts a member in the
place of the one with its name, or else at the end, and `setAt` does so under a position.
-/

namespace Lib

inductive JsonTree (σ : Type) where
  | scalar (value : σ)
  | array (items : List (JsonTree σ))
  | object (members : List (Str × JsonTree σ))

/-- The scalars of JSON, with the numbers that are not integers. -/
inductive Scalar (δ : Type) where
  | null
  | boolean (b : Bool)
  | integer (n : Int)
  | decimal (d : δ)
  | string (s : Str)
  deriving DecidableEq

/-- A name for each object and nothing for each array on the way to a value. -/
abbrev Position := List (Option Str)

/-- The events of a document. -/
inductive JsonEvent (σ : Type) where
  | scalar (value : σ)
  | startMap
  | mapKey (name : Str)
  | endMap
  | startArray
  | endArray
  deriving DecidableEq

namespace JsonTree

variable {σ τ : Type}

/-- Induction over the items of arrays and the members of objects. -/
@[induction_eliminator, elab_as_elim]
theorem induction {motive : JsonTree σ → Prop} (scalar : ∀ value, motive (.scalar value))
    (array : ∀ items, (∀ t ∈ items, motive t) → motive (.array items))
    (object : ∀ members, (∀ m ∈ members, motive m.2) → motive (.object members)) (t : JsonTree σ) : motive t :=
  JsonTree.rec (motive_1 := motive) (motive_2 := fun items => ∀ t ∈ items, motive t)
    (motive_3 := fun members => ∀ m ∈ members, motive m.2) (motive_4 := fun m => motive m.2)
    scalar array object (fun _ h => nomatch h)
    (fun _ _ hhead htail => List.forall_mem_cons.2 ⟨hhead, htail⟩) (fun _ h => nomatch h)
    (fun _ _ hhead htail => List.forall_mem_cons.2 ⟨hhead, htail⟩) (fun _ _ h => h) t

/-! ### Events -/

mutual

/-- The events of a document, in the order in which it is read. -/
def events : JsonTree σ → List (JsonEvent σ)
  | scalar value => [.scalar value]
  | array items => .startArray :: (itemEvents items ++ [.endArray])
  | object members => .startMap :: (memberEvents members ++ [.endMap])

def itemEvents : List (JsonTree σ) → List (JsonEvent σ)
  | [] => []
  | t :: items => t.events ++ itemEvents items

def memberEvents : List (Str × JsonTree σ) → List (JsonEvent σ)
  | [] => []
  | (name, t) :: members => .mapKey name :: (t.events ++ memberEvents members)

end

mutual

/-- The events of a document at a position, each with its own position. -/
def trace (p : Position) : JsonTree σ → List (Position × JsonEvent σ)
  | scalar value => [(p, .scalar value)]
  | array items => (p, .startArray) :: (itemTrace p items ++ [(p, .endArray)])
  | object members => (p, .startMap) :: (memberTrace p members ++ [(p, .endMap)])

def itemTrace (p : Position) : List (JsonTree σ) → List (Position × JsonEvent σ)
  | [] => []
  | t :: items => t.trace (p ++ [none]) ++ itemTrace p items

def memberTrace (p : Position) : List (Str × JsonTree σ) → List (Position × JsonEvent σ)
  | [] => []
  | (name, t) :: members => (p, .mapKey name) :: (t.trace (p ++ [some name]) ++ memberTrace p members)

end

private theorem itemTrace_append {p q : Position} {items : List (JsonTree σ)}
    (h : ∀ t ∈ items, ∀ q', t.trace (p ++ q') = (t.trace q').map fun e => (p ++ e.1, e.2)) :
    itemTrace (p ++ q) items = (itemTrace q items).map fun e => (p ++ e.1, e.2) := by
  induction items with
  | nil => rfl
  | cons t items ih =>
    have hrest := ih fun t' ht' => h t' (List.mem_cons_of_mem _ ht')
    rw [itemTrace, itemTrace, List.map_append, hrest, List.append_assoc, h t List.mem_cons_self]

private theorem memberTrace_append {p q : Position} {members : List (Str × JsonTree σ)}
    (h : ∀ m ∈ members, ∀ q', m.2.trace (p ++ q') = (m.2.trace q').map fun e => (p ++ e.1, e.2)) :
    memberTrace (p ++ q) members = (memberTrace q members).map fun e => (p ++ e.1, e.2) := by
  induction members with
  | nil => rfl
  | cons m members ih =>
    obtain ⟨name, t⟩ := m
    have hrest := ih fun m' hm' => h m' (List.mem_cons_of_mem _ hm')
    rw [memberTrace, memberTrace, List.map_cons, List.map_append, hrest, List.append_assoc,
      h (name, t) List.mem_cons_self]

/-- The positions below a position are those below its end. -/
theorem trace_append (t : JsonTree σ) (p q : Position) :
    t.trace (p ++ q) = (t.trace q).map fun e => (p ++ e.1, e.2) := by
  induction t generalizing q with
  | scalar value => simp [trace]
  | array items ih =>
    rw [trace, trace, itemTrace_append ih]
    simp
  | object members ih =>
    rw [trace, trace, memberTrace_append ih]
    simp

theorem prefix_of_mem_trace {t : JsonTree σ} {p : Position} {e : Position × JsonEvent σ} (h : e ∈ t.trace p) :
    p <+: e.1 := by
  rw [← List.append_nil p, trace_append] at h
  obtain ⟨e', -, rfl⟩ := List.mem_map.1 h
  exact List.prefix_append p e'.1

theorem mem_memberTrace {members : List (Str × JsonTree σ)} {p : Position} {e : Position × JsonEvent σ}
    (h : e ∈ memberTrace p members) :
    ∃ m ∈ members, e = (p, .mapKey m.1) ∨ p ++ [some m.1] <+: e.1 := by
  induction members with
  | nil => cases h
  | cons m members ih =>
    obtain ⟨name, t⟩ := m
    rw [memberTrace, List.mem_cons, List.mem_append] at h
    rcases h with h | h | h
    · exact ⟨_, List.mem_cons_self, Or.inl h⟩
    · exact ⟨_, List.mem_cons_self, Or.inr (prefix_of_mem_trace h)⟩
    · obtain ⟨m, hm, he⟩ := ih h
      exact ⟨m, List.mem_cons_of_mem _ hm, he⟩

/-! ### Members -/

/-- The members with `t` under a name: in the place of the old value, or else at the end. -/
def setMember (name : Str) (t : JsonTree σ) : List (Str × JsonTree σ) → List (Str × JsonTree σ)
  | [] => [(name, t)]
  | m :: members => if m.1 = name then (name, t) :: members else m :: setMember name t members

theorem lookup_cons_ite (m : Str × JsonTree σ) (members : List (Str × JsonTree σ)) (q : Str) :
    (m :: members).lookup q = if q = m.1 then some m.2 else members.lookup q := by
  rw [List.lookup_cons]
  by_cases hq : q = m.1
  · simp [hq]
  · simp [hq, beq_eq_false_iff_ne.2 hq]

@[simp] theorem lookup_setMember (name : Str) (t : JsonTree σ) (members : List (Str × JsonTree σ)) (q : Str) :
    (setMember name t members).lookup q = if q = name then some t else members.lookup q := by
  induction members with
  | nil => rw [setMember, lookup_cons_ite, List.lookup_nil]
  | cons m members ih =>
    unfold setMember
    by_cases hm : m.1 = name
    · rw [if_pos hm, lookup_cons_ite, lookup_cons_ite, hm]
      split <;> rfl
    · rw [if_neg hm, lookup_cons_ite, lookup_cons_ite, ih]
      by_cases hq : q = m.1
      · rw [if_pos hq, if_neg (by rw [hq]; exact hm), if_pos hq]
      · rw [if_neg hq, if_neg hq]

@[simp] theorem setMember_setMember (name : Str) (t u : JsonTree σ) (members : List (Str × JsonTree σ)) :
    setMember name u (setMember name t members) = setMember name u members := by
  induction members with
  | nil => simp [setMember]
  | cons m members ih =>
    by_cases hm : m.1 = name
    · rw [setMember, setMember, if_pos hm, if_pos hm, setMember, if_pos rfl]
    · rw [setMember, setMember, if_neg hm, if_neg hm, setMember, if_neg hm, ih]

/-! ### Values under a position -/

/-- The value at a position of names. -/
def getAt : Position → JsonTree σ → Option (JsonTree σ)
  | [], t => some t
  | some name :: p, object members => (members.lookup name).bind (getAt p)
  | _ :: _, _ => none

/-- The document with a value at a position of names, below objects that exist. -/
def setAt : Position → JsonTree σ → JsonTree σ → Option (JsonTree σ)
  | [], u, _ => some u
  | [some name], u, object members => some (object (setMember name u members))
  | some name :: q :: p, u, object members =>
    (members.lookup name).bind fun child =>
      (setAt (q :: p) u child).map fun child => object (setMember name child members)
  | _ :: _, _, _ => none

private theorem setAt_cons {name : Str} {p : Position} {u : JsonTree σ} {members : List (Str × JsonTree σ)}
    (hp : p ≠ []) :
    setAt (some name :: p) u (object members) = (members.lookup name).bind fun child =>
      (setAt p u child).map fun child => object (setMember name child members) := by
  cases p with
  | nil => exact absurd rfl hp
  | cons q p => rfl

/-- What is set is there. -/
theorem getAt_setAt {p : Position} {u t t' : JsonTree σ} (h : setAt p u t = some t') : getAt p t' = some u := by
  induction p generalizing t t' with
  | nil =>
    rw [setAt] at h
    rw [getAt, h]
  | cons q p ih =>
    cases q with
    | none => cases p <;> cases h
    | some name =>
      cases t with
      | scalar value => cases p <;> cases h
      | array items => cases p <;> cases h
      | object members =>
        by_cases hp : p = []
        · subst hp
          rw [setAt] at h
          obtain rfl := Option.some.inj h
          simp [getAt]
        · rw [setAt_cons hp] at h
          obtain ⟨child, -, hchild⟩ := Option.bind_eq_some_iff.1 h
          obtain ⟨child', hset, rfl⟩ := Option.map_eq_some_iff.1 hchild
          rw [getAt, lookup_setMember, if_pos rfl]
          exact ih hset

/-- Whether a value can be set does not depend on it, and the last one set counts. -/
theorem setAt_setAt {p : Position} {u v t t' : JsonTree σ} (h : setAt p u t = some t') :
    setAt p v t' = setAt p v t ∧ (setAt p v t).isSome := by
  induction p generalizing t t' with
  | nil => exact ⟨rfl, rfl⟩
  | cons q p ih =>
    cases q with
    | none => cases p <;> cases h
    | some name =>
      cases t with
      | scalar value => cases p <;> cases h
      | array items => cases p <;> cases h
      | object members =>
        by_cases hp : p = []
        · subst hp
          rw [setAt] at h
          obtain rfl := Option.some.inj h
          simp [setAt]
        · rw [setAt_cons hp] at h
          obtain ⟨child, hlookup, hchild⟩ := Option.bind_eq_some_iff.1 h
          obtain ⟨child', hset, rfl⟩ := Option.map_eq_some_iff.1 hchild
          obtain ⟨hsame, hsome⟩ := ih hset
          rw [setAt_cons hp, setAt_cons hp, lookup_setMember, if_pos rfl, hlookup, Option.bind_some, Option.bind_some,
            hsame]
          simp [hsome]

/-- A member of an object that has been set. -/
theorem setAt_append {p : Position} {name : Str} {u t t' : JsonTree σ} {members : List (Str × JsonTree σ)}
    (h : setAt p (object members) t = some t') :
    setAt (p ++ [some name]) u t' = setAt p (object (setMember name u members)) t := by
  induction p generalizing t t' with
  | nil =>
    rw [setAt] at h
    obtain rfl := Option.some.inj h
    rfl
  | cons q p ih =>
    cases q with
    | none => cases p <;> cases h
    | some head =>
      cases t with
      | scalar value => cases p <;> cases h
      | array items => cases p <;> cases h
      | object outer =>
        by_cases hp : p = []
        · subst hp
          rw [setAt] at h
          obtain rfl := Option.some.inj h
          simp [setAt]
        · rw [setAt_cons hp] at h
          obtain ⟨child, hlookup, hchild⟩ := Option.bind_eq_some_iff.1 h
          obtain ⟨child', hset, rfl⟩ := Option.map_eq_some_iff.1 hchild
          rw [List.cons_append, setAt_cons (by simp), setAt_cons hp, lookup_setMember, if_pos rfl, hlookup,
            Option.bind_some, Option.bind_some, ih hset]
          simp

end JsonTree

end Lib
