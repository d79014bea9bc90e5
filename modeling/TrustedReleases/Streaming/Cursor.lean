import TrustedReleases.Lib.JsonTree

/-!
# The cursor of a JSON document

Large JSON documents are read as events (`atr/sbom/streaming.py`), without a tree.  A cursor keeps the open arrays and
objects and gives each event its position, without the indices of arrays.  For a document that can be read, the cursor
gives the events their positions in the tree, whatever is done with them (`follow_events`).  The events come from a
package, and the limits on the bytes of a source are not modelled.
-/

namespace TrustedReleases

open Lib JsonTree

namespace Streaming

/-- A text, and the value that is shown where the text has `%r`. -/
inductive Error where
  | malformed (text : String) (shown : Option Str)
  | unsupported (text : String) (shown : Option Str)
  | limit (text : String)
  | lookup
  deriving DecidableEq

def MAX_DEPTH : Nat := 64

def MAX_MEMBERS : Nat := 10000

def MAX_MEMBER_CHARS : Nat := 1024 * 1024

def MAX_STRING : Nat := 1024 * 1024

variable {δ : Type} {S : Type}

/-! ### Frames -/

/-- `Frame` -/
structure Frame where
  path : Position
  array : Bool
  key : Option Str
  members : Finset Str
  size : Nat

/-- `Frame.member` -/
def Frame.member (frame : Frame) (name : Str) : Except Error (Position × Frame) := do
  raiseIf (name ∈ frame.members) (.malformed "Duplicate JSON object member name %r" (some (name.take 80)))
  let members := insert name frame.members
  let size := frame.size + name.length
  raiseIf (MAX_MEMBERS < members.card ∨ MAX_MEMBER_CHARS < size)
    (.limit "JSON object member names exceed the analysis limit")
  return (frame.path, { frame with members := members, size := size, key := some name })

/-- The text that an event comes with. -/
def eventText : JsonEvent (Scalar δ) → Option Str
  | .scalar (.string s) => some s
  | .mapKey name => some name
  | _ => none

/-- The position of the next value. -/
def nextPath : List Frame → Position
  | [] => []
  | frame :: _ => frame.path ++ [if frame.array then none else frame.key]

/-- `Cursor.advance`, with the last frame first. -/
def advance (stack : List Frame) (event : JsonEvent (Scalar δ)) : Except Error (Position × List Frame) := do
  raiseIf (∃ text ∈ eventText event, MAX_STRING < text.length) (.limit "JSON string exceeds the analysis limit")
  match event with
  | .mapKey name =>
    match stack with
    | [] => .error .lookup
    | frame :: rest => do
      let (path, frame) ← frame.member name
      return (path, frame :: rest)
  | .endMap | .endArray =>
    match stack with
    | [] => .error .lookup
    | frame :: rest => return (frame.path, rest)
  | .startMap => do
    raiseIf (MAX_DEPTH ≤ stack.length) (.limit "JSON nesting exceeds the analysis limit")
    return (nextPath stack, ⟨nextPath stack, false, none, ∅, 0⟩ :: stack)
  | .startArray => do
    raiseIf (MAX_DEPTH ≤ stack.length) (.limit "JSON nesting exceeds the analysis limit")
    return (nextPath stack, ⟨nextPath stack, true, none, ∅, 0⟩ :: stack)
  | .scalar _ => return (nextPath stack, stack)

/-- An event is given its position, and is then taken in. -/
def follow (feed : S → Position → JsonEvent (Scalar δ) → Except Error S) (c : List Frame × S)
    (event : JsonEvent (Scalar δ)) : Except Error (List Frame × S) := do
  let (path, stack) ← advance c.1 event
  let s ← feed c.2 path event
  return (stack, s)

/-! ### Documents that can be read -/

/-- The string is not too long. -/
def ShortScalar : Scalar δ → Prop
  | .string s => s.length ≤ MAX_STRING
  | _ => True

/-- A document within the limits of the cursor and without duplicate names, below some open arrays and objects. -/
inductive Readable : Nat → JsonTree (Scalar δ) → Prop
  | scalar {depth : Nat} {value : Scalar δ} : ShortScalar value → Readable depth (.scalar value)
  | array {depth : Nat} {items : List (JsonTree (Scalar δ))} : depth < MAX_DEPTH →
      (∀ t ∈ items, Readable (depth + 1) t) → Readable depth (.array items)
  | object {depth : Nat} {members : List (Str × JsonTree (Scalar δ))} : depth < MAX_DEPTH →
      (members.map Prod.fst).Nodup → members.length ≤ MAX_MEMBERS →
      (members.map fun m => m.1.length).sum ≤ MAX_MEMBER_CHARS → (∀ m ∈ members, m.1.length ≤ MAX_STRING) →
      (∀ m ∈ members, Readable (depth + 1) m.2) → Readable depth (.object members)

variable {feed : S → Position → JsonEvent (Scalar δ) → Except Error S} {stack : List Frame} {s : S}

private theorem advance_of_short {event : JsonEvent (Scalar δ)}
    (h : ∀ text ∈ eventText event, text.length ≤ MAX_STRING) :
    ¬ ∃ text ∈ eventText event, MAX_STRING < text.length := by
  rintro ⟨text, hmem, hlong⟩
  have hshort := h text hmem
  omega

private theorem follow_scalar {value : Scalar δ} (h : ShortScalar value) : follow feed (stack, s) (.scalar value) =
    feed s (nextPath stack) (.scalar value) >>= fun s => .ok (stack, s) := by
  have hshort : ∀ text ∈ eventText (.scalar value), text.length ≤ MAX_STRING := by
    intro text hmem
    cases value with
    | string t =>
      obtain rfl := Option.some.inj hmem
      exact h
    | null => cases hmem
    | boolean b => cases hmem
    | integer n => cases hmem
    | decimal d => cases hmem
  unfold follow advance
  rw [raiseIf, if_neg (advance_of_short hshort)]
  rfl

private theorem follow_startMap (h : stack.length < MAX_DEPTH) : follow feed (stack, s) .startMap =
    feed s (nextPath stack) .startMap >>= fun s => .ok (⟨nextPath stack, false, none, ∅, 0⟩ :: stack, s) := by
  unfold follow advance
  rw [raiseIf, if_neg (advance_of_short fun text hmem => by cases hmem), raiseIf, if_neg (not_le.2 h)]
  rfl

private theorem follow_startArray (h : stack.length < MAX_DEPTH) : follow feed (stack, s) .startArray =
    feed s (nextPath stack) .startArray >>= fun s => .ok (⟨nextPath stack, true, none, ∅, 0⟩ :: stack, s) := by
  unfold follow advance
  rw [raiseIf, if_neg (advance_of_short fun text hmem => by cases hmem), raiseIf, if_neg (not_le.2 h)]
  rfl

private theorem follow_endMap {frame : Frame} : follow feed (frame :: stack, s) .endMap =
    feed s frame.path .endMap >>= fun s => .ok (stack, s) := by
  unfold follow advance
  rw [raiseIf, if_neg (advance_of_short fun text hmem => by cases hmem)]
  rfl

private theorem follow_endArray {frame : Frame} : follow feed (frame :: stack, s) .endArray =
    feed s frame.path .endArray >>= fun s => .ok (stack, s) := by
  unfold follow advance
  rw [raiseIf, if_neg (advance_of_short fun text hmem => by cases hmem)]
  rfl

/-- A frame that more members fit into. -/
structure Frame.Fits (frame : Frame) (names : List Str) : Prop where
  object : frame.array = false
  fresh : ∀ name ∈ names, name ∉ frame.members
  count : frame.members.card + names.length ≤ MAX_MEMBERS
  chars : frame.size + (names.map List.length).sum ≤ MAX_MEMBER_CHARS

private theorem follow_mapKey {frame : Frame} {name : Str} {names : List Str} (h : frame.Fits (name :: names))
    (hnodup : (name :: names).Nodup) (hshort : name.length ≤ MAX_STRING) :
    ∃ frame', frame'.Fits names ∧ frame'.path = frame.path ∧ frame'.key = some name ∧
      ∀ s, follow feed (frame :: stack, s) (.mapKey name) =
        feed s frame.path (.mapKey name) >>= fun s => .ok (frame' :: stack, s) := by
  have hfresh := h.fresh name List.mem_cons_self
  have hcard : (insert name frame.members).card = frame.members.card + 1 := Finset.card_insert_of_notMem hfresh
  have hcount := h.count
  have hchars := h.chars
  rw [List.length_cons] at hcount
  rw [List.map_cons, List.sum_cons] at hchars
  refine ⟨{ frame with members := insert name frame.members, size := frame.size + name.length, key := some name },
    ⟨h.object, ?_, ?_, ?_⟩, rfl, rfl, ?_⟩
  · intro other hother hmem
    rcases Finset.mem_insert.1 hmem with rfl | hmem
    · exact (List.nodup_cons.1 hnodup).1 hother
    · exact h.fresh other (List.mem_cons_of_mem _ hother) hmem
  · show (insert name frame.members).card + names.length ≤ MAX_MEMBERS
    omega
  · show frame.size + name.length + (names.map List.length).sum ≤ MAX_MEMBER_CHARS
    omega
  · have hlimits : ¬ (MAX_MEMBERS < (insert name frame.members).card ∨
        MAX_MEMBER_CHARS < frame.size + name.length) := by
      rw [hcard]
      omega
    have hlong : ∀ text ∈ eventText (.mapKey name : JsonEvent (Scalar δ)), text.length ≤ MAX_STRING := by
      intro text hmem
      obtain rfl := Option.some.inj hmem
      exact hshort
    have hmember : frame.member name = .ok (frame.path, { frame with
        members := insert name frame.members, size := frame.size + name.length, key := some name }) := by
      unfold Frame.member
      rw [raiseIf, if_neg hfresh, ok_bind]
      dsimp only
      rw [raiseIf, if_neg hlimits]
      rfl
    intro s
    unfold follow advance
    rw [raiseIf, if_neg (advance_of_short hlong)]
    dsimp only
    rw [hmember]
    rfl

/-! ### The events of a document -/

/-- What is done with the events of a trace. -/
def feedAll (feed : S → Position → JsonEvent (Scalar δ) → Except Error S) (s : S)
    (trace : List (Position × JsonEvent (Scalar δ))) : Except Error S :=
  trace.foldlM (fun s e => feed s e.1 e.2) s

theorem feedAll_append (feed : S → Position → JsonEvent (Scalar δ) → Except Error S) (s : S)
    (trace trace' : List (Position × JsonEvent (Scalar δ))) :
    feedAll feed s (trace ++ trace') = feedAll feed s trace >>= fun s => feedAll feed s trace' := by
  unfold feedAll
  rw [List.foldlM_append]

theorem feedAll_cons (feed : S → Position → JsonEvent (Scalar δ) → Except Error S) (s : S) (p : Position)
    (event : JsonEvent (Scalar δ)) (trace : List (Position × JsonEvent (Scalar δ))) :
    feedAll feed s ((p, event) :: trace) = feed s p event >>= fun s => feedAll feed s trace := by
  unfold feedAll
  rw [List.foldlM_cons]

@[simp] theorem feedAll_nil (feed : S → Position → JsonEvent (Scalar δ) → Except Error S) (s : S) :
    feedAll feed s [] = .ok s := rfl

/-- The events of a value are taken in at its positions, and leave the stack as before. -/
def Followed (feed : S → Position → JsonEvent (Scalar δ) → Except Error S) (t : JsonTree (Scalar δ)) : Prop :=
  ∀ (stack : List Frame) (s : S), Readable stack.length t → t.events.foldlM (follow feed) (stack, s) =
    feedAll feed s (t.trace (nextPath stack)) >>= fun s => .ok (stack, s)

private theorem follow_items {items : List (JsonTree (Scalar δ))} {p : Position} (h : ∀ t ∈ items, Followed feed t)
    (hread : ∀ t ∈ items, Readable stack.length t) (hnext : nextPath stack = p ++ [none]) :
    (itemEvents items).foldlM (follow feed) (stack, s) =
      feedAll feed s (itemTrace p items) >>= fun s => .ok (stack, s) := by
  induction items generalizing s with
  | nil => rfl
  | cons t items ih =>
    rw [itemEvents, List.foldlM_append, h t List.mem_cons_self stack s (hread t List.mem_cons_self), itemTrace,
      feedAll_append, hnext]
    cases feedAll feed s (t.trace (p ++ [none])) with
    | error e => rfl
    | ok s' => exact ih (fun t ht => h t (List.mem_cons_of_mem _ ht)) fun t ht => hread t (List.mem_cons_of_mem _ ht)

private theorem follow_members {members : List (Str × JsonTree (Scalar δ))} {frame : Frame}
    (h : ∀ m ∈ members, Followed feed m.2) (hread : ∀ m ∈ members, Readable (stack.length + 1) m.2)
    (hfits : frame.Fits (members.map Prod.fst)) (hnodup : (members.map Prod.fst).Nodup)
    (hshort : ∀ m ∈ members, m.1.length ≤ MAX_STRING) :
    ∃ frame' : Frame, frame'.path = frame.path ∧ ∀ s, (memberEvents members).foldlM (follow feed) (frame :: stack, s) =
      feedAll feed s (memberTrace frame.path members) >>= fun s => .ok (frame' :: stack, s) := by
  induction members generalizing frame with
  | nil => exact ⟨frame, rfl, fun s => rfl⟩
  | cons m members ih =>
    obtain ⟨name, t⟩ := m
    rw [List.map_cons] at hfits hnodup
    obtain ⟨next, hnextFits, hpath, hkey, hstep⟩ :=
      @follow_mapKey δ S feed stack frame name (members.map Prod.fst) hfits hnodup (hshort _ List.mem_cons_self)
    obtain ⟨last, hlast, hrest⟩ := ih (fun m hm => h m (List.mem_cons_of_mem _ hm))
      (fun m hm => hread m (List.mem_cons_of_mem _ hm)) hnextFits (List.nodup_cons.1 hnodup).2
      fun m hm => hshort m (List.mem_cons_of_mem _ hm)
    have hnext : nextPath (next :: stack) = frame.path ++ [some name] := by
      simp [nextPath, hnextFits.object, hpath, hkey]
    refine ⟨last, hlast.trans hpath, fun s => ?_⟩
    rw [memberEvents, List.foldlM_cons, hstep, memberTrace, feedAll_cons]
    cases feed s frame.path (.mapKey name) with
    | error e => rfl
    | ok s₁ =>
      have hvalue := h (name, t) List.mem_cons_self (next :: stack) s₁ (hread (name, t) List.mem_cons_self)
      rw [ok_bind, ok_bind, ok_bind, List.foldlM_append, hvalue, hnext, feedAll_append]
      cases feedAll feed s₁ (t.trace (frame.path ++ [some name])) with
      | error e => rfl
      | ok s₂ =>
        rw [ok_bind, ok_bind, ok_bind, hrest, hpath]

/-- The events of a document that can be read come at their positions in the tree, whatever is done with them. -/
theorem follow_events (t : JsonTree (Scalar δ)) : Followed feed t := by
  induction t with
  | scalar value =>
    intro stack s hread
    cases hread with
    | scalar hshort =>
      rw [events, trace, List.foldlM_cons, follow_scalar hshort, feedAll_cons]
      cases feed s (nextPath stack) (.scalar value) <;> rfl
  | array items ih =>
    intro stack s hread
    cases hread with
    | array hdepth hitems =>
      rw [events, trace, List.foldlM_cons, follow_startArray hdepth, feedAll_cons]
      cases feed s (nextPath stack) .startArray with
      | error e => rfl
      | ok s₁ =>
        have hrest := @follow_items δ S feed (⟨nextPath stack, true, none, ∅, 0⟩ :: stack) s₁ items (nextPath stack) ih
          hitems rfl
        rw [ok_bind, ok_bind, ok_bind, List.foldlM_append, feedAll_append, hrest]
        cases feedAll feed s₁ (itemTrace (nextPath stack) items) with
        | error e => rfl
        | ok s₂ =>
          rw [ok_bind, ok_bind, ok_bind, List.foldlM_cons, follow_endArray, feedAll_cons]
          cases feed s₂ (nextPath stack) .endArray <;> rfl
  | object members ih =>
    intro stack s hread
    cases hread with
    | object hdepth hnodup hcount hchars hshort hvalues =>
      rw [events, trace, List.foldlM_cons, follow_startMap hdepth, feedAll_cons]
      cases feed s (nextPath stack) .startMap with
      | error e => rfl
      | ok s₁ =>
        have hfits : (⟨nextPath stack, false, none, ∅, 0⟩ : Frame).Fits (members.map Prod.fst) := by
          refine ⟨rfl, fun _ _ => Finset.notMem_empty _, ?_, ?_⟩
          · rw [Finset.card_empty, List.length_map, Nat.zero_add]
            exact hcount
          · rw [List.map_map, Nat.zero_add]
            exact hchars
        obtain ⟨last, hlast, hrest⟩ := @follow_members δ S feed stack members _ ih hvalues hfits hnodup hshort
        rw [ok_bind, ok_bind, ok_bind, List.foldlM_append, feedAll_append, hrest]
        cases feedAll feed s₁ (memberTrace (nextPath stack) members) with
        | error e => rfl
        | ok s₂ =>
          rw [ok_bind, ok_bind, ok_bind, List.foldlM_cons, follow_endMap, feedAll_cons, hlast]
          cases feed s₂ (nextPath stack) .endMap <;> rfl

end Streaming

end TrustedReleases
