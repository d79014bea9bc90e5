import TrustedReleases.PubSub.Listener

/-!
# No payload is passed over

Once a cursor is saved, the payloads up to the one with that cursor are never sent again.  Each of them was dealt with
(`NothingPassedOver`) in every run in which failures can be recorded and a connection without a cursor leaves nothing
behind.  Where the database fails for a handler and then for the record of the failure as well, the next payload passes
over the one that failed.
-/

namespace TrustedReleases

open Lib

namespace PubSub

variable {stream : Str} {s : System}

namespace System

/-- The payloads up to the one with the cursor were dealt with. -/
def Settled (s : System) (cursor : Str) : Prop := ∃ k, s.cursorAt k = some cursor ∧ ∀ i ≤ k, s.Dealt i

/-- Whatever payload has the saved cursor, those up to it were dealt with. -/
def NothingPassedOver (stream : Str) (s : System) : Prop :=
  ∀ cursor, s.file = some (.saved stream cursor) → ∀ k, s.cursorAt k = some cursor → ∀ i ≤ k, s.Dealt i

/-- Where the connection of a listener goes on. -/
def next (s : System) : Option Nat := s.listener.bind (·.connection)

end System

/-- A failure that cannot be recorded is one of a payload that was dealt with before, and a connection without a cursor
is opened where all payloads were dealt with. -/
def Covered (s : System) : Event → Prop
  | .deliver handler recorded => ∀ i payload, s.next = some i → s.history[i]? = some payload →
      (∃ detail, handlePayload handler payload = .error detail) → recorded = false → s.Dealt i
  | .connect => ∀ l, s.listener = some l → l.cursor = none → ∀ i < s.history.length, s.Dealt i
  | _ => True

structure Invariant (stream : Str) (s : System) : Prop where
  /-- no two payloads have one cursor -/
  cursors : ∀ i j cursor, s.cursorAt i = some cursor → s.cursorAt j = some cursor → i = j
  /-- the saved cursor -/
  saved : ∀ cursor, s.file = some (.saved stream cursor) → s.Settled cursor
  /-- the cursor in memory -/
  cursor : ∀ l, s.listener = some l → ∀ cursor, l.cursor = some cursor → s.Settled cursor
  staged : ∀ l, s.listener = some l → ∀ cursor, l.staged = some cursor → s.Settled cursor
  /-- where the connection goes on -/
  connection : ∀ i, s.next = some i → i ≤ s.history.length ∧ ∀ j < i, s.Dealt j

/-! ### What grows -/

/-- Payloads are only added, and none ceases to be dealt with. -/
structure Grows (s t : System) : Prop where
  history : s.history <+: t.history
  dealt : ∀ i, s.Dealt i → t.Dealt i

private theorem Grows.cursorAt {t : System} (h : Grows s t) {i : Nat} {cursor : Str} (hi : s.cursorAt i = some cursor) :
    t.cursorAt i = some cursor := by
  obtain ⟨payload, hpayload, hcursor⟩ := Option.bind_eq_some_iff.1 hi
  obtain ⟨more, hmore⟩ := h.history
  have hlt := (List.getElem?_eq_some_iff.1 hpayload).1
  rw [System.cursorAt, ← hmore, List.getElem?_append_left hlt, hpayload]
  exact hcursor

theorem Grows.settled {t : System} (h : Grows s t) {cursor : Str} (hs : s.Settled cursor) : t.Settled cursor := by
  obtain ⟨k, hk, hdealt⟩ := hs
  exact ⟨k, h.cursorAt hk, fun i hi => h.dealt i (hdealt i hi)⟩

private theorem Grows.of_history_eq {t : System} (hhistory : t.history = s.history)
    (hdealt : ∀ i, s.Dealt i → t.Dealt i) :
    Grows s t := ⟨by rw [hhistory], hdealt⟩

/-- The payloads stay as they are, and whatever cursor there is now is settled. -/
theorem Invariant.keep {t : System} (h : Invariant stream s) (hhistory : t.history = s.history)
    (hdealt : ∀ i, s.Dealt i → t.Dealt i)
    (hfile : ∀ cursor, t.file = some (.saved stream cursor) → s.file = some (.saved stream cursor) ∨ t.Settled cursor)
    (hlistener : ∀ l, t.listener = some l → (∀ cursor, l.cursor = some cursor → t.Settled cursor) ∧
      (∀ cursor, l.staged = some cursor → t.Settled cursor) ∧
      ∀ i, l.connection = some i → i ≤ t.history.length ∧ ∀ j < i, t.Dealt j) : Invariant stream t where
  cursors := by
    intro i j cursor hi hj
    rw [System.cursorAt, hhistory] at hi hj
    exact h.cursors i j cursor hi hj
  saved := by
    intro cursor hcursor
    cases hfile cursor hcursor with
    | inl hold => exact (Grows.of_history_eq hhistory hdealt).settled (h.saved cursor hold)
    | inr hnew => exact hnew
  cursor := fun l hl => (hlistener l hl).1
  staged := fun l hl => (hlistener l hl).2.1
  connection := by
    intro i hi
    obtain ⟨l, hl, hconnection⟩ := Option.bind_eq_some_iff.1 hi
    exact (hlistener l hl).2.2 i hconnection

/-! ### What a step keeps -/

private theorem cursorAt_append {payload : Payload} {i : Nat} {cursor : Str}
    (hi : System.cursorAt { s with history := s.history ++ [payload] } i = some cursor) :
    s.cursorAt i = some cursor ∨ i = s.history.length ∧ payload.cursor = some cursor := by
  rcases lt_or_ge i s.history.length with hlt | hge
  · left
    rwa [System.cursorAt, List.getElem?_append_left hlt] at hi
  · right
    rw [System.cursorAt, List.getElem?_append_right hge, List.getElem?_singleton] at hi
    split at hi
    · rename_i hzero
      exact ⟨by omega, hi⟩
    · cases hi

private theorem mem_cursors {i : Nat} {cursor : Str} (hi : s.cursorAt i = some cursor) :
    some cursor ∈ s.history.map (·.cursor) := by
  obtain ⟨payload, hpayload, hcursor⟩ := Option.bind_eq_some_iff.1 hi
  exact List.mem_map.2 ⟨payload, List.mem_of_getElem? hpayload, hcursor⟩

theorem Invariant.publish (h : Invariant stream s) (payload : Payload) :
    Invariant stream (step stream s (.publish payload)) := by
  simp only [step]
  split
  · exact h
  · rename_i hfresh
    have hgrows : Grows s { s with history := s.history ++ [payload] } := ⟨List.prefix_append _ _, fun _ hi => hi⟩
    have hnew : ∀ i cursor, s.cursorAt i = some cursor → payload.cursor ≠ some cursor := by
      intro i cursor hi hcursor
      exact hfresh ⟨by rw [hcursor]; rfl, by rw [hcursor]; exact mem_cursors hi⟩
    refine ⟨?_, fun c hc => hgrows.settled (h.saved c hc), fun l hl c hc => hgrows.settled (h.cursor l hl c hc),
      fun l hl c hc => hgrows.settled (h.staged l hl c hc), ?_⟩
    · intro i j cursor hi hj
      rcases cursorAt_append hi with hi | ⟨hi, hci⟩ <;> rcases cursorAt_append hj with hj | ⟨hj, hcj⟩
      · exact h.cursors i j cursor hi hj
      · exact absurd hcj (hnew i cursor hi)
      · exact absurd hci (hnew j cursor hj)
      · rw [hi, hj]
    · intro i hi
      obtain ⟨hle, hdealt⟩ := h.connection i hi
      exact ⟨hle.trans (by simp), hdealt⟩

theorem Invariant.start (h : Invariant stream s) : Invariant stream (step stream s .start) := by
  simp only [step]
  split
  · rename_i cursor _ hload
    refine h.keep rfl (fun _ hi => hi) (fun _ hc => .inl hc) fun l hl => ?_
    obtain rfl := Option.some.inj hl
    refine ⟨fun c hc => ?_, fun c hc => (by cases hc), fun i hi => (by cases hi)⟩
    have hfile : s.file = some (.saved stream c) := by
      change cursor = some c at hc
      rw [hc] at hload
      unfold cursorLoad at hload
      split at hload
      · cases hload
      · cases hload
      · split_ifs at hload with hstream hcursor
        · cases hload
        · rename_i stream' cursor' hfile
          rw [hfile, not_not.1 hstream, Option.some.inj (Except.ok.inj hload)]
    exact h.saved c hfile
  · exact h

private theorem connectionStart_le (since : Option Str) : connectionStart s since ≤ s.history.length := by
  unfold connectionStart
  split
  · exact le_rfl
  · split
    · rename_i i hi
      exact (List.findIdx?_eq_some_iff_getElem.1 hi).1
    · exact le_rfl

/-- A connection with a cursor begins behind the payload that has it. -/
private theorem Invariant.connectionStart_eq (h : Invariant stream s) {k : Nat} {cursor : Str}
    (hk : s.cursorAt k = some cursor) :
    connectionStart s (some cursor) = k + 1 := by
  obtain ⟨payload, hpayload, hcursor⟩ := Option.bind_eq_some_iff.1 hk
  have hfound : ∃ i, s.history.findIdx? (·.cursor = some cursor) = some i := by
    rw [← Option.isSome_iff_exists, List.findIdx?_isSome, List.any_eq_true]
    exact ⟨payload, List.mem_of_getElem? hpayload, decide_eq_true hcursor⟩
  obtain ⟨i, hi⟩ := hfound
  obtain ⟨hlt, hat, -⟩ := List.findIdx?_eq_some_iff_getElem.1 hi
  have hcursorAt : s.cursorAt i = some cursor := by
    rw [System.cursorAt, List.getElem?_eq_getElem hlt]
    exact of_decide_eq_true hat
  obtain rfl := h.cursors k i cursor hk hcursorAt
  simp only [connectionStart, hi]

theorem Invariant.connect (h : Invariant stream s) (hP : Covered s .connect) :
    Invariant stream (step stream s .connect) := by
  simp only [step]
  split
  · rename_i cursor staged hl
    refine h.keep rfl (fun _ hi => hi) (fun _ hc => .inl hc) fun l hl' => ?_
    obtain rfl := Option.some.inj hl'
    have hcursor := h.cursor _ hl
    have hstaged := h.staged _ hl
    refine ⟨hcursor, hstaged, fun i hi => ?_⟩
    obtain rfl := Option.some.inj hi
    refine ⟨connectionStart_le cursor, fun j hj => ?_⟩
    cases cursor with
    | none => exact hP _ hl rfl j hj
    | some c =>
      obtain ⟨k, hk, hdealt⟩ := hcursor c rfl
      rw [h.connectionStart_eq hk] at hj
      exact hdealt j (by omega)
  · exact h

theorem Invariant.lose (h : Invariant stream s) : Invariant stream (step stream s .lose) := by
  refine h.keep rfl (fun _ hi => hi) (fun _ hc => .inl hc) fun l hl => ?_
  obtain ⟨l', hl', rfl⟩ := Option.map_eq_some_iff.1 hl
  exact ⟨h.cursor l' hl', h.staged l' hl', fun i hi => by cases hi⟩

theorem Invariant.stop (h : Invariant stream s) : Invariant stream (step stream s .stop) :=
  h.keep rfl (fun _ hi => hi) (fun _ hc => .inl hc) fun l hl => by cases hl

theorem Invariant.keepalive (h : Invariant stream s) (saved : Bool) :
    Invariant stream (step stream s (.keepalive saved)) := by
  simp only [step]
  split
  · rename_i cursor staged i hl
    unfold checkpoint
    split
    · exact h
    · rename_i c hstaged
      split_ifs
      · exact h
      · have hsettled : s.Settled c := h.staged _ hl c hstaged
        refine h.keep rfl (fun _ hi => hi) (fun c' hc' => ?_) fun l hl' => ?_
        · obtain ⟨-, rfl⟩ := ResumeFile.saved.inj (Option.some.inj hc')
          exact .inr hsettled
        · obtain rfl := Option.some.inj hl'
          have hstaged' := h.staged _ hl
          refine ⟨fun c' hc' => ?_, hstaged', fun j hj => h.connection j ?_⟩
          · obtain rfl := Option.some.inj hc'
            exact hsettled
          · rw [System.next, hl]
            exact hj
      · exact h
  · exact h

private theorem dealt_failureRecord {i j : Nat} {payload : Payload} {detail : Str} {recorded : Bool} (h : s.Dealt j) :
    (s.failureRecord i payload detail recorded).Dealt j := by
  unfold System.failureRecord
  split
  · cases h with
    | inl h => exact .inl h
    | inr h =>
      obtain ⟨failure, hmem, hnumber⟩ := h
      exact .inr ⟨failure, List.mem_append_left _ hmem, hnumber⟩
  · exact h

@[simp] theorem failureRecord_history {i : Nat} {payload : Payload} {detail : Str} {recorded : Bool} :
    (s.failureRecord i payload detail recorded).history = s.history := by
  unfold System.failureRecord
  split <;> rfl

@[simp] theorem failureRecord_file {i : Nat} {payload : Payload} {detail : Str} {recorded : Bool} :
    (s.failureRecord i payload detail recorded).file = s.file := by
  unfold System.failureRecord
  split <;> rfl

/-- What a pass of the loop leaves: the payload is dealt with unless its failure could not be recorded, and is staged
only if it was handled. -/
private theorem process_spec (s : System) (l : Listener) (i : Nat) (payload : Payload) (handler : Handled)
    (recorded : Bool) :
    (process s l i payload handler recorded).history = s.history ∧
      (process s l i payload handler recorded).file = s.file ∧
      (∀ j, s.Dealt j → (process s l i payload handler recorded).Dealt j) ∧
      ∃ l', (process s l i payload handler recorded).listener = some l' ∧ l'.cursor = l.cursor ∧
        l'.connection = some (i + 1) ∧
        ((process s l i payload handler recorded).Dealt i ∨
          l'.staged = l.staged ∧ recorded = false ∧ ∃ detail, handlePayload handler payload = .error detail) ∧
        (l'.staged = l.staged ∨ l'.staged = payload.cursor) := by
  unfold process
  split
  · rename_i detail hhandle
    refine ⟨failureRecord_history, failureRecord_file, fun j hj => dealt_failureRecord hj, _, rfl, rfl, rfl, ?_, .inl rfl⟩
    cases recorded with
    | true => exact .inl (.inr ⟨⟨i, payload.cursor, detail, payload⟩, List.mem_append_right _ (by simp), rfl⟩)
    | false => exact .inr ⟨rfl, rfl, detail, hhandle⟩
  · rename_i detail hhandle
    have hstaged : (payload.cursor.filter isCursor <|> l.staged) = l.staged ∨
        (payload.cursor.filter isCursor <|> l.staged) = payload.cursor := by
      cases payload.cursor with
      | none => exact .inl rfl
      | some c =>
        rw [Option.filter_some]
        split
        · exact .inr rfl
        · exact .inl rfl
    have hold : ∀ j, s.Dealt j → ({ s with handled := i :: s.handled } : System).Dealt j := by
      intro j hj
      exact hj.imp_left (List.mem_cons_of_mem i)
    have hi : ({ s with handled := i :: s.handled } : System).Dealt i := .inl List.mem_cons_self
    cases detail with
    | none => exact ⟨rfl, rfl, hold, _, rfl, rfl, rfl, .inl hi, hstaged⟩
    | some detail =>
      exact ⟨failureRecord_history, failureRecord_file, fun j hj => dealt_failureRecord (hold j hj), _, rfl, rfl, rfl,
        .inl (dealt_failureRecord hi), hstaged⟩

theorem Invariant.deliver (h : Invariant stream s) {handler : Handled} {recorded : Bool}
    (hP : Covered s (.deliver handler recorded)) : Invariant stream (step stream s (.deliver handler recorded)) := by
  simp only [step]
  split
  · rename_i cursor staged i hl
    split
    · rename_i payload hpayload
      have hnext : s.next = some i := by rw [System.next, hl]; rfl
      obtain ⟨hhistory, hfile, hdealt, l', hl', hcursor, hconnection, hdone, hstaged⟩ :=
        process_spec s ⟨cursor, staged, some i⟩ i payload handler recorded
      generalize process s ⟨cursor, staged, some i⟩ i payload handler recorded = t at *
      have hgrows : Grows s t := .of_history_eq hhistory hdealt
      have hi : t.Dealt i := by
        rcases hdone with hdone | ⟨-, hrecorded, hraised⟩
        · exact hdone
        · exact hdealt i (hP i payload hnext hpayload hraised hrecorded)
      obtain ⟨hle, hbefore⟩ := h.connection i hnext
      have hthrough : ∀ j < i + 1, t.Dealt j := by
        intro j hj
        rcases Nat.lt_succ_iff_lt_or_eq.1 hj with hlt | rfl
        · exact hdealt j (hbefore j hlt)
        · exact hi
      refine h.keep hhistory hdealt (fun c hc => .inl (hfile ▸ hc)) fun l hl'' => ?_
      obtain rfl := Option.some.inj (hl'.symm.trans hl'')
      have hcursor₀ := h.cursor _ hl
      have hstaged₀ := h.staged _ hl
      refine ⟨fun c hc => ?_, fun c hc => ?_, fun j hj => ?_⟩
      · exact hgrows.settled (hcursor₀ c (hcursor ▸ hc))
      · rcases hstaged with hstaged | hstaged
        · exact hgrows.settled (hstaged₀ c (hstaged ▸ hc))
        · refine ⟨i, ?_, fun j hj => hthrough j (by omega)⟩
          rw [System.cursorAt, hhistory, hpayload, Option.bind_some, ← hstaged, hc]
      · obtain rfl := Option.some.inj (hconnection.symm.trans hj)
        have hlt := (List.getElem?_eq_some_iff.1 hpayload).1
        exact ⟨by rw [hhistory]; omega, hthrough⟩
    · exact h
  · exact h

/-- Every step that is covered keeps the invariant. -/
theorem Invariant.step (h : Invariant stream s) (e : Event) (hP : Covered s e) : Invariant stream (step stream s e) := by
  cases e with
  | publish payload => exact h.publish payload
  | start => exact h.start
  | connect => exact h.connect hP
  | lose => exact h.lose
  | keepalive saved => exact h.keepalive saved
  | deliver handler recorded => exact h.deliver hP
  | stop => exact h.stop

theorem Invariant.init {file : Option ResumeFile} (hfile : ∀ cursor, file ≠ some (.saved stream cursor)) :
    Invariant stream (System.init file) where
  cursors := fun i j cursor hi => by cases hi
  saved := fun cursor hcursor => absurd hcursor (hfile cursor)
  cursor := fun l hl => by cases hl
  staged := fun l hl => by cases hl
  connection := fun i hi => by cases hi

private theorem Invariant.nothingPassedOver (h : Invariant stream s) : s.NothingPassedOver stream := by
  intro cursor hfile k hk
  obtain ⟨k', hk', hdealt⟩ := h.saved cursor hfile
  obtain rfl := h.cursors k k' cursor hk hk'
  exact hdealt

/-! ### The runs -/

/-- A payload with a cursor. -/
def commitPayload (c : Char) : Payload := ⟨["commit".toList, "svn".toList], some (List.replicate 36 c), []⟩

/-- In every run in which failures are recorded, and connections without a cursor leave nothing behind, no payload is
passed over by the cursor that is saved. -/
theorem pubsub_nothing_passed_over {file : Option ResumeFile} (hfile : ∀ cursor, file ≠ some (.saved stream cursor))
    (hrun : Reaches (StepWhen (step stream) Covered) (System.init file) s) : s.NothingPassedOver stream :=
  (hrun.keeps (fun _ e h hP => Invariant.step h e hP) (Invariant.init hfile)).nothingPassedOver

/-- The handler of the first payload raises, which is recorded, and the connection is lost before the third one. -/
def reconnectingRun : List Event :=
  [.start, .connect, .publish (commitPayload 'a'), .publish (commitPayload 'b'),
    .deliver (.error "OperationalError".toList) true, .deliver (.ok none) true, .keepalive true, .lose,
    .publish (commitPayload 'c'), .connect, .deliver (.ok none) true, .keepalive true]

theorem pubsub_nothing_passed_over_reconnected :
    ∃ s : System, s.file = some (.saved [] (List.replicate 36 'c')) ∧ s.failures.map (·.number) = [0] ∧
      s.handled = [2, 1] ∧ s.NothingPassedOver [] := by
  have hcovered : Throughout (step []) Covered (System.init none) reconnectingRun := by
    refine ⟨trivial, ?_, trivial, trivial, ?_, ?_, trivial, trivial, trivial, ?_, ?_, trivial, trivial⟩
    · intro l _ _ i hi
      exact absurd hi (Nat.not_lt_zero i)
    · exact fun _ _ _ _ _ hrecorded => by cases hrecorded
    · exact fun _ _ _ _ _ hrecorded => by cases hrecorded
    · intro l hl hnone
      cases hl
      cases hnone
    · exact fun _ _ _ _ _ hrecorded => by cases hrecorded
  exact ⟨reconnectingRun.foldl (step []) (System.init none), by decide +kernel, by decide +kernel, by decide +kernel,
    pubsub_nothing_passed_over (fun _ h => by cases h) (Reaches.foldl hcovered)⟩

/-- The handler of the first payload raises, which cannot be recorded, and the second payload is handled. -/
def failingRun : List Event := [.start, .connect, .publish (commitPayload 'a'), .publish (commitPayload 'b'),
  .deliver (.error "OperationalError".toList) false, .deliver (.ok none) true, .keepalive true]

/-- The second payload passes over the first one. -/
theorem pubsub_passes_over : ∃ s, Reaches (StepWhen (step []) fun _ _ => True) (System.init none) s ∧
    ¬ s.NothingPassedOver [] := by
  refine ⟨failingRun.foldl (step []) (System.init none), Reaches.foldl (Throughout.of_forall (fun _ _ => trivial) _ _), ?_⟩
  intro h
  have hfile : (failingRun.foldl (step []) (System.init none)).file =
      some (.saved [] (List.replicate 36 'b')) := by decide +kernel
  have hcursor : (failingRun.foldl (step []) (System.init none)).cursorAt 1 = some (List.replicate 36 'b') := by
    decide +kernel
  have hdealt : ¬ (failingRun.foldl (step []) (System.init none)).Dealt 0 := by
    have hhandled : (failingRun.foldl (step []) (System.init none)).handled = [1] := by decide +kernel
    have hfailures : (failingRun.foldl (step []) (System.init none)).failures.length = 0 := by decide +kernel
    rw [System.Dealt, hhandled, List.eq_nil_of_length_eq_zero hfailures]
    simp
  exact hdealt (h _ hfile 1 hcursor 0 (Nat.zero_le 1))

end PubSub

end TrustedReleases
