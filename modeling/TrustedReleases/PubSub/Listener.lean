import TrustedReleases.Lib.Run
import TrustedReleases.Lib.Str

/-!
# The PubSub listener

The payloads that the server sends, the listener that handles them and resumes from the cursor that it saved, and the
steps that the two take: connections are lost, handlers raise, the database fails, the process stops and starts again.
-/

namespace TrustedReleases

open Lib

namespace PubSub

/-- A payload, with its cursor if it has a text for one. -/
structure Payload where
  topics : List Str
  cursor : Option Str
  content : Str
  deriving DecidableEq

/-- `_CURSOR_PATTERN.fullmatch` -/
def isCursor (text : Str) : Bool :=
  text.length == 36 && text.all fun c => ('0' ≤ c && c ≤ '9') || ('A' ≤ c && c ≤ 'Z') || ('a' ≤ c && c ≤ 'z') || c == '-'

/-- What a handler comes to: what it raised, or the problem that it reports. -/
abbrev Handled := Except Str (Option Str)

def isCommitPayload (payload : Payload) : Bool := payload.topics.contains "commit".toList

def isLdapPayload (payload : Payload) : Bool := payload.topics.contains "ldap".toList

/-- `_handle_payload`, with what the handler of the topic comes to. -/
def handlePayload (handler : Handled) (payload : Payload) : Handled :=
  if isCommitPayload payload || isLdapPayload payload then handler
  else .ok (some "No handler for payload topics".toList)

/-- The resume file. -/
inductive ResumeFile where
  | damaged
  | saved (stream cursor : Str)
  deriving DecidableEq

/-- `_cursor_load`, where an error keeps the listener from starting. -/
def cursorLoad (stream : Str) : Option ResumeFile → Except Unit (Option Str)
  | none => .ok none
  | some .damaged => .error ()
  | some (.saved stream' cursor) =>
    if stream' ≠ stream then .ok none
    else if isCursor cursor then .ok (some cursor)
    else .error ()

/-- A `PubSubListener` that is running, and where its connection goes on in the payloads of the server. -/
structure Listener where
  cursor : Option Str
  staged : Option Str
  connection : Option Nat

/-- A row of `PubSubFailure`, and which of the payloads it is about. -/
structure PubSubFailure where
  number : Nat
  cursor : Option Str
  detail : Str
  payload : Payload

/-- The server and the listener.  The history begins with the first connection: what was sent before it is in no run. -/
structure System where
  history : List Payload
  handled : List Nat
  failures : List PubSubFailure
  file : Option ResumeFile
  listener : Option Listener

namespace System

/-- The payload was handled without an exception or is stored as a failure. -/
def Dealt (s : System) (i : Nat) : Prop := i ∈ s.handled ∨ ∃ failure ∈ s.failures, failure.number = i

def cursorAt (s : System) (i : Nat) : Option Str := s.history[i]?.bind (·.cursor)

/-- `_failure_record`, where an error of the database is only logged. -/
def failureRecord (s : System) (i : Nat) (payload : Payload) (detail : Str) (recorded : Bool) : System :=
  if recorded then { s with failures := s.failures ++ [⟨i, payload.cursor, detail, payload⟩] } else s

end System

/-- What happens.  A handler comes with its outcome, and with whether a failure could be recorded. -/
inductive Event where
  | publish (payload : Payload)
  | start
  | connect
  | lose
  | keepalive (saved : Bool)
  | deliver (handler : Handled) (recorded : Bool)
  | stop

section

variable (stream : Str)

/-- `_checkpoint` -/
def checkpoint (s : System) (l : Listener) (saved : Bool) : System :=
  match l.staged with
  | none => s
  | some cursor =>
    if l.cursor = some cursor then s
    else if saved then
      { s with file := some (.saved stream cursor), listener := some { l with cursor := some cursor } }
    else s

/-- The pass of the loop in `start` for a payload. -/
def process (s : System) (l : Listener) (i : Nat) (payload : Payload) (handler : Handled) (recorded : Bool) : System :=
  let l := { l with connection := some (i + 1) }
  match handlePayload handler payload with
  | .error detail => { s.failureRecord i payload detail recorded with listener := some l }
  | .ok detail =>
    let s := { s with handled := i :: s.handled }
    let s :=
      match detail with
      | some detail => s.failureRecord i payload detail recorded
      | none => s
    let staged := payload.cursor.filter isCursor
    { s with listener := some { l with staged := staged <|> l.staged } }

/-- Where a connection begins: behind the cursor that it asks for, or else with what is sent from now on. -/
def connectionStart (s : System) (since : Option Str) : Nat :=
  match since with
  | none => s.history.length
  | some cursor =>
    match s.history.findIdx? (·.cursor = some cursor) with
    | some i => i + 1
    | none => s.history.length

def step (s : System) : Event → System
  | .publish payload =>
    -- the server gives no cursor twice
    if payload.cursor.isSome ∧ payload.cursor ∈ s.history.map (·.cursor) then s
    else { s with history := s.history ++ [payload] }
  | .start =>
    match s.listener, cursorLoad stream s.file with
    | none, .ok cursor => { s with listener := some ⟨cursor, none, none⟩ }
    | _, _ => s
  | .connect =>
    match s.listener with
    | some ⟨cursor, staged, none⟩ => { s with listener := some ⟨cursor, staged, some (connectionStart s cursor)⟩ }
    | _ => s
  | .lose => { s with listener := s.listener.map fun l => { l with connection := none } }
  | .keepalive saved =>
    match s.listener with
    | some ⟨cursor, staged, some i⟩ => checkpoint stream s ⟨cursor, staged, some i⟩ saved
    | _ => s
  | .deliver handler recorded =>
    match s.listener with
    | some ⟨cursor, staged, some i⟩ =>
      match s.history[i]? with
      | some payload => process s ⟨cursor, staged, some i⟩ i payload handler recorded
      | none => s
    | _ => s
  | .stop => { s with listener := none }

end

def System.init (file : Option ResumeFile) : System := ⟨[], [], [], file, none⟩

end PubSub

end TrustedReleases
