import TrustedReleases.Archive.Record
import TrustedReleases.Lib.Table

/-!
# The dates of cycles

The lifecycle dates of project cycles and the log of events behind them, with the requests that edit them
(`edit_cycle_dates`).  A request reads the cycle, goes through the three dates and commits.  What it adds to its session
is written before its next query; from then on it has the write lock, and works on a copy of the database that others
see once it has committed.
-/

namespace TrustedReleases

open Lib

namespace Cycles

/-! ### Rows -/

inductive ProjectStatus where
  | active
  | dormant
  | retired
  | standing
  deriving DecidableEq, Repr

structure Project where
  key : Str
  committeeKey : Option Str
  status : ProjectStatus

/-- The dates of a cycle for which there are events. -/
inductive DateField where
  | eod
  | eos
  | eol
  deriving DecidableEq, Repr

def dateFields : List DateField := [.eod, .eos, .eol]

def DateField.eventType : DateField → LifecycleEventType
  | .eod => .eod
  | .eos => .eos
  | .eol => .eol

def DateField.attr : DateField → Str
  | .eod => "eod".toList
  | .eos => "eos".toList
  | .eol => "eol".toList

structure ProjectCycle where
  cycleKey : Str
  projectKey : Str
  eod : Option Int
  eos : Option Int
  eol : Option Int
  lts : Bool

def ProjectCycle.getattr (c : ProjectCycle) : DateField → Option Int
  | .eod => c.eod
  | .eos => c.eos
  | .eol => c.eol

def ProjectCycle.setattr (c : ProjectCycle) (field : DateField) (value : Int) : ProjectCycle :=
  match field with
  | .eod => { c with eod := some value }
  | .eos => { c with eos := some value }
  | .eol => { c with eol := some value }

theorem ProjectCycle.getattr_setattr (c : ProjectCycle) (f g : DateField) (value : Int) :
    (c.setattr f value).getattr g = if g = f then some value else c.getattr g := by
  cases f <;> cases g <;> rfl

@[simp] theorem ProjectCycle.cycleKey_setattr (c : ProjectCycle) (f : DateField) (value : Int) :
    (c.setattr f value).cycleKey = c.cycleKey := by cases f <;> rfl

@[simp] theorem ProjectCycle.projectKey_setattr (c : ProjectCycle) (f : DateField) (value : Int) :
    (c.setattr f value).projectKey = c.projectKey := by cases f <;> rfl

/-- Instants are in microseconds, dates in days. -/
def MICROSECONDS_PER_DAY : Int := 86400000000

/-- `datetime.date` -/
def dateOf (instant : Int) : Int := instant / MICROSECONDS_PER_DAY

/-- `datetime.combine` with the first instant of the day. -/
def midnight (date : Int) : Int := date * MICROSECONDS_PER_DAY

structure EditCycleDatesForm where
  projectKey : Str
  cycleKey : Str
  eod : Option Int
  eos : Option Int
  eol : Option Int
  lts : Bool

def EditCycleDatesForm.getattr (form : EditCycleDatesForm) : DateField → Option Int
  | .eod => form.eod
  | .eos => form.eos
  | .eol => form.eol

structure Database where
  projects : List Project
  cycles : Table ProjectCycle.cycleKey
  log : List LifecycleEvent
  nextEventId : Nat

/-! ### One transaction -/

/-- The event plans the date of the cycle. -/
def Plans (cycleKey : Str) (field : DateField) (e : LifecycleEvent) : Prop :=
  e.event = field.eventType ∧ e.cycleKey = some cycleKey

instance Plans.decidable (cycleKey : Str) (field : DateField) (e : LifecycleEvent) : Decidable (Plans cycleKey field e) :=
  inferInstanceAs (Decidable (_ ∧ _))

/-- What a session is about to write.  The last field of `setDate` is not a column: it is the length of the log when the
request last read what the date depends on. -/
inductive Change where
  | setDate (field : DateField) (priorEventId : Option Nat) (effective : Int) (since : Nat)
  | setLts (lts : Bool)

namespace Database

variable (db : Database)

/-- `__validate_project_in_committee` -/
def validateProjectInCommittee (committeeKey projectKey : Str) : Except Str Project := do
  let project ← demand (db.projects.find? fun p => decide (p.key = projectKey ∧ p.status = .active))
    ("Project ".toList ++ projectKey ++ " not found".toList)
  raiseIf (project.committeeKey ≠ some committeeKey)
    ("Project ".toList ++ projectKey ++ " is not in committee ".toList ++ committeeKey)
  raiseIf (project.status ≠ .active)
    ("Project '".toList ++ project.key ++ "' is archived; release actions are disabled.".toList)
  .ok project

/-- What `edit_cycle_dates` checks, and the cycle that it reads. -/
def readCycle (committeeKey : Str) (form : EditCycleDatesForm) : Except Str ProjectCycle := do
  let _ ← db.validateProjectInCommittee committeeKey form.projectKey
  let cycle ← demand (db.cycles.get form.cycleKey) ("Cycle ".toList ++ form.cycleKey ++ " not found".toList)
  raiseIf (cycle.projectKey ≠ form.projectKey)
    ("Cycle ".toList ++ form.cycleKey ++ " does not belong to project ".toList ++ form.projectKey)
  .ok cycle

/-- The event of a date that was published last. -/
def priorEventId (cycleKey : Str) (field : DateField) : Option Nat :=
  (latestBy LifecycleEvent.published (db.log.filter fun e => decide (Plans cycleKey field e))).map (·.id)

def addEvent (cycle : ProjectCycle) (event : LifecycleEventType) (effective published : Int)
    (targetEventId : Option Nat) : Database :=
  { db with
    log := db.log ++
      [⟨db.nextEventId, cycle.projectKey, some cycle.cycleKey, none, event, effective, published, targetEventId⟩]
    nextEventId := db.nextEventId + 1 }

/-- `LifecycleEvent.withdrawing`, where there is an event to withdraw. -/
def withdraw (cycle : ProjectCycle) (now : Int) : Option Nat → Database
  | some id => db.addEvent cycle .withdraw now now (some id)
  | none => db

/-- Columns of a cycle are updated. -/
def updateCycle (cycleKey : Str) (update : ProjectCycle → ProjectCycle) : Database :=
  match db.cycles.get cycleKey with
  | some row => { db with cycles := db.cycles.replace (update row) }
  | none => db

/-- A change is written, for the cycle as its request has read it. -/
def write (cycle : ProjectCycle) (now : Int) : Change → Database
  | .setDate field priorEventId effective _ =>
    ((db.withdraw cycle now priorEventId).addEvent cycle field.eventType effective now none).updateCycle cycle.cycleKey
      (·.setattr field effective)
  | .setLts lts => db.updateCycle cycle.cycleKey fun row => { row with lts := lts }

end Database

/-! ### Requests -/

inductive Stage where
  | dates (rest : List DateField)
  | lts
  | commit

/-- A request, with the cycle as it has read it and what its session has not written yet.  The last field is not in the
source: it is the length of the log when the cycle was read. -/
structure EditRequest where
  form : EditCycleDatesForm
  cycle : ProjectCycle
  now : Int
  stage : Stage
  pending : List Change
  since : Nat

/-- What a request does next. -/
inductive Statement where
  | keep (rest : List DateField)
  | refuse (message : Str)
  | plan (field : DateField) (date : Int) (rest : List DateField)
  | flush
  | replan (field : DateField) (date : Int) (rest : List DateField)
  | lts
  | commit
  deriving DecidableEq

/-- A query is preceded by a flush, if something is pending. -/
def EditRequest.next (r : EditRequest) : Statement :=
  match r.stage with
  | .dates [] => .lts
  | .dates (field :: rest) =>
    if r.form.getattr field = (r.cycle.getattr field).map dateOf then .keep rest
    else
      match r.form.getattr field with
      | none => .refuse (field.attr ++ " cannot be cleared once set. Set a new date instead.".toList)
      | some date =>
        if r.cycle.getattr field = none then .plan field date rest
        else if r.pending.isEmpty then .replan field date rest
        else .flush
  | .lts => .lts
  | .commit => if r.pending.isEmpty then .commit else .flush

/-! ### The system -/

/-- The database as committed, and the copy of the request that has the write lock. -/
structure System where
  db : Database
  txn : Option (Nat × Database)
  requests : Dict Nat EditRequest

inductive Event where
  | begin (pid : Nat) (committeeKey : Str) (form : EditCycleDatesForm) (now : Int)
  | advance (pid : Nat)
  | abandon (pid : Nat)

namespace System

variable (s : System)

/-- What a request reads from. -/
def view (pid : Nat) : Database :=
  match s.txn with
  | some (owner, copy) => if owner = pid then copy else s.db
  | none => s.db

/-- No other request has the write lock. -/
def MayWrite (pid : Nat) : Prop := ∀ txn, s.txn = some txn → txn.1 = pid

instance MayWrite.decidable (pid : Nat) : Decidable (s.MayWrite pid) :=
  match h : s.txn with
  | none => .isTrue fun txn htxn => by rw [h] at htxn; cases htxn
  | some txn =>
    if hpid : txn.1 = pid then .isTrue fun txn' htxn => by rw [h] at htxn; rw [← Option.some.inj htxn]; exact hpid
    else .isFalse fun hmay => hpid (hmay txn h)

/-- The request ends, and what it has not committed is gone. -/
def abandon (pid : Nat) : System :=
  { s with txn := s.txn.filter fun txn => decide (txn.1 ≠ pid), requests := s.requests.pop pid }

/-- One statement of a request.  A statement that needs the write lock waits while another request has it. -/
def advance (pid : Nat) (r : EditRequest) : System :=
  match r.next with
  | .keep rest => { s with requests := s.requests.set pid { r with stage := .dates rest } }
  | .refuse _ => s.abandon pid
  | .plan field date rest =>
    { s with requests := s.requests.set pid { r with
        stage := .dates rest
        pending := r.pending ++ [.setDate field none (midnight date) r.since] } }
  | .replan field date rest =>
    let view := s.view pid
    { s with requests := s.requests.set pid { r with
        stage := .dates rest
        pending :=
          [.setDate field (view.priorEventId r.cycle.cycleKey field) (midnight date) view.log.length] } }
  | .lts =>
    { s with requests := s.requests.set pid { r with
        stage := .commit
        pending := r.pending ++ if r.cycle.lts ≠ r.form.lts then [.setLts r.form.lts] else [] } }
  | .flush =>
    if s.MayWrite pid then
      { s with
        txn := some (pid, r.pending.foldl (fun db change => db.write r.cycle r.now change) (s.view pid))
        requests := s.requests.set pid { r with pending := [] } }
    else s
  | .commit =>
    if s.MayWrite pid then ⟨s.view pid, none, s.requests.pop pid⟩ else s

end System

def step (s : System) : Event → System
  | .begin pid committeeKey form now =>
    match s.requests.get pid with
    | some _ => s
    | none =>
      match s.db.readCycle committeeKey form with
      | .error _ => s
      | .ok cycle =>
        { s with requests := s.requests.set pid ⟨form, cycle, now, .dates dateFields, [], s.db.log.length⟩ }
  | .advance pid =>
    match s.requests.get pid with
    | none => s
    | some r => s.advance pid r
  | .abandon pid => s.abandon pid

def System.init (db : Database) : System := ⟨db, none, ∅⟩

/-! ### The rendered document -/

inductive CleType where
  | released
  | endOfDistribution
  | endOfDevelopment
  | endOfSupport
  | endOfLife
  | withdrawn (eventId : Nat)
  deriving DecidableEq

structure CleEvent where
  id : Nat
  effective : Int
  published : Int
  type : CleType

/-- The text of an event type. -/
def eventText : LifecycleEventType → Str
  | .release => "release".toList
  | .archive => "archive".toList
  | .withdraw => "withdraw".toList
  | .eod => "eod".toList
  | .eos => "eos".toList
  | .eol => "eol".toList

/-- `_release_for`, over the keys of the releases. -/
def releaseFor (releaseKeys : List Str) (e : LifecycleEvent) : Except Str Str := do
  let versionKey ← demand e.versionKey (eventText e.event ++ " event requires version_key".toList)
  raiseIf (versionKey ∉ releaseKeys)
    (eventText e.event ++ " event references unknown release ".toList ++ versionKey)
  .ok versionKey

/-- `_to_cle_event` -/
def toCleEvent (releaseKeys : List Str) (e : LifecycleEvent) : Except Str CleEvent :=
  match e.event with
  | .release => do
    let _ ← releaseFor releaseKeys e
    .ok ⟨e.id, e.effective, e.published, .released⟩
  | .archive => do
    let _ ← releaseFor releaseKeys e
    .ok ⟨e.id, e.effective, e.published, .endOfDistribution⟩
  | .eod => do
    let _ ← demand e.cycleKey (eventText e.event ++ " event requires cycle_key".toList)
    .ok ⟨e.id, e.effective, e.published, .endOfDevelopment⟩
  | .eos => do
    let _ ← demand e.cycleKey (eventText e.event ++ " event requires cycle_key".toList)
    .ok ⟨e.id, e.effective, e.published, .endOfSupport⟩
  | .eol => do
    let _ ← demand e.cycleKey (eventText e.event ++ " event requires cycle_key".toList)
    .ok ⟨e.id, e.effective, e.published, .endOfLife⟩
  | .withdraw => do
    let eventId ← demand e.targetEventId "withdraw event requires target_event_id".toList
    .ok ⟨e.id, e.effective, e.published, .withdrawn eventId⟩

/-- `_document`: the events in descending order of their ids. -/
def document (releaseKeys : List Str) (events : List LifecycleEvent) : Except Str (List CleEvent) := do
  let cleEvents ← events.mapM (toCleEvent releaseKeys)
  .ok (orderBy (fun e => OrderDual.toDual e.id) cleEvents)

/-- The events of `project_document`. -/
def projectEvents (db : Database) (projectKey : Str) : List LifecycleEvent :=
  db.log.filter fun e => decide (e.projectKey = projectKey)

/-- The events of `release_document`. -/
def releaseEvents (db : Database) (releaseKey cycleKey : Str) : List LifecycleEvent :=
  db.log.filter fun e =>
    decide (e.versionKey = some releaseKey ∨ (e.versionKey = none ∧ e.cycleKey = some cycleKey))

end Cycles

end TrustedReleases
