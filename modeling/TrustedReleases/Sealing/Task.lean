import TrustedReleases.Sealing.Chain

/-!
# The daily sealing task

`_seal_day` (`atr/tasks/audit.py`) closes the days of the log and then, under the lock of the sealing directory,
prepares the keys and seals one day.  Any number of tasks run, each with a last day of its own, and every step of the
file system is a step of the system: a task that closes days holds the lock of the log (`closing`), one that has closed
them waits for the other lock (`waiting`), and one that holds it is somewhere in `prepare` or `seal` (`Phase`).  A task
can end before any of its steps, by an error or by a crash, which gives up its lock and leaves the files as they are.
-/

namespace TrustedReleases

open Lib

namespace Sealing

open DayLog (Codec Json Directory dayRange closeDay firstToClose)

/-- Where a task is that holds the lock of the sealing directory.  The phases up to `rooted` are those of `prepare`. -/
inductive Phase (π σ δ : Type) where
  /-- the lock is taken -/
  | locked (through : Day)
  /-- the days and the seals are listed -/
  | listed (days seals : List Day)
  /-- the key directory is made -/
  | made (days seals : List Day)
  /-- `current.pem` is created and has no key yet -/
  | created (days seals : List Day)
  /-- `current.pem` has its key -/
  | generated (days seals : List Day) (publicKey : π)
  /-- `root.der` is there -/
  | rooted (days seals : List Day)
  /-- `prepare` has accepted the keys, and there is a day to seal -/
  | prepared (day : Day)
  /-- the day has no seal, and its file is read -/
  | digested (day : Day) (digest : δ)
  /-- `next.pem` is created and has no key yet -/
  | opened (day : Day) (digest : δ)
  /-- `next.pem` has its key -/
  | written (day : Day) (record : Record π δ)
  /-- the record is signed -/
  | signed (day : Day) (sealed : Seal π σ δ)
  /-- the signature is verified -/
  | verified (day : Day) (sealed : Seal π σ δ)
  /-- the seal is published -/
  | published

/-- The disk and the tasks, with the number of keys that were generated, the records that were signed and the days
whose seals were published, in their order. -/
structure State (κ π σ δ : Type) where
  disk : Disk κ π σ δ
  closing : Option (List Day × Day)
  waiting : List Day
  sealing : Option (Phase π σ δ)
  generated : Nat
  signings : List (κ × Record π δ)
  published : List Day

/-- What happens next. -/
inductive Event (ν : Type) where
  /-- a task starts, and `close` finds the days that it has to rewrite -/
  | close (now : Instant) (through : Day)
  /-- the next `_replace` of the `close` that is under way -/
  | replace
  /-- the task that closes days ends -/
  | endClosing
  /-- a task that has closed the days takes the lock of the sealing directory -/
  | lock (through : Day)
  /-- the next step of the task that holds it, with the time that it reads from the clock -/
  | advance (datetime : Str)
  /-- the task that holds it ends -/
  | endSealing
  /-- another process appends an entry -/
  | append (now : Instant) (logger level : Str) (event : Json ν)

variable {κ π σ δ ν : Type} [DecidableEq π]

namespace State

/-- The log as it is before any day is sealed. -/
def start (files : Dict Day Bytes) (closed : Option Day) : State κ π σ δ :=
  ⟨⟨files, closed, ∅, none, none⟩, none, [], none, 0, [], []⟩

/-- The next step of a task that holds the lock of the sealing directory. -/
def sealStep (S : Scheme κ π σ δ) (datetime : Str) (s : State κ π σ δ) :
    Phase π σ δ → Except Error (State κ π σ δ)
  | .locked through => do
    let days ← s.disk.listDays through
    let seals ← s.disk.listSeals days
    return { s with sealing := some (.listed days seals) }
  | .listed days seals =>
    if s.disk.root.isSome then .ok { s with sealing := some (.rooted days seals) }
    else do
      raiseIf (seals ≠ []) (.fileNotFound .root)
      let disk ← s.disk.makeKeys
      return { s with disk := disk, sealing := some (.made days seals) }
  | .made days seals => do
    let disk ← s.disk.createCurrent
    return { s with disk := disk, sealing := some (.created days seals) }
  | .created days seals =>
    .ok { s with
      disk := s.disk.writeCurrent (S.generate s.generated)
      generated := s.generated + 1
      sealing := some (.generated days seals (S.publicOf (S.generate s.generated))) }
  | .generated days seals publicKey => do
    let disk ← s.disk.publishRoot publicKey
    return { s with disk := disk, sealing := some (.rooted days seals) }
  | .rooted days seals => do
    s.disk.checkKeys S.publicOf seals.getLast?
    return { s with sealing := days[seals.length]?.map .prepared }
  | .prepared day => do
    raiseIf ((s.disk.seals.get day).isSome) (.fileExists (.seal day))
    let content ← demand (s.disk.files.get day) (.fileNotFound (.day day))
    return { s with sealing := some (.digested day (S.digest content)) }
  | .digested day digest => do
    let disk ← s.disk.createNext
    return { s with disk := disk, sealing := some (.opened day digest) }
  | .opened day digest =>
    .ok { s with
      disk := s.disk.writeNext (S.generate s.generated)
      generated := s.generated + 1
      sealing := some (.written day ⟨datetime, S.publicOf (S.generate s.generated), digest⟩) }
  | .written day record => do
    let key ← s.disk.currentKey
    return { s with
      signings := s.signings ++ [(key, record)]
      sealing := some (.signed day ⟨record, S.sign key record⟩) }
  | .signed day sealed => do
    let key ← s.disk.currentKey
    raiseIf (S.verify (S.publicOf key) sealed.record sealed.signature = false) .openssl
    return { s with sealing := some (.verified day sealed) }
  | .verified day sealed => do
    let disk ← s.disk.publishSeal day sealed
    return { s with disk := disk, published := s.published ++ [day], sealing := some .published }
  | .published => do
    let disk ← s.disk.replaceKey
    return { s with disk := disk, sealing := none }

/-- The days that `close` has to rewrite, if there are any. -/
def beginClosing (s : State κ π σ δ) (now : Instant) (through : Day) : State κ π σ δ :=
  if s.closing.isSome ∨ now.day ≤ through then s
  else
    match firstToClose s.disk.log through with
    | none => { s with waiting := through :: s.waiting }
    | some first => { s with closing := some (dayRange first through, through) }

/-- One `_replace` of `close`: of the next day, or of the marker after the last. -/
def replaceNext (c : Codec ν) (s : State κ π σ δ) : State κ π σ δ :=
  match s.closing with
  | none => s
  | some ([], through) =>
    { s with disk := { s.disk with closed := some through }, closing := none, waiting := through :: s.waiting }
  | some (day :: days, through) =>
    match closeDay c s.disk.log day with
    | .ok content =>
      { s with disk := { s.disk with files := s.disk.files.set day content }, closing := some (days, through) }
    | .error _ => { s with closing := none }

/-- An entry that another process appends. -/
def appendEntry (c : Codec ν) (s : State κ π σ δ) (now : Instant) (logger level : Str) (event : Json ν) :
    State κ π σ δ :=
  if s.closing.isSome then s
  else
    match DayLog.append c now logger level event s.disk.log with
    | .ok log => { s with disk := { s.disk with files := log.files } }
    | .error _ => s

/-- The state after an event, which changes nothing where it cannot happen. -/
def step (c : Codec ν) (S : Scheme κ π σ δ) (s : State κ π σ δ) : Event ν → State κ π σ δ
  | .close now through => s.beginClosing now through
  | .replace => s.replaceNext c
  | .endClosing => { s with closing := none }
  | .lock through =>
    if through ∈ s.waiting ∧ s.sealing.isNone then
      { s with waiting := s.waiting.erase through, sealing := some (.locked through) }
    else s
  | .advance datetime =>
    match s.sealing with
    | none => s
    | some phase =>
      match s.sealStep S datetime phase with
      | .ok s' => s'
      | .error _ => { s with sealing := none }
  | .endSealing => { s with sealing := none }
  | .append now logger level event => s.appendEntry c now logger level event

/-- The state after several events. -/
def run (c : Codec ν) (S : Scheme κ π σ δ) (s : State κ π σ δ) (events : List (Event ν)) : State κ π σ δ :=
  events.foldl (step c S) s

/-! ### Days that are taken to be closed -/

/-- A task takes the days up to this one to be closed and has yet to list them. -/
def goesThrough (s : State κ π σ δ) (through : Day) : Prop :=
  through ∈ s.waiting ∨ s.sealing = some (.locked through)

/-- No entry is appended, while no day is closed, to a day that a task takes to be closed. -/
def Sound (s : State κ π σ δ) : Event ν → Prop
  | .append now _ _ _ => s.disk.closed = none → ∀ through, s.goesThrough through → through < now.day
  | _ => True

/-- Every event of the run is sound where it happens. -/
def SoundRun (c : Codec ν) (S : Scheme κ π σ δ) : State κ π σ δ → List (Event ν) → Prop
  | _, [] => True
  | s, e :: events => s.Sound e ∧ SoundRun c S (s.step c S e) events

end State

end Sealing

end TrustedReleases
