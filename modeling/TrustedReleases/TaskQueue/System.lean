import TrustedReleases.Lib.Run
import TrustedReleases.TaskQueue.Table

/-!
# Workers and the manager

The task queue as a system: any number of worker processes, one manager and the rest of the program, which adds tasks,
deletes them and cancels queued ones.  Every step is one transaction or an event of a process.  A worker claims a task,
works on it and reports once; it can exit at any point, also between the two, and it forgets its task when the report
itself fails.  The manager decides on rows that it has read at any time before.  Live processes have different process
ids, but an exited worker's id can be given to a new one.
-/

namespace TrustedReleases

open Lib

variable {R : Type}

/-- A worker process: its creation time and the task it works on, with the number of its claim. -/
structure Worker where
  created : Int
  doing : Option (Nat × Nat)

/-- The state of the task queue.  Workers are known by their process ids; `seen` are the rows that the manager has
read. -/
structure Queue (R : Type) where
  tasks : TaskTable R
  nextStart : Option Int
  workers : Dict Nat Worker
  seen : List TaskTable.Claim
  nextSerial : Nat
  nextClaim : Nat

/-- The limits of the manager. -/
structure ManagerConfig where
  maxTaskTime : Int
  memoryLimit : Nat

/-- `_HEATMAP_START_INTERVAL`. -/
def heatmapStartInterval : Int := 300 * second

namespace Queue

/-- No tasks and no workers. -/
def init : Queue R := ⟨∅, none, ∅, [], 0, 0⟩

/-- The table after other code deleted rows (`clear_scheduled`, `cancel_pending_sync_keys_from_svn`, the deletion of a
release). -/
def deleteTasks (tasks : TaskTable R) (p : Nat → Task R → Bool) : TaskTable R :=
  tasks.filterMap fun id t => if p id t then none else some t

/-- The table after `_cancel_pending_vote_followups`, or another update of this kind: the queued tasks that meet the
condition have failed. -/
def cancelQueued (tasks : TaskTable R) (p : Task R → Bool) (now : Int) (error : Str) : TaskTable R :=
  tasks.mapVals fun _ t =>
    if t.status = .queued ∧ p t then { t with status := .failed, completed := some now, error := some error } else t

/-- The steps of the system. -/
inductive Step (cfg : ManagerConfig) : Queue R → Queue R → Prop
  | insert (s : Queue R) (id : Nat) (t : Task R) (hid : s.tasks.get id = none) (ht : t.status = .queued) :
      Step cfg s { s with
        tasks := s.tasks.set id { t with serial := s.nextSerial }
        nextSerial := s.nextSerial + 1 }
  | delete (s : Queue R) (p : Nat → Task R → Bool) : Step cfg s { s with tasks := deleteTasks s.tasks p }
  | cancel (s : Queue R) (p : Task R → Bool) (now : Int) (error : Str) :
      Step cfg s { s with tasks := cancelQueued s.tasks p now error }
  | spawn (s : Queue R) (pid : Nat) (created : Int) (hpid : s.workers.get pid = none) :
      Step cfg s { s with workers := s.workers.set pid ⟨created, none⟩ }
  | exit (s : Queue R) (pid : Nat) : Step cfg s { s with workers := s.workers.pop pid }
  | claim (s : Queue R) (pid : Nat) (w : Worker) (id : Nat) (t : Task R) (now later : Int)
      (hw : s.workers.get pid = some w) (hidle : w.doing = none)
      (holdest : s.tasks.OldestQueued s.nextStart now id t) :
      Step cfg s { s with
        tasks := s.tasks.taskClaim id pid w.created now s.nextClaim
        nextStart := if t.taskType = .sbomHeatmap then some (later + heatmapStartInterval) else s.nextStart
        workers := s.workers.set pid { w with doing := some (id, s.nextClaim) }
        nextClaim := s.nextClaim + 1 }
  | report (s : Queue R) (pid : Nat) (w : Worker) (id n : Nat) (now : Int) (r : TaskTable.Report R)
      (hw : s.workers.get pid = some w) (hdoing : w.doing = some (id, n)) :
      Step cfg s { s with
        tasks := s.tasks.report id pid now r
        workers := s.workers.set pid { w with doing := none } }
  | abandon (s : Queue R) (pid : Nat) (w : Worker) (hw : s.workers.get pid = some w) :
      Step cfg s { s with workers := s.workers.set pid { w with doing := none } }
  | read (s : Queue R) (id : Nat) (t : Task R) (ht : s.tasks.get id = some t) (hactive : t.status = .active) :
      Step cfg s { s with seen := ⟨id, t.taskType, t.started, t.pid, t.pidCreated⟩ :: s.seen }
  | reconcile (s : Queue R) (c : TaskTable.Claim) (o : TaskTable.Observation) (error : Str) (hc : c ∈ s.seen) :
      Step cfg s { s with tasks := s.tasks.reconcileUnmanagedClaim cfg.maxTaskTime c o error }
  | checkDuration (s : Queue R) (c : TaskTable.Claim) (now : Int) (error : Str) (hc : c ∈ s.seen) :
      Step cfg s { s with tasks := s.tasks.terminateLongRunning cfg.maxTaskTime c now error }
  | checkMemory (s : Queue R) (c : TaskTable.Claim) (rss : Nat) (now : Int) (error : Str) (hc : c ∈ s.seen) :
      Step cfg s { s with tasks := s.tasks.checkWorkerMemory cfg.memoryLimit c rss now error }

/-- The worker with the process id works on the task and its claim is the current one. -/
def Claimant (s : Queue R) (id pid : Nat) : Prop :=
  ∃ w n t, s.workers.get pid = some w ∧ w.doing = some (id, n) ∧ s.tasks.get id = some t ∧ t.status = .active ∧
    t.claim = n

/-- The claim with the number has been made, and is not the current one of the task any more: the task was sent back
to the queue, has ended or was deleted, and it can have been claimed again. -/
def TakenAway (s : Queue R) (id n : Nat) : Prop :=
  n < s.nextClaim ∧ ∀ t, s.tasks.get id = some t → t.status = .active → t.claim ≠ n

/-- The step brings the task with the serial number into a terminal status, or out of the table. -/
def Finishes (s s' : Queue R) (serial : Nat) : Prop :=
  (∃ id t, s.tasks.get id = some t ∧ t.serial = serial ∧ ¬ t.Terminal) ∧
    ∀ id t, s'.tasks.get id = some t → t.serial = serial → t.Terminal

end Queue

end TrustedReleases
