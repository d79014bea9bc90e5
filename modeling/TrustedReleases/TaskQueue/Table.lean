import TrustedReleases.Lib.Dict
import TrustedReleases.Lib.Str

/-!
# The task table

The rows of the task queue and the updates that workers and the manager make to them (`atr/worker.py`,
`atr/tasks/task.py`, `atr/manager.py`).  Each update is one `UPDATE ... WHERE` statement and selects its row by the
task's id, its status and the process id of its claimant (`updateClaim`); requeueing asks for the creation time of
that process as well.  Times are in microseconds.  The check results, notifications and follow-up tasks that some of
the transactions write besides are not part of the table.
-/

namespace TrustedReleases

open Lib

/-- `TaskStatus`. -/
inductive TaskStatus where
  | queued
  | active
  | completed
  | failed
  | broken
  deriving DecidableEq, Repr

/-- `TaskType`. -/
inductive TaskType where
  | archiveComparison | auditSeal | capApprovalResolve | catalogSiteGenerate | compareSourceTrees
  | distributionStatus | distributionWorkflow | downloadsCheck | gateDecision | hasSbom | hashingCheck
  | integrityCheck | keysImportFile | licenseFiles | licenseHeaders | maintenance | messageSend | metadataUpdate
  | pathsCheck | protectionCheck | quarantineValidate | ratCheck | releaseFinalise | sbomAugment | sbomConvert
  | sbomGenerate | sbomGenerateCyclonedx | sbomHeatmap | sbomOsvScan | sbomQsScore | sbomReview | sbomToolScore
  | signatureCheck | svnImportFiles | svnPublish | svnUnpublish | syncKeysFromSvn | targzIntegrity | targzStructure
  | voteAutoResolve | voteEndNotify | voteInitiate | workflowStatus | zipformatIntegrity | zipformatStructure
  deriving DecidableEq, Repr

/-- `CHECK_TASK_TYPES`. -/
def TaskType.isCheck : TaskType → Bool
  | archiveComparison | compareSourceTrees | hasSbom | hashingCheck | licenseFiles | licenseHeaders | pathsCheck
  | protectionCheck | ratCheck | sbomReview | signatureCheck | targzStructure | zipformatStructure => true
  | _ => false

/-- `RECURRING_TASK_TYPES`. -/
def TaskType.isRecurring : TaskType → Bool
  | auditSeal | catalogSiteGenerate | distributionStatus | integrityCheck | maintenance | metadataUpdate
  | workflowStatus => true
  | _ => false

/-- A second. -/
def second : Int := 1000000

/-- `TASK_TYPE_TIMEOUT_SECONDS`, and the manager's limit for all other types. -/
def TaskType.timeLimit (maxTaskTime : Int) : TaskType → Int
  | catalogSiteGenerate => 1800 * second
  | releaseFinalise | sbomHeatmap | sbomReview => 600 * second
  | _ => maxTaskTime

/-- The status of a task that its manager terminates. -/
def TaskType.terminatedStatus (t : TaskType) : TaskStatus := if t.isCheck then .broken else .failed

/-- A row of the task table.  The last two fields are not columns: `serial` numbers the rows in the order of their
insertion, since the table reuses the ids of deleted rows, and `claim` is the number of the last claim. -/
structure Task (R : Type) where
  status : TaskStatus
  taskType : TaskType
  projectKey : Option Str
  versionKey : Option Str
  added : Int
  scheduled : Option Int
  started : Option Int
  pid : Option Nat
  pidCreated : Option Int
  completed : Option Int
  result : Option R
  error : Option Str
  serial : Nat
  claim : Nat

/-- The task is in a terminal status. -/
def Task.Terminal {R : Type} (t : Task R) : Prop :=
  t.status = .completed ∨ t.status = .failed ∨ t.status = .broken

/-- The task table, by task id. -/
abbrev TaskTable (R : Type) := Dict Nat (Task R)

namespace TaskTable

variable {R : Type}

/-- An update of the row with the given id, if it meets the condition. -/
def updateWhere (tasks : TaskTable R) (id : Nat) (p : Task R → Bool) (f : Task R → Task R) : TaskTable R :=
  match tasks.get id with
  | some t => if p t then tasks.set id (f t) else tasks
  | none => tasks

/-- The condition of all updates by the claimant: the task is active and has the process id. -/
def claimedBy (pid : Nat) (t : Task R) : Bool := decide (t.status = .active) && decide (t.pid = some pid)

/-- `_task_defer`. -/
def taskDefer (tasks : TaskTable R) (id pid : Nat) (now : Int) (seconds : Option Nat) (checkpoint : Option R) :
    TaskTable R :=
  let delay : Int := (match seconds with | some n => n | none => 120) * second
  tasks.updateWhere id (claimedBy pid) fun t => { t with
    status := .queued
    started := none
    pid := none
    pidCreated := none
    scheduled := some (now + delay)
    result := match checkpoint with
      | some r => some r
      | none => t.result }

/-- `heatmap.complete`: the other completed heatmap tasks of the release are dropped.  The source takes the project and the
version from the arguments of the task, for which `heatmap.queue` has the same ones as for the columns of its row. -/
def heatmapComplete (tasks : TaskTable R) (id : Nat) (projectKey versionKey : Option Str) : TaskTable R :=
  tasks.filterMap fun i t =>
    if t.taskType = .sbomHeatmap ∧ t.projectKey = projectKey ∧ t.versionKey = versionKey ∧ t.status = .completed ∧
        i ≠ id then none
    else some t

/-- `_task_result_process` for a task that succeeded. -/
def taskComplete (tasks : TaskTable R) (id pid : Nat) (now : Int) (result : Option R) : TaskTable R :=
  match tasks.get id with
  | none => tasks
  | some row =>
    if claimedBy pid row then
      let tasks := tasks.updateWhere id (claimedBy pid) fun t => { t with
        status := .completed
        completed := some now
        result := result }
      let tasks := if row.taskType = .sbomHeatmap then tasks.heatmapComplete id row.projectKey row.versionKey else tasks
      -- a successful recurring run leaves only a log line behind
      if row.taskType.isRecurring then tasks.pop id else tasks
    else tasks

/-- `finalise_failure`. -/
def finaliseFailure (tasks : TaskTable R) (id pid : Nat) (now : Int) (error : Str) (status : TaskStatus) : TaskTable R :=
  let error := if (strip error).isEmpty then "unknown error".toList else strip error
  tasks.updateWhere id (claimedBy pid) fun t => { t with
    status := status
    completed := some now
    error := some error
    result := none }

/-- What the manager remembers of a row that it has read. -/
structure Claim where
  id : Nat
  taskType : TaskType
  started : Option Int
  pid : Option Nat
  pidCreated : Option Int

/-- `_requeue_claim`. -/
def requeueClaim (tasks : TaskTable R) (c : Claim) : TaskTable R :=
  tasks.updateWhere c.id
    (fun t => decide (t.status = .active) && decide (t.pid = c.pid) && decide (t.pidCreated = c.pidCreated))
    fun t => { t with
      status := .queued
      started := none
      pid := none
      pidCreated := none }

/-- A heatmap task is active. -/
def heatmapActive (tasks : TaskTable R) : Bool :=
  tasks.keys.any fun id =>
    match tasks.get id with
    | some t => decide (t.taskType = .sbomHeatmap) && decide (t.status = .active)
    | none => false

/-- The task may be claimed now.  `nextStart` is the end of the cooldown of heatmap tasks. -/
def claimable (tasks : TaskTable R) (nextStart : Option Int) (now : Int) (t : Task R) : Bool :=
  decide (t.status = .queued) &&
    (decide (t.taskType ≠ .sbomHeatmap) || (!tasks.heatmapActive && !nextStart.any fun n => decide (now < n))) &&
    (match t.scheduled with
      | none => true
      | some scheduled => decide (scheduled ≤ now))

/-- The oldest queued task is one of those that were added first. -/
def OldestQueued (tasks : TaskTable R) (nextStart : Option Int) (now : Int) (id : Nat) (t : Task R) : Prop :=
  tasks.get id = some t ∧ tasks.claimable nextStart now t = true ∧
    ∀ i u, tasks.get i = some u → tasks.claimable nextStart now u = true → t.added ≤ u.added

/-- The update of `_task_next_claim`; `claim` numbers the claim. -/
def taskClaim (tasks : TaskTable R) (id pid : Nat) (pidCreated now : Int) (claim : Nat) : TaskTable R :=
  tasks.updateWhere id (fun t => decide (t.status = .queued)) fun t => { t with
    status := .active
    started := some now
    pid := some pid
    pidCreated := some pidCreated
    claim := claim }

/-- What a worker reports of its task: it is sent back to the queue, has succeeded, or has failed. -/
inductive Report (R : Type) where
  | deferred (seconds : Option Nat) (checkpoint : Option R)
  | completed (result : Option R)
  | failed (error : Str)
  | broken (error : Str)

/-- The update that a worker with the given process id makes. -/
def report (tasks : TaskTable R) (id pid : Nat) (now : Int) : Report R → TaskTable R
  | .deferred seconds checkpoint => tasks.taskDefer id pid now seconds checkpoint
  | .completed result => tasks.taskComplete id pid now result
  | .failed error => tasks.finaliseFailure id pid now error .failed
  | .broken error => tasks.finaliseFailure id pid now error .broken

/-! ### The manager -/

/-- What the manager observes of the system: the answer of `_process_created` (an error, or the creation time of the
process if there is one), and whether `_kill_surviving_group` found and killed a process of the group. -/
structure Observation where
  failed : Bool
  created : Option Int
  groupKilled : Bool
  now : Int

/-- `_claimant_alive`: `_CREATED_TOLERANCE_SECONDS` is two seconds, in microseconds here. -/
def claimantAlive (c : Claim) (observed : Option Int) : Bool :=
  match c.pidCreated, observed with
  | some created, some observed => decide ((observed - created).natAbs ≤ 2000000)
  | _, _ => false

/-- `terminate_unmanaged_claim`, and `check_task_duration` with `terminate_long_running_task`: the update of a task
that has been running for too long. -/
def terminateLongRunning (tasks : TaskTable R) (maxTaskTime : Int) (c : Claim) (now : Int) (error : Str) :
    TaskTable R :=
  match c.pid, c.started with
  | some pid, some started =>
    if now - started ≤ c.taskType.timeLimit maxTaskTime then tasks
    else tasks.finaliseFailure c.id pid now error c.taskType.terminatedStatus
  | _, _ => tasks

/-- `reconcile_unmanaged_claim`. -/
def reconcileUnmanagedClaim (tasks : TaskTable R) (maxTaskTime : Int) (c : Claim) (o : Observation) (error : Str) :
    TaskTable R :=
  if c.pid.isNone then tasks
  else if o.failed then tasks
  else if claimantAlive c o.created then tasks.terminateLongRunning maxTaskTime c o.now error
  else if c.pidCreated.isSome ∧ o.created.isNone ∧ o.groupKilled then tasks
  else tasks.requeueClaim c

/-- `check_worker_memory`: the update of the task of a worker whose processes use too much memory. -/
def checkWorkerMemory (tasks : TaskTable R) (limit : Nat) (c : Claim) (rss : Nat) (now : Int) (error : Str) :
    TaskTable R :=
  match c.pid with
  | some pid => if rss ≤ limit then tasks else tasks.finaliseFailure c.id pid now error c.taskType.terminatedStatus
  | none => tasks

end TaskTable

end TrustedReleases
