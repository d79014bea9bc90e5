import TrustedReleases.TaskQueue.System

/-!
# Safety of the task queue

The updates of workers and of the manager ask for different columns of a row, but all of them only end claims: an
active row stays as it is, is deleted, or stops being active (`Releases`).  So an active row with the process id of a
live worker holds the claim that this worker made (`QueueInv`), and a worker whose claim was taken away matches no row.
-/

namespace TrustedReleases

open Lib

variable {R : Type}

namespace TaskTable

/-- Every row stays as it is, is deleted, or is a row that had not ended and is not active any more. -/
def Releases (tasks tasks' : TaskTable R) : Prop :=
  ∀ id, tasks'.get id = tasks.get id ∨ tasks'.get id = none ∨
    ∃ t t', tasks.get id = some t ∧ ¬ t.Terminal ∧ tasks'.get id = some t' ∧ t'.serial = t.serial ∧ t'.status ≠ .active

theorem Releases.refl (tasks : TaskTable R) : Releases tasks tasks := fun _ => .inl rfl

variable {tasks tasks' : TaskTable R} {id pid : Nat}

private theorem not_terminal_of_active {t : Task R} (h : t.status = .active) : ¬ t.Terminal := by
  rintro (h' | h' | h') <;> rw [h] at h' <;> cases h'

private theorem not_terminal_of_queued {t : Task R} (h : t.status = .queued) : ¬ t.Terminal := by
  rintro (h' | h' | h') <;> rw [h] at h' <;> cases h'

private theorem status_of_claimedBy {t : Task R} (h : claimedBy pid t = true) :
    t.status = .active ∧ t.pid = some pid := by
  simpa [claimedBy] using h

/-- The row of an update that matches no row. -/
private theorem updateWhere_of_not {p : Task R → Bool} {f : Task R → Task R}
    (h : ∀ t, tasks.get id = some t → p t = false) : tasks.updateWhere id p f = tasks := by
  unfold updateWhere
  cases ht : tasks.get id with
  | none => rfl
  | some t => simp [h t ht]

/-- An update of an active row that ends its claim. -/
private theorem releases_updateWhere {p : Task R → Bool} {f : Task R → Task R}
    (hp : ∀ t, p t = true → t.status = .active)
    (hserial : ∀ t, (f t).serial = t.serial) (hstatus : ∀ t, (f t).status ≠ .active) :
    Releases tasks (tasks.updateWhere id p f) := by
  intro i
  unfold updateWhere
  cases ht : tasks.get id with
  | none => exact .inl rfl
  | some t =>
    by_cases hpt : p t = true
    · simp only [hpt, ↓reduceIte, Dict.get_set]
      by_cases hi : i = id
      · subst hi
        exact .inr (.inr ⟨t, f t, ht, not_terminal_of_active (hp t hpt), by simp, hserial t, hstatus t⟩)
      · simp [hi]
    · simp [hpt]

/-- Deleting rows besides. -/
theorem Releases.filterMap (h : Releases tasks tasks') {g : Nat → Task R → Option (Task R)}
    (hg : ∀ i t, g i t = none ∨ g i t = some t) : Releases tasks (Dict.filterMap g tasks') := by
  intro i
  rw [Dict.get_filterMap]
  rcases ht : tasks'.get i with _ | t
  · exact .inr (.inl rfl)
  · rw [Option.bind_some]
    rcases hg i t with hnone | hsome
    · exact .inr (.inl hnone)
    · rw [hsome, ← ht]
      exact h i

theorem Releases.pop (h : Releases tasks tasks') : Releases tasks (Dict.pop tasks' id) := by
  intro i
  rw [Dict.get_pop]
  split
  · exact .inr (.inl rfl)
  · exact h i

/-! ### The updates end claims -/

private theorem taskDefer_releases (now : Int) (seconds : Option Nat) (checkpoint : Option R) :
    Releases tasks (tasks.taskDefer id pid now seconds checkpoint) :=
  releases_updateWhere (fun _ h => (status_of_claimedBy h).1) (fun _ => rfl) fun _ h => by cases h

private theorem finaliseFailure_releases (now : Int) (error : Str) {status : TaskStatus} (hs : status ≠ .active) :
    Releases tasks (tasks.finaliseFailure id pid now error status) :=
  releases_updateWhere (fun _ h => (status_of_claimedBy h).1) (fun _ => rfl) fun _ => hs

private theorem taskComplete_releases (now : Int) (result : Option R) :
    Releases tasks (tasks.taskComplete id pid now result) := by
  unfold taskComplete
  cases ht : tasks.get id with
  | none => exact .refl tasks
  | some row =>
    have hupdate : Releases tasks (tasks.updateWhere id (claimedBy pid) fun t =>
        { t with status := .completed, completed := some now, result := result }) :=
      releases_updateWhere (fun _ h => (status_of_claimedBy h).1) (fun _ => rfl) fun _ h => by cases h
    have hheatmap := hupdate.filterMap (g := fun i t =>
      if t.taskType = .sbomHeatmap ∧ t.projectKey = row.projectKey ∧ t.versionKey = row.versionKey ∧
          t.status = .completed ∧ i ≠ id then none
      else some t) fun i t => by split <;> simp
    dsimp only
    split
    · split <;> split <;> first | exact hheatmap.pop | exact hheatmap | exact hupdate.pop | exact hupdate
    · exact .refl tasks

private theorem requeueClaim_releases (c : Claim) : Releases tasks (tasks.requeueClaim c) := by
  refine releases_updateWhere (fun t h => ?_) (fun _ => rfl) fun _ h => by cases h
  simp only [Bool.and_eq_true, decide_eq_true_eq] at h
  exact h.1.1

private theorem report_releases (now : Int) (r : Report R) : Releases tasks (tasks.report id pid now r) := by
  cases r with
  | deferred seconds checkpoint => exact taskDefer_releases now seconds checkpoint
  | completed result => exact taskComplete_releases now result
  | failed error => exact finaliseFailure_releases now error (by decide)
  | broken error => exact finaliseFailure_releases now error (by decide)

private theorem terminatedStatus_ne (t : TaskType) : t.terminatedStatus ≠ .active := by
  unfold TaskType.terminatedStatus
  split <;> decide

private theorem terminateLongRunning_releases (maxTaskTime : Int) (c : Claim) (now : Int) (error : Str) :
    Releases tasks (tasks.terminateLongRunning maxTaskTime c now error) := by
  unfold terminateLongRunning
  split
  · split
    · exact .refl tasks
    · exact finaliseFailure_releases now error (terminatedStatus_ne _)
  · exact .refl tasks

private theorem reconcileUnmanagedClaim_releases (maxTaskTime : Int) (c : Claim) (o : Observation) (error : Str) :
    Releases tasks (tasks.reconcileUnmanagedClaim maxTaskTime c o error) := by
  unfold reconcileUnmanagedClaim
  split
  · exact .refl tasks
  split
  · exact .refl tasks
  split
  · exact terminateLongRunning_releases maxTaskTime c o.now error
  split
  · exact .refl tasks
  · exact requeueClaim_releases c

private theorem checkWorkerMemory_releases (limit : Nat) (c : Claim) (rss : Nat) (now : Int) (error : Str) :
    Releases tasks (tasks.checkWorkerMemory limit c rss now error) := by
  unfold checkWorkerMemory
  split
  · split
    · exact .refl tasks
    · exact finaliseFailure_releases now error (terminatedStatus_ne _)
  · exact .refl tasks

private theorem deleteTasks_releases (p : Nat → Task R → Bool) : Releases tasks (Queue.deleteTasks tasks p) :=
  (Releases.refl tasks).filterMap fun i t => by split <;> simp

private theorem cancelQueued_releases (p : Task R → Bool) (now : Int) (error : Str) :
    Releases tasks (Queue.cancelQueued tasks p now error) := by
  intro i
  unfold Queue.cancelQueued
  rw [Dict.get_mapVals]
  rcases ht : tasks.get i with _ | t
  · exact .inl rfl
  · by_cases h : t.status = .queued ∧ p t
    · let t' : Task R := { t with status := .failed, completed := some now, error := some error }
      exact .inr (.inr ⟨t, t', rfl, not_terminal_of_queued h.1, by rw [Option.map_some, if_pos h], rfl,
        fun hs => by cases hs⟩)
    · exact .inl (by simp [h])

/-- A worker without a row of its own changes nothing. -/
private theorem report_of_not_claimed (h : ∀ t, tasks.get id = some t → claimedBy pid t = false) (now : Int)
    (r : Report R) :
    tasks.report id pid now r = tasks := by
  cases r with
  | deferred seconds checkpoint => exact updateWhere_of_not h
  | completed result =>
    unfold report taskComplete
    cases ht : tasks.get id with
    | none => rfl
    | some t => simp [h t ht]
  | failed error => exact updateWhere_of_not h
  | broken error => exact updateWhere_of_not h

end TaskTable

open TaskTable

/-! ### The invariant -/

/-- The invariant of the system.  `attempt` is the one that the guards of the updates rest on: for a live worker, that
its task's row is active with the worker's process id is the same as that the row holds the worker's own claim. -/
structure QueueInv (s : Queue R) : Prop where
  attempt : ∀ pid w id n t, s.workers.get pid = some w → w.doing = some (id, n) → s.tasks.get id = some t →
    t.status = .active → (t.pid = some pid ↔ t.claim = n)
  attempt_lt : ∀ pid w id n, s.workers.get pid = some w → w.doing = some (id, n) → n < s.nextClaim
  serial_lt : ∀ id t, s.tasks.get id = some t → t.serial < s.nextSerial
  serial_inj : ∀ i j t u, s.tasks.get i = some t → s.tasks.get j = some u → t.serial = u.serial → i = j
  heatmap : ∀ i j t u, s.tasks.get i = some t → s.tasks.get j = some u → t.taskType = .sbomHeatmap →
    u.taskType = .sbomHeatmap → t.status = .active → u.status = .active → i = j

private theorem queueInv_init : QueueInv (Queue.init : Queue R) where
  attempt pid w id n t h := by cases h
  attempt_lt pid w id n h := by cases h
  serial_lt id t h := by cases h
  serial_inj i j t u h := by cases h
  heatmap i j t u h := by cases h

/-- Where claims only end, an active row is one that was there before. -/
private theorem TaskTable.Releases.get_active {tasks tasks' : TaskTable R} (h : Releases tasks tasks') {id : Nat}
    {t : Task R}
    (ht : tasks'.get id = some t) (hs : t.status = .active) : tasks.get id = some t := by
  rcases h id with heq | hnone | ⟨u, u', -, -, hu', -, hne⟩
  · rw [← heq, ht]
  · rw [hnone] at ht; cases ht
  · rw [hu'] at ht
    exact absurd (Option.some.inj ht ▸ hs) hne

/-- Where claims only end, a row keeps its serial number. -/
private theorem TaskTable.Releases.get_serial {tasks tasks' : TaskTable R} (h : Releases tasks tasks') {id : Nat}
    {t : Task R}
    (ht : tasks'.get id = some t) : ∃ u, tasks.get id = some u ∧ u.serial = t.serial ∧ (u.Terminal → u = t) := by
  rcases h id with heq | hnone | ⟨u, u', hu, hnt, hu', hserial, -⟩
  · exact ⟨t, by rw [← heq, ht], rfl, fun _ => rfl⟩
  · rw [hnone] at ht; cases ht
  · rw [hu'] at ht
    obtain rfl := Option.some.inj ht
    exact ⟨u, hu, hserial.symm, fun hterm => absurd hterm hnt⟩

/-- A step that only ends claims, and makes no worker busy, keeps the invariant. -/
theorem QueueInv.releases {s s' : Queue R} (h : QueueInv s) (ht : Releases s.tasks s'.tasks)
    (hw : ∀ pid w, s'.workers.get pid = some w → w.doing = none ∨ s.workers.get pid = some w)
    (hc : s'.nextClaim = s.nextClaim) (hn : s'.nextSerial = s.nextSerial) : QueueInv s' where
  attempt pid w id n t hworker hdoing hget hactive := by
    rcases hw pid w hworker with hidle | hold
    · rw [hidle] at hdoing; cases hdoing
    · exact h.attempt pid w id n t hold hdoing (ht.get_active hget hactive) hactive
  attempt_lt pid w id n hworker hdoing := by
    rcases hw pid w hworker with hidle | hold
    · rw [hidle] at hdoing; cases hdoing
    · rw [hc]; exact h.attempt_lt pid w id n hold hdoing
  serial_lt id t hget := by
    obtain ⟨u, hu, hserial, -⟩ := ht.get_serial hget
    rw [← hserial, hn]
    exact h.serial_lt id u hu
  serial_inj i j t u hi hj hserial := by
    obtain ⟨t₀, ht₀, hs, -⟩ := ht.get_serial hi
    obtain ⟨u₀, hu₀, hs', -⟩ := ht.get_serial hj
    exact h.serial_inj i j t₀ u₀ ht₀ hu₀ (hs.trans (hserial.trans hs'.symm))
  heatmap i j t u hi hj htype hutype hta hua :=
    h.heatmap i j t u (ht.get_active hi hta) (ht.get_active hj hua) htype hutype hta hua

/-- The workers after one of them has become idle. -/
private theorem workers_set_idle {workers : Dict Nat Worker} {pid : Nat} {w : Worker} (q : Nat) (v : Worker)
    (h : (workers.set pid { w with doing := none }).get q = some v) : v.doing = none ∨ workers.get q = some v := by
  rw [Dict.get_set] at h
  split at h
  · exact .inl (by rw [← Option.some.inj h])
  · exact .inr h

/-- The claimed row. -/
private theorem taskClaim_get {tasks : TaskTable R} {id : Nat} {t : Task R} (ht : tasks.get id = some t)
    (hq : t.status = .queued) (pid : Nat) (created now : Int) (claim i : Nat) :
    (tasks.taskClaim id pid created now claim).get i = if i = id then
      some { t with
        status := .active
        started := some now
        pid := some pid
        pidCreated := some created
        claim := claim }
    else tasks.get i := by
  simp [taskClaim, updateWhere, ht, hq]

/-- A new task is not active and has a new serial number. -/
theorem QueueInv.insert {s : Queue R} (h : QueueInv s) {id : Nat} {t : Task R}
    (hq : t.status = .queued) :
    QueueInv { s with
      tasks := s.tasks.set id { t with serial := s.nextSerial }
      nextSerial := s.nextSerial + 1 } := by
  have hget : ∀ i u, (s.tasks.set id { t with serial := s.nextSerial }).get i = some u →
      (i = id ∧ u.serial = s.nextSerial ∧ u.status = .queued) ∨ (i ≠ id ∧ s.tasks.get i = some u) := by
    intro i u hu
    rw [Dict.get_set] at hu
    split at hu
    · rename_i hi
      rw [← Option.some.inj hu]
      exact .inl ⟨hi, rfl, hq⟩
    · rename_i hi
      exact .inr ⟨hi, hu⟩
  -- an active row is an old one
  have hactive : ∀ i u, (s.tasks.set id { t with serial := s.nextSerial }).get i = some u → u.status = .active →
      s.tasks.get i = some u := by
    intro i u hu hs
    rcases hget i u hu with ⟨-, -, hq'⟩ | ⟨-, hold⟩
    · rw [hs] at hq'; cases hq'
    · exact hold
  refine ⟨fun pid w i n u hw hd hu hs => h.attempt pid w i n u hw hd (hactive i u hu hs) hs, h.attempt_lt,
    fun i u hu => ?_, fun i j u v hu hv hserial => ?_,
    fun i j u v hu hv htype htype' hs hs' => h.heatmap i j u v (hactive i u hu hs) (hactive j v hv hs') htype htype' hs hs'⟩
  · rcases hget i u hu with ⟨-, hserial, -⟩ | ⟨-, hold⟩
    · rw [hserial]; exact Nat.lt_succ_self _
    · exact Nat.lt_succ_of_lt (h.serial_lt i u hold)
  · rcases hget i u hu with ⟨hi, hsu, -⟩ | ⟨-, hu'⟩ <;> rcases hget j v hv with ⟨hj, hsv, -⟩ | ⟨-, hv'⟩
    · rw [hi, hj]
    · have := h.serial_lt j v hv'
      rw [← hserial, hsu] at this
      exact absurd this (lt_irrefl _)
    · have := h.serial_lt i u hu'
      rw [hserial, hsv] at this
      exact absurd this (lt_irrefl _)
    · exact h.serial_inj i j u v hu' hv' hserial

/-- No heatmap task is active when one is claimable. -/
private theorem not_active_of_claimable {tasks : TaskTable R} {nextStart : Option Int} {now : Int} {t : Task R}
    (h : tasks.claimable nextStart now t = true) (htype : t.taskType = .sbomHeatmap) (i : Nat) (u : Task R)
    (hu : tasks.get i = some u) (hutype : u.taskType = .sbomHeatmap) : u.status ≠ .active := by
  intro hs
  have hnot : tasks.heatmapActive = false := by
    simp only [claimable, htype, Bool.and_eq_true, Bool.or_eq_true, decide_eq_true_eq, ne_eq, not_true_eq_false,
      decide_false, Bool.false_eq_true, false_or, Bool.not_eq_true'] at h
    exact h.1.2.1
  have hyes : tasks.heatmapActive = true := by
    unfold heatmapActive
    rw [List.any_eq_true]
    exact ⟨i, Dict.mem_keys_of_get hu, by simp [hu, hutype, hs]⟩
  rw [hnot] at hyes
  cases hyes

/-- A claim gives the row a new claim number and the process id of its worker. -/
theorem QueueInv.claim {s : Queue R} (h : QueueInv s) {pid : Nat} {w : Worker} {id : Nat} {t : Task R} {now : Int}
    {nextStart : Option Int} (holdest : s.tasks.OldestQueued s.nextStart now id t) :
    QueueInv { s with
      tasks := s.tasks.taskClaim id pid w.created now s.nextClaim
      nextStart := nextStart
      workers := s.workers.set pid { w with doing := some (id, s.nextClaim) }
      nextClaim := s.nextClaim + 1 } := by
  obtain ⟨ht, hclaimable, -⟩ := holdest
  have hq : t.status = .queued := by
    simp only [claimable, Bool.and_eq_true, decide_eq_true_eq] at hclaimable
    exact hclaimable.1.1
  have hget := taskClaim_get ht hq pid w.created now s.nextClaim
  -- every row is the claimed one or as before
  have hcases : ∀ i u, (s.tasks.taskClaim id pid w.created now s.nextClaim).get i = some u →
      (i = id ∧ u.pid = some pid ∧ u.claim = s.nextClaim ∧ u.serial = t.serial ∧ u.taskType = t.taskType) ∨
        (i ≠ id ∧ s.tasks.get i = some u) := by
    intro i u hu
    rw [hget] at hu
    split at hu
    · rename_i hi
      rw [← Option.some.inj hu]
      exact .inl ⟨hi, rfl, rfl, rfl, rfl⟩
    · rename_i hi
      exact .inr ⟨hi, hu⟩
  refine ⟨fun q v i n u hv hd hu hs => ?_, fun q v i n hv hd => ?_, fun i u hu => ?_, fun i j u v hu hv hserial => ?_,
    fun i j u v hu hv htype htype' hs hs' => ?_⟩
  · rw [Dict.get_set] at hv
    rcases hcases i u hu with ⟨hi, hp, hc, -⟩ | ⟨hi, hold⟩
    · split at hv
      · rename_i hqp
        have hdo : some (id, s.nextClaim) = some (i, n) := by rw [← hd, ← Option.some.inj hv]
        cases hdo
        simp [hp, hc, hqp]
      · rename_i hqp
        have hlt := h.attempt_lt q v i n hv hd
        constructor
        · intro hpq
          rw [hp] at hpq
          exact absurd (Option.some.inj hpq).symm hqp
        · intro hcn
          rw [hc] at hcn
          exact absurd hcn (ne_of_gt hlt)
    · split at hv
      · have hdo : some (id, s.nextClaim) = some (i, n) := by rw [← hd, ← Option.some.inj hv]
        cases hdo
        exact absurd rfl hi
      · exact h.attempt q v i n u hv hd hold hs
  · rw [Dict.get_set] at hv
    split at hv
    · have hdo : some (id, s.nextClaim) = some (i, n) := by rw [← hd, ← Option.some.inj hv]
      cases hdo
      exact Nat.lt_succ_self _
    · exact Nat.lt_succ_of_lt (h.attempt_lt q v i n hv hd)
  · rcases hcases i u hu with ⟨-, -, -, hserial, -⟩ | ⟨-, hold⟩
    · rw [hserial]; exact h.serial_lt id t ht
    · exact h.serial_lt i u hold
  · rcases hcases i u hu with ⟨hi, -, -, hsu, -⟩ | ⟨-, hu'⟩ <;> rcases hcases j v hv with ⟨hj, -, -, hsv, -⟩ | ⟨-, hv'⟩
    · rw [hi, hj]
    · rw [hi]; exact h.serial_inj id j t v ht hv' (hsu.symm.trans hserial)
    · rw [hj]; exact h.serial_inj i id u t hu' ht (hserial.trans hsv)
    · exact h.serial_inj i j u v hu' hv' hserial
  · rcases hcases i u hu with ⟨hi, -, -, -, htu⟩ | ⟨-, hu'⟩ <;> rcases hcases j v hv with ⟨hj, -, -, -, htv⟩ | ⟨-, hv'⟩
    · rw [hi, hj]
    · exact absurd hs' (not_active_of_claimable hclaimable (htu ▸ htype) j v hv' htype')
    · exact absurd hs (not_active_of_claimable hclaimable (htv ▸ htype') i u hu' htype)
    · exact h.heatmap i j u v hu' hv' htype htype' hs hs'

theorem QueueInv.step {cfg : ManagerConfig} {s s' : Queue R} (h : QueueInv s) (hstep : Queue.Step cfg s s') :
    QueueInv s' := by
  cases hstep with
  | insert id t hid hq => exact h.insert hq
  | delete p => exact h.releases (deleteTasks_releases p) (fun _ _ => .inr) rfl rfl
  | cancel p now error => exact h.releases (cancelQueued_releases p now error) (fun _ _ => .inr) rfl rfl
  | spawn pid created hpid =>
    refine h.releases (.refl _) (fun q v hv => ?_) rfl rfl
    rw [Dict.get_set] at hv
    split at hv
    · exact .inl (by rw [← Option.some.inj hv])
    · exact .inr hv
  | exit pid =>
    refine h.releases (.refl _) (fun q v hv => .inr ?_) rfl rfl
    rw [Dict.get_pop] at hv
    split at hv
    · cases hv
    · exact hv
  | claim pid w id t now later hw hidle holdest => exact h.claim holdest
  | report pid w id n now r hw hdoing => exact h.releases (report_releases now r) workers_set_idle rfl rfl
  | abandon pid w hw => exact h.releases (.refl _) workers_set_idle rfl rfl
  | read id t ht hactive => exact h.releases (.refl _) (fun _ _ => .inr) rfl rfl
  | reconcile c o error hc =>
    exact h.releases (reconcileUnmanagedClaim_releases cfg.maxTaskTime c o error) (fun _ _ => .inr) rfl rfl
  | checkDuration c now error hc =>
    exact h.releases (terminateLongRunning_releases cfg.maxTaskTime c now error) (fun _ _ => .inr) rfl rfl
  | checkMemory c rss now error hc =>
    exact h.releases (checkWorkerMemory_releases cfg.memoryLimit c rss now error) (fun _ _ => .inr) rfl rfl

/-! ### What lasts -/

/-- A step makes a task active only by claiming it, with a new claim number; all other rows are released, or new. -/
private theorem step_get {cfg : ManagerConfig} {s s' : Queue R} (hstep : Queue.Step cfg s s') {id : Nat} {t : Task R}
    (ht : s'.tasks.get id = some t) :
    (t.serial = s.nextSerial ∧ t.status = .queued) ∨
      ∃ u, s.tasks.get id = some u ∧ u.serial = t.serial ∧ (u.Terminal → u = t) ∧
        (t.status = .active → u = t ∨ t.claim = s.nextClaim) := by
  have hreleases : Releases s.tasks s'.tasks → ∃ u, s.tasks.get id = some u ∧ u.serial = t.serial ∧
      (u.Terminal → u = t) ∧ (t.status = .active → u = t ∨ t.claim = s.nextClaim) := by
    intro h
    obtain ⟨u, hu, hserial, hterm⟩ := h.get_serial ht
    refine ⟨u, hu, hserial, hterm, fun hs => .inl ?_⟩
    have hactive := h.get_active ht hs
    rw [hu] at hactive
    exact Option.some.inj hactive
  cases hstep with
  | insert id' t' hid hq =>
    rw [Dict.get_set] at ht
    split at ht
    · rw [← Option.some.inj ht]
      exact .inl ⟨rfl, hq⟩
    · exact .inr ⟨t, ht, rfl, fun _ => rfl, fun _ => .inl rfl⟩
  | claim pid w id' t' now later hw hidle holdest =>
    obtain ⟨ht', hclaimable, -⟩ := holdest
    have hq : t'.status = .queued := by
      simp only [claimable, Bool.and_eq_true, decide_eq_true_eq] at hclaimable
      exact hclaimable.1.1
    rw [taskClaim_get ht' hq] at ht
    split at ht
    · rename_i hid
      subst hid
      rw [← Option.some.inj ht]
      exact .inr ⟨t', ht', rfl, fun hterm => absurd hterm (not_terminal_of_queued hq), fun _ => .inr rfl⟩
    · exact .inr ⟨t, ht, rfl, fun _ => rfl, fun _ => .inl rfl⟩
  | delete p => exact .inr (hreleases (deleteTasks_releases p))
  | cancel p now error => exact .inr (hreleases (cancelQueued_releases p now error))
  | spawn pid created hpid => exact .inr (hreleases (.refl _))
  | exit pid => exact .inr (hreleases (.refl _))
  | report pid w id n now r hw hdoing => exact .inr (hreleases (report_releases now r))
  | abandon pid w hw => exact .inr (hreleases (.refl _))
  | read id t ht hactive => exact .inr (hreleases (.refl _))
  | reconcile c o error hc => exact .inr (hreleases (reconcileUnmanagedClaim_releases cfg.maxTaskTime c o error))
  | checkDuration c now error hc => exact .inr (hreleases (terminateLongRunning_releases cfg.maxTaskTime c now error))
  | checkMemory c rss now error hc => exact .inr (hreleases (checkWorkerMemory_releases cfg.memoryLimit c rss now error))

/-- The counters only grow. -/
private theorem step_counters {cfg : ManagerConfig} {s s' : Queue R} (hstep : Queue.Step cfg s s') :
    s.nextSerial ≤ s'.nextSerial ∧ s.nextClaim ≤ s'.nextClaim := by
  cases hstep <;> exact ⟨by simp, by simp⟩

/-- The task with the serial number has been in the table, and has ended or is gone. -/
def Queue.Ended (s : Queue R) (serial : Nat) : Prop :=
  serial < s.nextSerial ∧ ∀ id t, s.tasks.get id = some t → t.serial = serial → t.Terminal

theorem Queue.Ended.step {cfg : ManagerConfig} {s s' : Queue R} {serial : Nat} (h : s.Ended serial)
    (hstep : Queue.Step cfg s s') : s'.Ended serial := by
  refine ⟨lt_of_lt_of_le h.1 (step_counters hstep).1, fun id t ht hserial => ?_⟩
  rcases step_get hstep ht with ⟨hnew, -⟩ | ⟨u, hu, hs, hterm, -⟩
  · rw [← hserial, hnew] at h
    exact absurd h.1 (lt_irrefl _)
  · have hend := h.2 id u hu (hs.trans hserial)
    rwa [← hterm hend]

/-- A row in a terminal status stays as it is until it is deleted. -/
private theorem terminal_stays {cfg : ManagerConfig} {s s' : Queue R} {id : Nat} {t : Task R}
    (h : t.serial < s.nextSerial ∧ ∀ i u, s.tasks.get i = some u → u.serial = t.serial → i = id ∧ u = t)
    (hterm : t.Terminal) (hstep : Queue.Step cfg s s') :
    t.serial < s'.nextSerial ∧ ∀ i u, s'.tasks.get i = some u → u.serial = t.serial → i = id ∧ u = t := by
  refine ⟨lt_of_lt_of_le h.1 (step_counters hstep).1, fun i u hu hserial => ?_⟩
  rcases step_get hstep hu with ⟨hnew, -⟩ | ⟨v, hv, hs, hv', -⟩
  · rw [← hserial, hnew] at h
    exact absurd h.1 (lt_irrefl _)
  · obtain ⟨hi, rfl⟩ := h.2 i v hv (hs.trans hserial)
    exact ⟨hi, (hv' hterm).symm⟩

/-- A claim that was taken away stays so. -/
theorem Queue.TakenAway.step {cfg : ManagerConfig} {s s' : Queue R} {id n : Nat} (h : s.TakenAway id n)
    (hstep : Queue.Step cfg s s') : s'.TakenAway id n := by
  refine ⟨lt_of_lt_of_le h.1 (step_counters hstep).2, fun t ht hs => ?_⟩
  rcases step_get hstep ht with ⟨-, hq⟩ | ⟨u, hu, -, -, hactive⟩
  · rw [hs] at hq; cases hq
  · rcases hactive hs with rfl | hnew
    · exact h.2 u hu hs
    · rw [hnew]; exact ne_of_gt h.1

/-- A worker whose claim was taken away matches no row. -/
private theorem QueueInv.report_eq {s : Queue R} (h : QueueInv s) {id n pid : Nat} {w : Worker}
    (htaken : s.TakenAway id n)
    (hw : s.workers.get pid = some w) (hdoing : w.doing = some (id, n)) (now : Int) (r : Report R) :
    s.tasks.report id pid now r = s.tasks := by
  refine report_of_not_claimed (fun t ht => ?_) now r
  by_contra hc
  obtain ⟨hs, hp⟩ := status_of_claimedBy (by simpa using hc)
  exact htaken.2 t ht hs ((h.attempt pid w id n t hw hdoing ht hs).1 hp)

/-- Safety of the task queue, in every run of any number of workers and the manager: a task has at most one claimant;
at most one heatmap task is active; what has ended stays as it is, and no task ends twice; and a worker whose claim
was taken away changes nothing when it reports, however long after and whoever has claimed the task since. -/
theorem taskQueue_safe {cfg : ManagerConfig} {s : Queue R} (hrun : Reaches (Queue.Step cfg) Queue.init s) :
    (∀ id p q, s.Claimant id p → s.Claimant id q → p = q) ∧
    (∀ i j t u, s.tasks.get i = some t → s.tasks.get j = some u → t.taskType = .sbomHeatmap →
      u.taskType = .sbomHeatmap → t.status = .active → u.status = .active → i = j) ∧
    (∀ s' id t, Reaches (Queue.Step cfg) s s' → s.tasks.get id = some t → t.Terminal →
      ∀ i u, s'.tasks.get i = some u → u.serial = t.serial → i = id ∧ u = t) ∧
    (∀ s₁ s₂ s₃ serial, Queue.Step cfg s s₁ → s.Finishes s₁ serial → Reaches (Queue.Step cfg) s₁ s₂ →
      Queue.Step cfg s₂ s₃ → ¬ s₂.Finishes s₃ serial) ∧
    (∀ s' id n, s.TakenAway id n → Reaches (Queue.Step cfg) s s' →
      ∀ pid w, s'.workers.get pid = some w → w.doing = some (id, n) →
        ∀ now r, s'.tasks.report id pid now r = s'.tasks) := by
  have hinv : ∀ {s s' : Queue R}, QueueInv s → Reaches (Queue.Step cfg) s s' → QueueInv s' :=
    fun h hr => Reaches.invariant (I := QueueInv) (fun _ _ h' hstep => QueueInv.step h' hstep) hr h
  have h := hinv queueInv_init hrun
  refine ⟨?_, h.heatmap, ?_, ?_, ?_⟩
  · rintro id p q ⟨w, n, t, hw, hd, ht, hs, hn⟩ ⟨v, m, u, hv, he, hu, hs', hm⟩
    obtain rfl : t = u := by rw [ht] at hu; exact Option.some.inj hu
    have hp := (h.attempt p w id n t hw hd ht hs).2 hn
    rw [(h.attempt q v id m t hv he ht hs').2 hm] at hp
    exact (Option.some.inj hp).symm
  · intro s' id t hr ht hterm
    have hstart : t.serial < s.nextSerial ∧
        ∀ i u, s.tasks.get i = some u → u.serial = t.serial → i = id ∧ u = t := by
      refine ⟨h.serial_lt id t ht, fun i u hu hserial => ?_⟩
      obtain rfl := h.serial_inj i id u t hu ht hserial
      rw [hu] at ht
      exact ⟨rfl, Option.some.inj ht⟩
    have hstay : t.serial < s'.nextSerial ∧
        ∀ i u, s'.tasks.get i = some u → u.serial = t.serial → i = id ∧ u = t :=
      Reaches.invariant (I := fun q => t.serial < q.nextSerial ∧
        ∀ i u, q.tasks.get i = some u → u.serial = t.serial → i = id ∧ u = t)
        (fun _ _ h' hstep => terminal_stays h' hterm hstep) hr hstart
    exact hstay.2
  · rintro s₁ s₂ s₃ serial hstep ⟨⟨id, t, ht, hserial, -⟩, hend⟩ hr - ⟨⟨i, u, hu, hserial', hnot⟩, -⟩
    have hlt : serial < s₁.nextSerial := by
      rw [← hserial]
      exact lt_of_lt_of_le (h.serial_lt id t ht) (step_counters hstep).1
    have hended : s₂.Ended serial :=
      Reaches.invariant (I := fun q => q.Ended serial) (fun _ _ h' hstep' => Queue.Ended.step h' hstep') hr ⟨hlt, hend⟩
    exact hnot (hended.2 i u hu hserial')
  · intro s' id n htaken hr pid w hw hd now r
    have htaken' : s'.TakenAway id n :=
      Reaches.invariant (I := fun q => q.TakenAway id n) (fun _ _ h' hstep => Queue.TakenAway.step h' hstep) hr htaken
    exact (hinv h hr).report_eq htaken' hw hd now r

/-! ### A late report -/

/-- A check task, queued or claimed by a process. -/
def checkTask (claimant : Option Nat) (started : Option Int) (claim : Nat) : Task Nat :=
  ⟨if claimant.isSome then .active else .queued, .pathsCheck, none, none, 0, none, started, claimant,
    claimant.map fun _ => 0, none, none, none, 0, claim⟩

/-- A queue of one check task, with the rest of a queue. -/
def oneCheck (claimant : Option Nat) (started : Option Int) (workers : Dict Nat Worker)
    (seen : List TaskTable.Claim) (claim next : Nat) : Queue Nat where
  tasks := (∅ : Dict Nat (Task Nat)).set 0 (checkTask claimant started claim)
  nextStart := none
  workers := workers
  seen := seen
  nextSerial := 1
  nextClaim := next

/-- Worker 10 has claimed the task, the manager has sent it back to the queue, and worker 11 has claimed it; worker 10
still works on it. -/
def claimedAgain : Queue Nat :=
  oneCheck (some 11) (some 5) ((∅ : Dict Nat Worker).set 10 ⟨0, some (0, 0)⟩ |>.set 11 ⟨0, some (0, 1)⟩)
    [⟨0, .pathsCheck, some 3, some 10, some 0⟩] 1 2

private theorem oldest_oneCheck (now : Int) (workers : Dict Nat Worker)
    (seen : List TaskTable.Claim) (claim next : Nat) :
    (oneCheck none none workers seen claim next).tasks.OldestQueued none now 0 (checkTask none none claim) := by
  refine ⟨by simp [oneCheck], rfl, fun i u hu _ => ?_⟩
  simp only [oneCheck, Dict.get_set, Dict.get_empty] at hu
  split at hu
  · rw [← Option.some.inj hu]
  · cases hu

private theorem claimedAgain_reached : Reaches (Queue.Step ⟨300 * second, 1000⟩) Queue.init claimedAgain := by
  have h₁ : Reaches (Queue.Step ⟨300 * second, 1000⟩) Queue.init (oneCheck none none ((∅ : Dict Nat Worker).set 10 ⟨0, none⟩ |>.set 11 ⟨0, none⟩) [] 0 0) :=
    ((Relation.ReflTransGen.single (.spawn Queue.init 10 0 rfl)).tail (.spawn _ 11 0 rfl)).tail
      (.insert _ 0 (checkTask none none 0) rfl rfl)
  have h₂ : Reaches (Queue.Step ⟨300 * second, 1000⟩) Queue.init
      (oneCheck (some 10) (some 3) ((∅ : Dict Nat Worker).set 11 ⟨0, none⟩ |>.set 10 ⟨0, some (0, 0)⟩) [] 0 1) :=
    h₁.tail (.claim _ 10 ⟨0, none⟩ 0 _ 3 4 rfl rfl (oldest_oneCheck 3 _ _ _ _))
  have h₃ : Reaches (Queue.Step ⟨300 * second, 1000⟩) Queue.init
      (oneCheck none none ((∅ : Dict Nat Worker).set 11 ⟨0, none⟩ |>.set 10 ⟨0, some (0, 0)⟩) [⟨0, .pathsCheck, some 3, some 10, some 0⟩] 0 1) :=
    (h₂.tail (.read _ 0 _ rfl rfl)).tail
      (.reconcile _ ⟨0, .pathsCheck, some 3, some 10, some 0⟩ ⟨false, none, false, 4⟩ [] (.head _))
  exact h₃.tail (.claim _ 11 ⟨0, none⟩ 0 _ 5 6 rfl rfl (oldest_oneCheck 5 _ _ _ _))

/-- The late report of worker 10 does not touch the task. -/
theorem taskQueue_safe_claimedAgain :
    claimedAgain.tasks.report 0 10 7 (.completed (some 1)) = claimedAgain.tasks := by
  have htaken : claimedAgain.TakenAway 0 0 := by
    refine ⟨by decide, fun t ht _ => ?_⟩
    rw [← Option.some.inj ht]
    decide
  exact (taskQueue_safe claimedAgain_reached).2.2.2.2 claimedAgain 0 0 htaken .refl 10 _ rfl rfl 7 _

end TrustedReleases
