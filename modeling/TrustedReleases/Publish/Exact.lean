import TrustedReleases.Lib.JsonPatch
import TrustedReleases.Publish.System

/-!
# What is published is what was voted on

Over every run, with workers that die anywhere: a revision is never published by two tasks (`publication_unique`), and
the commit that a completed task or an announcement names has imported exactly the files with which the revision was
made, by a run that had read it as the latest revision of the release and the one that was voted on
(`published_exactly`).
-/

namespace TrustedReleases

open Lib

namespace Publish

variable {φ : Type} {cfg : Config} {s s' : State φ}

/-! ### Messages -/

private theorem isDigits_toDigits (n : Nat) : IsDigits (Nat.toDigits 10 n) :=
  fun _ hc => Nat.isDigit_of_mem_toDigits (by decide) (by decide) hc

/-- The zeros in front do not change the number. -/
private theorem numeral_replicate (n : Nat) (s : Str) : numeral (List.replicate n '0' ++ s) = numeral s := by
  induction n with
  | zero => rfl
  | succ n ih =>
    have hcons : List.replicate (n + 1) '0' ++ s = '0' :: (List.replicate n '0' ++ s) := rfl
    have hzero : digitValue '0' = 0 := by decide
    rw [hcons, numeral_cons, ih, hzero, Nat.zero_mul, Nat.zero_add]

private theorem revisionNumber_inj {m n : Nat} (h : revisionNumber m = revisionNumber n) : m = n := by
  have hvalue : ∀ k, numeral (revisionNumber k) = k := by
    intro k
    rw [revisionNumber, numeral_replicate, numeral_toDigits]
  rw [← hvalue m, ← hvalue n, h]

private theorem newline_notMem_revisionNumber (n : Nat) : '\n' ∉ revisionNumber n := by
  intro hmem
  rcases List.mem_append.1 hmem with hzero | hdigit
  · have heq := List.eq_of_mem_replicate hzero
    exact absurd heq (by decide)
  · have hisDigit := isDigits_toDigits n _ hdigit
    exact absurd hisDigit (by decide)

/-- Lines with the same label are told apart by their texts. -/
private theorem line_inj {label text text' x y : Str} (ht : '\n' ∉ text) (ht' : '\n' ∉ text')
    (h : line label text ++ x = line label text' ++ y) : text = text' ∧ x = y := by
  simp only [line, List.append_assoc] at h
  have hrest := List.append_cancel_left h
  simp only [← List.append_assoc] at hrest
  exact PrefixCode.terminated '\n' text text' x y ht ht' hrest

private theorem newline_notMem_title (key : ReleaseKey) : '\n' ∉ key.projectKey.1 ++ '-' :: key.versionKey.1 := by
  intro hmem
  rcases List.mem_append.1 hmem with hproject | hrest
  · exact key.projectKey.2 hproject
  · rcases List.mem_cons.1 hrest with heq | hversion
    · exact absurd heq (by decide)
    · exact key.versionKey.2 hversion

/-- The message tells the release and the revision. -/
private theorem logMessage_inj {committee committee' : SafeKey} {args args' : SvnPublish}
    (h : logMessage committee args = logMessage committee' args') :
    args.key = args'.key ∧ args.revisionNumber = args'.revisionNumber := by
  simp only [logMessage, List.append_assoc] at h
  obtain ⟨-, h⟩ := line_inj (newline_notMem_title args.key) (newline_notMem_title args'.key) h
  obtain ⟨-, h⟩ := line_inj (List.not_mem_nil) (List.not_mem_nil) h
  obtain ⟨-, h⟩ := line_inj committee.2 committee'.2 h
  obtain ⟨hproject, h⟩ := line_inj args.key.projectKey.2 args'.key.projectKey.2 h
  obtain ⟨hversion, h⟩ := line_inj args.key.versionKey.2 args'.key.versionKey.2 h
  obtain ⟨hnumber, -⟩ := line_inj (newline_notMem_revisionNumber _) (newline_notMem_revisionNumber _) h
  exact ⟨ReleaseKey.ext (Subtype.ext hproject) (Subtype.ext hversion), revisionNumber_inj hnumber⟩

/-! ### The invariant -/

/-- The row has the revision as the latest one, and no other one as the voted one. -/
def Latest (revision : Nat) (row : Option Release) : Prop :=
  ∃ release, row = some release ∧ release.latestRevisionNumber = some revision ∧
    (release.votedRevisionNumber = none ∨ release.votedRevisionNumber = some revision)

/-- The commit is a publication of the revision. -/
def Published (s : State φ) (key : ReleaseKey) (revision r : Nat) : Prop :=
  ∃ c, s.commits[r]? = some c ∧ c.byAtr = true ∧
    ∃ committee args, args.key = key ∧ args.revisionNumber = revision ∧ c.message = logMessage committee args

/-- The commit with the number `r`, if it has the message of a publication, has imported the files of the revision, by a
run that had read the revision as the latest one. -/
def Sound (s : State φ) (r : Nat) (c : Commit φ) : Prop :=
  c.byAtr = true → ∀ committee args, c.message = logMessage committee args →
    s.made.get (args.key, args.revisionNumber) = some c.files ∧
      ∃ row, s.importedBy.get r = some row ∧ Latest args.revisionNumber row

def Stage.args : Stage → SvnPublish
  | .planned p => p.args
  | .conflict p => p.args
  | .finished args _ => args

/-- What is known of a run of a task at its stage, with the row that it has read. -/
def Stage.Good (s : State φ) (row : Option Release) : Stage → Prop
  | .planned p => Latest p.args.revisionNumber row
  | .conflict _ => True
  | .finished args r => ∀ revision, r = .ok revision → Published s args.key args.revisionNumber revision

structure Execution.Good (s : State φ) (e : Execution) : Prop where
  id : e.taskId < s.nextId
  args : ∀ t ∈ s.tasks.rows, t.id = e.taskId → e.stage.args = t.args
  stage : e.stage.Good s e.row

/-- What is known of a task; a completed one has published its revision. -/
structure Task.Good (s : State φ) (t : Task) : Prop where
  id : t.id < s.nextId
  result : t.status = .completed → ∃ r, t.result = some r ∧ Published s t.args.key t.args.revisionNumber r

/-- No two live tasks publish the same revision. -/
def OneEach (tasks : Table Task.id) : Prop :=
  ∀ t ∈ tasks.rows, ∀ t' ∈ tasks.rows, t.args.key = t'.args.key → t.args.revisionNumber = t'.args.revisionNumber →
    t.Live → t'.Live → t.id = t'.id

def Announcement.Good (s : State φ) (a : Announcement) : Prop := Published s a.key a.revisionNumber a.publishedRevision

structure Inv (s : State φ) : Prop where
  numbers : ∀ key n files, s.made.get (key, n) = some files → n ≤ s.lastAllocated key
  directories : ∀ k files, s.directories.get k = some files → s.made.get k = some files
  commits : ∀ r c, s.commits[r]? = some c → Sound s r c
  executions : ∀ i e, s.executions.get i = some e → e.Good s
  tasks : ∀ t ∈ s.tasks.rows, t.Good s
  oneEach : OneEach s.tasks
  checked : ∀ a ∈ s.checked, a.Good s
  announced : ∀ a ∈ s.announced, a.Good s

theorem Inv.init : Inv (State.init : State φ) where
  numbers := fun key n files h => by cases h
  directories := fun k files h => by cases h
  commits := fun r c h => by cases h
  executions := fun i e h => by cases h
  tasks := fun t h => by cases h
  oneEach := fun t h => by cases h
  checked := fun a h => by cases h
  announced := fun a h => by cases h

/-! ### What grows -/

/-- Commits and revisions stay, with what is recorded of them; new ones may come. -/
structure Grows (s s' : State φ) : Prop where
  commits : ∀ (r : Nat) (c : Commit φ), s.commits[r]? = some c → s'.commits[r]? = some c
  made : ∀ k files, s.made.get k = some files → s'.made.get k = some files
  importedBy : ∀ r < s.commits.length, s'.importedBy.get r = s.importedBy.get r

theorem Grows.same (hcommits : s'.commits = s.commits) (hmade : s'.made = s.made)
    (himportedBy : s'.importedBy = s.importedBy) : Grows s s' where
  commits := fun _ _ hc => hcommits ▸ hc
  made := fun _ _ hk => hmade ▸ hk
  importedBy := fun _ _ => by rw [himportedBy]

private theorem Published.mono {key : ReleaseKey} {revision r : Nat} (hgrows : Grows s s')
    (h : Published s key revision r) :
    Published s' key revision r := by
  obtain ⟨c, hc, hrest⟩ := h
  exact ⟨c, hgrows.commits r c hc, hrest⟩

private theorem Sound.mono {r : Nat} {c : Commit φ} (hgrows : Grows s s') (hc : s.commits[r]? = some c)
    (h : Sound s r c) :
    Sound s' r c := by
  intro hatr committee args hmessage
  obtain ⟨hmade, row, hrow, hlatest⟩ := h hatr committee args hmessage
  have hlt : r < s.commits.length := (List.getElem?_eq_some_iff.1 hc).1
  exact ⟨hgrows.made _ _ hmade, row, (hgrows.importedBy r hlt).trans hrow, hlatest⟩

private theorem Stage.Good.mono {row : Option Release} {stage : Stage} (hgrows : Grows s s') (h : stage.Good s row) :
    stage.Good s' row := by
  cases stage with
  | planned p => exact h
  | conflict p => trivial
  | finished args r => exact fun revision hr => (h revision hr).mono hgrows

private theorem Task.Good.mono {t : Task} (hgrows : Grows s s') (hid : s.nextId ≤ s'.nextId) (h : t.Good s) :
    t.Good s' := by
  refine ⟨h.id.trans_le hid, fun hcompleted => ?_⟩
  obtain ⟨r, hr, hpublished⟩ := h.result hcompleted
  exact ⟨r, hr, hpublished.mono hgrows⟩

private theorem Execution.Good.mono {e : Execution} (hgrows : Grows s s') (hid : s.nextId ≤ s'.nextId)
    (htasks : ∀ t ∈ s'.tasks.rows, t.id < s.nextId → ∃ old ∈ s.tasks.rows, old.id = t.id ∧ old.args = t.args)
    (h : e.Good s) : e.Good s' := by
  refine ⟨h.id.trans_le hid, fun t ht heq => ?_, h.stage.mono hgrows⟩
  obtain ⟨old, hold, hold', hargs⟩ := htasks t ht (heq ▸ h.id)
  rw [← hargs]
  exact h.args old hold (hold'.trans heq)

/-- A state of which all but the commits and the revisions has become less. -/
theorem Inv.less (h : Inv s) (hgrows : Grows s s') (hid : s'.nextId = s.nextId)
    (hnumbers : ∀ key n files, s'.made.get (key, n) = some files → n ≤ s'.lastAllocated key)
    (hdirectories : ∀ k files, s'.directories.get k = some files → s'.made.get k = some files)
    (hcommits : ∀ r c, s'.commits[r]? = some c → s.commits[r]? = some c ∨ Sound s' r c)
    (hexecutions : ∀ i e, s'.executions.get i = some e → s.executions.get i = some e)
    (htasks : ∀ t ∈ s'.tasks.rows, t ∈ s.tasks.rows) (hchecked : s'.checked = s.checked)
    (hannounced : s'.announced = s.announced) : Inv s' where
  numbers := hnumbers
  directories := hdirectories
  commits := by
    intro r c hc
    rcases hcommits r c hc with hold | hnew
    · exact (h.commits r c hold).mono hgrows hold
    · exact hnew
  executions := by
    intro i e he
    exact (h.executions i e (hexecutions i e he)).mono hgrows hid.ge fun t ht _ => ⟨t, htasks t ht, rfl, rfl⟩
  tasks := fun t ht => (h.tasks t (htasks t ht)).mono hgrows hid.ge
  oneEach := fun t ht t' ht' => h.oneEach t (htasks t ht) t' (htasks t' ht')
  checked := fun a ha => (h.checked a (hchecked ▸ ha)).mono hgrows
  announced := fun a ha => (h.announced a (hannounced ▸ ha)).mono hgrows

/-! ### Parts of steps -/

private theorem mem_setStatus {tasks : Table Task.id} {t : Task} {status : TaskStatus} {result : Option Nat}
    (ht : tasks.get t.id = some t) {u : Task} (h : u ∈ (setStatus tasks t.id status result).rows) :
    u = { t with status, result } ∨ u ∈ tasks.rows ∧ u.id ≠ t.id := by
  unfold setStatus at h
  rw [ht] at h
  exact Table.mem_replace h

/-- A queued or active task gets another status. -/
private theorem Inv.setStatus (h : Inv s) {t : Task} (status : TaskStatus) (result : Option Nat)
    (ht : s.tasks.get t.id = some t) (hlive : t.Live)
    (hresult : status = .completed → ∃ r, result = some r ∧ Published s t.args.key t.args.revisionNumber r) :
    Inv { s with tasks := Publish.setStatus s.tasks t.id status result } := by
  have hgrows : Grows s { s with tasks := Publish.setStatus s.tasks t.id status result } := .same rfl rfl rfl
  have hmem : t ∈ s.tasks.rows := (Table.get_eq_some.1 ht).1
  -- a row is one of before up to its status, which makes no other task live
  have hold : ∀ u ∈ (Publish.setStatus s.tasks t.id status result).rows,
      ∃ old ∈ s.tasks.rows, old.id = u.id ∧ old.args = u.args ∧ (u.Live → old.Live) := by
    intro u hu
    rcases mem_setStatus ht hu with rfl | hu
    · exact ⟨t, hmem, rfl, rfl, fun _ => hlive⟩
    · exact ⟨u, hu.1, rfl, rfl, fun h => h⟩
  refine ⟨h.numbers, h.directories, h.commits, fun i e he => ?_, fun u hu => ?_, fun u hu u' hu' hkey hrevision hl hl' => ?_,
    h.checked, h.announced⟩
  · refine (h.executions i e he).mono hgrows le_rfl fun u hu _ => ?_
    obtain ⟨old, hmem', hid', hargs', -⟩ := hold u hu
    exact ⟨old, hmem', hid', hargs'⟩
  · rcases mem_setStatus ht hu with rfl | hu
    · exact ⟨(h.tasks t hmem).id, hresult⟩
    · exact (h.tasks u hu.1).mono hgrows le_rfl
  · obtain ⟨old, hmem₁, hid₁, hargs₁, hl₁⟩ := hold u hu
    obtain ⟨old', hmem₂, hid₂, hargs₂, hl₂⟩ := hold u' hu'
    rw [← hid₁, ← hid₂]
    rw [← hargs₁, ← hargs₂] at hkey hrevision
    exact h.oneEach old hmem₁ old' hmem₂ hkey hrevision (hl₁ hl) (hl₂ hl')

/-- A run of a task comes to another stage. -/
private theorem Inv.setExecution (h : Inv s) (i : Nat) {e : Execution} (he : e.Good s) :
    Inv { s with executions := s.executions.set i e } := by
  have hgrows : Grows s { s with executions := s.executions.set i e } := .same rfl rfl rfl
  refine ⟨h.numbers, h.directories, h.commits, fun j e' he' => ?_, fun t ht => (h.tasks t ht).mono hgrows le_rfl,
    h.oneEach, h.checked, h.announced⟩
  rw [Dict.get_set] at he'
  split_ifs at he' with hj
  · obtain rfl := Option.some.inj he'
    exact he.mono hgrows le_rfl fun t ht _ => ⟨t, ht, rfl, rfl⟩
  · exact (h.executions j e' he').mono hgrows le_rfl fun t ht _ => ⟨t, ht, rfl, rfl⟩

private theorem Inv.popExecution (h : Inv s) (i : Nat) : Inv { s with executions := s.executions.pop i } := by
  refine h.less (.same rfl rfl rfl) rfl h.numbers h.directories (fun r c hc => .inl hc) (fun j e he => ?_)
    (fun t ht => ht) rfl rfl
  rw [Dict.get_pop] at he
  split_ifs at he
  exact he

/-- The state after one more commit, with the rows that runs had read. -/
def committed (s : State φ) (c : Commit φ) (importedBy : Dict Nat (Option Release)) : State φ :=
  { s with commits := s.commits ++ [c], importedBy }

/-- What is recorded of the commits that are there does not change. -/
theorem Inv.commit (h : Inv s) {c : Commit φ} {importedBy : Dict Nat (Option Release)}
    (himportedBy : ∀ r < s.commits.length, importedBy.get r = s.importedBy.get r)
    (hc : Sound (committed s c importedBy) s.commits.length c) : Inv (committed s c importedBy) := by
  have hgrows : Grows s (committed s c importedBy) := by
    refine ⟨fun r c' hc' => ?_, fun k files hk => hk, himportedBy⟩
    have hlt : r < s.commits.length := (List.getElem?_eq_some_iff.1 hc').1
    exact (List.getElem?_append_left hlt).trans hc'
  refine h.less hgrows rfl h.numbers h.directories (fun r c' hc' => ?_) (fun i e he => he) (fun t ht => ht) rfl rfl
  have hat : (s.commits ++ [c])[r]? = some c' := hc'
  rcases lt_or_ge r s.commits.length with hlt | hge
  · rw [List.getElem?_append_left hlt] at hat
    exact .inl hat
  · rw [List.getElem?_append_right hge, List.getElem?_singleton] at hat
    split_ifs at hat with hlast
    obtain rfl := Option.some.inj hat
    obtain rfl : r = s.commits.length := by omega
    exact .inr hc

/-- What the checks of a run have found. -/
private theorem plan_eq_ok {release : Option Release} {args : SvnPublish} {p : Plan}
    (h : plan cfg release args = .ok p) :
    p.args = args ∧ Latest args.revisionNumber release := by
  obtain ⟨row, hrow, h⟩ := demand_bind_eq_ok.1 h
  obtain ⟨-, h⟩ := raiseIf_bind_eq_ok.1 h
  obtain ⟨committee, -, h⟩ := demand_bind_eq_ok.1 h
  obtain ⟨_, hvalid, h⟩ := bind_eq_ok h
  obtain ⟨url, -, h⟩ := bind_eq_ok h
  obtain rfl := Except.ok.inj h
  obtain ⟨hlatest, hvoted⟩ := raiseIf_bind_eq_ok.1 hvalid
  refine ⟨rfl, row, Option.eq_some_of_filter_eq_some hrow, not_not.1 hlatest, ?_⟩
  have hnot := raiseIf_eq_ok.1 hvoted
  cases hcase : row.votedRevisionNumber with
  | none => exact .inl rfl
  | some voted =>
    rw [hcase] at hnot
    exact .inr (not_not.1 fun hne => hnot ⟨rfl, hne⟩)

/-- What a request that queues a task has found. -/
private theorem publishToSvn_eq_ok {release : Option Release} {tasks : List Task} {latest : Option Nat} {id : Nat}
    {key : ReleaseKey} {revision : Nat} {suffix : Option Str} {uid : Str} {t : Task}
    (h : publishToSvn cfg release tasks latest id key revision suffix uid = .ok t) :
    t.id = id ∧ t.args.key = key ∧ t.args.revisionNumber = revision ∧ t.status = .queued ∧
      releaseInFlightTask tasks key revision = none ∧ releaseCompletedTask tasks key revision = none := by
  obtain ⟨row, -, h⟩ := demand_bind_eq_ok.1 h
  obtain ⟨-, h⟩ := raiseIf_bind_eq_ok.1 h
  obtain ⟨committee, -, h⟩ := demand_bind_eq_ok.1 h
  obtain ⟨_, -, h⟩ := bind_eq_ok h
  obtain ⟨url, -, h⟩ := bind_eq_ok h
  obtain ⟨latest, -, h⟩ := demand_bind_eq_ok.1 h
  obtain ⟨-, h⟩ := raiseIf_bind_eq_ok.1 h
  obtain ⟨hflight, h⟩ := raiseIf_bind_eq_ok.1 h
  obtain ⟨hcompleted, h⟩ := raiseIf_bind_eq_ok.1 h
  obtain rfl := Except.ok.inj h
  exact ⟨rfl, rfl, rfl, rfl, by simpa using hflight, by simpa using hcompleted⟩

/-! ### Steps -/

private theorem lastAllocated_set (s : State φ) (key key' : ReleaseKey) (n : Nat) :
    State.lastAllocated { s with revisionCounter := s.revisionCounter.set key n } key' =
      if key' = key then n else s.lastAllocated key' := by
  unfold State.lastAllocated
  rw [Dict.get_set]
  split_ifs <;> rfl

/-- The number of a new revision has not been used, so what a revision was made with does not change. -/
theorem Inv.createRevision (h : Inv s) (key : ReleaseKey) (files : φ) :
    Inv { s with
      revisionCounter := s.revisionCounter.set key (s.lastAllocated key + 1)
      directories := s.directories.set (key, s.lastAllocated key + 1) files
      made := s.made.set (key, s.lastAllocated key + 1) files } := by
  have hmade : ∀ k old, s.made.get k = some old → (s.made.set (key, s.lastAllocated key + 1) files).get k = some old := by
    intro k old hk
    rw [Dict.get_set, if_neg, hk]
    rintro rfl
    have hle := h.numbers _ _ _ hk
    omega
  refine h.less ⟨fun r c hc => hc, hmade, fun r _ => rfl⟩ rfl (fun key' n old hn => ?_) (fun k old hk => ?_)
    (fun r c hc => .inl hc) (fun i e he => he) (fun t ht => ht) rfl rfl
  · have hlast := lastAllocated_set s key key' (s.lastAllocated key + 1)
    refine le_of_le_of_eq ?_ hlast.symm
    rw [Dict.get_set] at hn
    split_ifs at hn with hk
    · obtain ⟨rfl, rfl⟩ := Prod.mk.inj hk
      rw [if_pos rfl]
    · have hle := h.numbers key' n old hn
      split_ifs with hkey
      · subst hkey
        omega
      · exact hle
  · dsimp only at hk ⊢
    rw [Dict.get_set] at hk ⊢
    split_ifs at hk ⊢ with heq
    · exact hk
    · exact h.directories k old hk

private theorem Inv.insertTask (h : Inv s) {t : Task} {releases : Dict ReleaseKey Release} (hid : t.id = s.nextId)
    (hqueued : t.status = .queued)
    (hflight : releaseInFlightTask s.tasks.rows t.args.key t.args.revisionNumber = none)
    (hcompleted : releaseCompletedTask s.tasks.rows t.args.key t.args.revisionNumber = none) :
    Inv { s with releases, tasks := s.tasks.insert t, nextId := s.nextId + 1 } := by
  have hgrows : Grows s { s with releases, tasks := s.tasks.insert t, nextId := s.nextId + 1 } := .same rfl rfl rfl
  -- what is live and publishes the revision would have been found
  have hnone : ∀ u ∈ s.tasks.rows, u.args.key = t.args.key → u.args.revisionNumber = t.args.revisionNumber → ¬ u.Live := by
    intro u hu hkey hrevision hlive
    have hpublishes : u.publishes t.args.key t.args.revisionNumber = true := by simp [Task.publishes, hkey, hrevision]
    have h₁ := List.find?_eq_none.1 hflight u hu
    have h₂ := List.find?_eq_none.1 hcompleted u hu
    rw [hpublishes] at h₁ h₂
    rcases hlive with hstatus | hstatus | hstatus
    · simp [hstatus] at h₁
    · simp [hstatus] at h₁
    · obtain ⟨r, hr, -⟩ := (h.tasks u hu).result hstatus
      simp [hstatus, hr] at h₂
  have hnew : t.Good { s with releases, tasks := s.tasks.insert t, nextId := s.nextId + 1 } := by
    refine ⟨hid ▸ Nat.lt_succ_self _, fun hstatus => ?_⟩
    rw [hqueued] at hstatus
    cases hstatus
  refine ⟨h.numbers, h.directories, fun r c hc => (h.commits r c hc).mono hgrows hc, fun i e he => ?_,
    fun u hu => ?_, fun u hu u' hu' hkey hrevision hl hl' => ?_, fun a ha => (h.checked a ha).mono hgrows,
    fun a ha => (h.announced a ha).mono hgrows⟩
  · refine (h.executions i e he).mono hgrows (Nat.le_succ _) fun u hu hlt => ?_
    rcases Table.mem_insert hu with hu | rfl
    · exact ⟨u, hu, rfl, rfl⟩
    · omega
  · rcases Table.mem_insert hu with hu | rfl
    · exact (h.tasks u hu).mono hgrows (Nat.le_succ _)
    · exact hnew
  · rcases Table.mem_insert hu with hold | hnew
    · rcases Table.mem_insert hu' with hold' | hnew'
      · exact h.oneEach u hold u' hold' hkey hrevision hl hl'
      · subst hnew'
        exact absurd hl (hnone u hold hkey hrevision)
    · subst hnew
      rcases Table.mem_insert hu' with hold' | hnew'
      · exact absurd hl' (hnone u' hold' hkey.symm hrevision.symm)
      · rw [hnew']

/-- A task that is claimed has been found to be in order. -/
theorem Inv.claim (h : Inv s) {t : Task} {execution : Nat} {p : Plan} (htask : s.tasks.get t.id = some t)
    (hqueued : t.status = .queued) (hok : plan cfg (s.releases.get t.args.key) t.args = .ok p) :
    Inv { s with
      tasks := Publish.setStatus s.tasks t.id .active none
      executions := s.executions.set execution ⟨t.id, .planned p, s.releases.get t.args.key⟩ } := by
  obtain ⟨hargs, hlatest⟩ := plan_eq_ok hok
  have hmem := (Table.get_eq_some.1 htask).1
  have hactive := h.setStatus .active none htask (.inl hqueued) (by simp)
  refine hactive.setExecution execution ⟨(h.tasks t hmem).id, fun u hu hid => ?_, ?_⟩
  · rcases mem_setStatus htask hu with rfl | hu
    · exact hargs
    · exact absurd hid hu.2
  · show Latest p.args.revisionNumber (s.releases.get t.args.key)
    rw [hargs]
    exact hlatest

/-- The import of a run of a task, whether its revision is printed or not. -/
theorem Inv.importCommits (h : Inv s) {execution taskId : Nat} {p : Plan} {row : Option Release} {files : φ}
    {created : List Str} {printed : Bool} {r : Except Error Nat}
    (hrun : s.executions.get execution = some ⟨taskId, .planned p, row⟩)
    (hfiles : s.directories.get (p.args.key, p.args.revisionNumber) = some files)
    (hfollow : follow cfg (.committed (if printed then some s.commits.length else none)) = .result r) :
    Inv { s with
      commits := s.commits ++ [⟨p.args.asfUid, logMessage p.committee p.args, true, created, files⟩]
      executions := s.executions.set execution ⟨taskId, .finished p.args r, row⟩
      importedBy := s.importedBy.set s.commits.length row } := by
  have hgood := h.executions _ _ hrun
  have hsound : Sound (committed s ⟨p.args.asfUid, logMessage p.committee p.args, true, created, files⟩
      (s.importedBy.set s.commits.length row)) s.commits.length
      ⟨p.args.asfUid, logMessage p.committee p.args, true, created, files⟩ := by
    intro _ committee args hmessage
    obtain ⟨hkey, hrevision⟩ := logMessage_inj hmessage
    rw [← hkey, ← hrevision]
    refine ⟨h.directories _ _ hfiles, row, ?_, hgood.stage⟩
    exact (Dict.get_set ..).trans (if_pos rfl)
  have hold : ∀ r < s.commits.length, (s.importedBy.set s.commits.length row).get r = s.importedBy.get r := by
    intro r hr
    rw [Dict.get_set, if_neg (by omega)]
  refine (h.commit hold hsound).setExecution execution ⟨hgood.id, hgood.args, fun revision hr => ?_⟩
  have hlast : (s.commits ++ [⟨p.args.asfUid, logMessage p.committee p.args, true, created, files⟩])[s.commits.length]? =
    some ⟨p.args.asfUid, logMessage p.committee p.args, true, created, files⟩ := by simp
  cases printed with
  | false =>
    obtain rfl := Followed.result.inj hfollow
    cases hr
  | true =>
    obtain rfl := Followed.result.inj hfollow
    obtain rfl := Except.ok.inj hr
    exact ⟨_, hlast, rfl, p.committee, p.args, rfl, rfl, rfl⟩

/-- The commit that is found to be there already. -/
private theorem alreadyPublished_eq_ok {p : Plan} {lastChanged : Option Nat} {revision : Nat}
    (h : alreadyPublished cfg s.commits p lastChanged = .ok revision) :
    Published s p.args.key p.args.revisionNumber revision := by
  unfold alreadyPublished at h
  split at h
  · cases h
  next last =>
    split_ifs at h with hmatches
    obtain rfl := Except.ok.inj h
    unfold publishRevisionMatches at hmatches
    split at hmatches
    · cases hmatches
    next entry hentry =>
      simp only [Bool.and_eq_true, decide_eq_true_eq] at hmatches
      exact ⟨entry, hentry, hmatches.2, p.committee, p.args, rfl, rfl, hmatches.1.1.2⟩

theorem Inv.report (h : Inv s) {execution : Nat} {t : Task} {args : SvnPublish} {r : Except Error Nat}
    {row : Option Release} (hrun : s.executions.get execution = some ⟨t.id, .finished args r, row⟩) (htask : s.tasks.get t.id = some t)
    (hactive : t.status = .active) :
    Inv { s with
      tasks := Publish.setStatus s.tasks t.id (resultStatus r) r.toOption
      executions := s.executions.pop execution } := by
  have hgood := h.executions _ _ hrun
  have hargs : args = t.args := hgood.args t (Table.get_eq_some.1 htask).1 rfl
  refine (h.setStatus _ _ htask (.inr (.inl hactive)) fun hstatus => ?_).popExecution execution
  cases r with
  | error e => cases hstatus
  | ok revision => exact ⟨revision, rfl, hargs ▸ hgood.stage revision rfl⟩

private theorem Step.inv (hstep : Step cfg s s') (h : Inv s) : Inv s' := by
  cases hstep with
  | update key row | read key =>
    exact h.less (.same rfl rfl rfl) rfl h.numbers h.directories (fun r c hc => .inl hc) (fun i e he => he)
      (fun t ht => ht) rfl rfl
  | createRevision key files => exact h.createRevision key files
  | removeDirectory key revision =>
    refine h.less (.same rfl rfl rfl) rfl h.numbers (fun k files hk => ?_) (fun r c hc => .inl hc) (fun i e he => he)
      (fun t ht => ht) rfl rfl
    dsimp only at hk
    rw [Dict.get_pop] at hk
    split_ifs at hk
    exact h.directories k files hk
  | delete key =>
    exact h.less (.same rfl rfl rfl) rfl h.numbers h.directories (fun r c hc => .inl hc) (fun i e he => he)
      (fun t ht => (List.mem_filter.1 ht).1) rfl rfl
  | publishToSvn key release expectedRevision suffix uid t hseen hok =>
    obtain ⟨hid, rfl, rfl, hqueued, hflight, hcompleted⟩ := publishToSvn_eq_ok hok
    exact h.insertTask hid hqueued hflight hcompleted
  | claim t execution p htask hqueued hfree hok => exact h.claim htask hqueued hok
  | refuse t e htask hqueued hfails => exact h.setStatus _ _ htask (.inl hqueued) (by simp)
  | importCommits execution taskId p row files created printed hrun hfiles r hfollow =>
    exact h.importCommits hrun hfiles hfollow
  | importFails execution taskId p row output hrun r hfollow =>
    have hgood := h.executions _ _ hrun
    refine h.setExecution execution ⟨hgood.id, hgood.args, fun revision hr => ?_⟩
    unfold follow at hfollow
    dsimp only at hfollow
    split_ifs at hfollow
    obtain rfl := Followed.result.inj hfollow
    cases hr
  | importConflicts execution taskId p row output hrun hfollow =>
    have hgood := h.executions _ _ hrun
    exact h.setExecution execution ⟨hgood.id, hgood.args, trivial⟩
  | heal execution taskId p row lastChanged hrun =>
    have hgood := h.executions _ _ hrun
    exact h.setExecution execution ⟨hgood.id, hgood.args, fun revision hr => alreadyPublished_eq_ok hr⟩
  | report execution t args r row hrun htask hactive => exact h.report hrun htask hactive
  | crash execution => exact h.popExecution execution
  | manage t status htask hstatus =>
    have hlive : t.Live := by
      rcases hstatus with hqueued | hactive
      · exact .inl hqueued.1
      · exact .inr (.inl hactive.1)
    refine h.setStatus _ _ htask hlive fun hcompleted => ?_
    subst hcompleted
    simp at hstatus
  | commitElsewhere c hother =>
    exact h.commit (fun r _ => rfl) fun hatr committee args hmessage => absurd ⟨committee, args, hmessage⟩ (hother hatr)
  | checkAnnouncement key release revision t published hseen hphase hlatest htask hpublished =>
    have hgrows : Grows s { s with checked := ⟨key, revision, published⟩ :: s.checked } := .same rfl rfl rfl
    have hfound := List.find?_some htask
    simp only [Task.publishes, Bool.and_eq_true, decide_eq_true_eq] at hfound
    obtain ⟨r, hr, hgood⟩ := (h.tasks t (List.mem_of_find?_eq_some htask)).result hfound.1.2
    obtain rfl : r = published := Option.some.inj (hr.symm.trans hpublished)
    rw [hfound.1.1.1, hfound.1.1.2] at hgood
    refine ⟨h.numbers, h.directories, h.commits, ?_, fun u hu => (h.tasks u hu).mono hgrows le_rfl, h.oneEach,
      fun a ha => ?_, h.announced⟩
    · exact fun i e he => (h.executions i e he).mono hgrows le_rfl fun u hu _ => ⟨u, hu, rfl, rfl⟩
    · rcases List.mem_cons.1 ha with rfl | ha
      · exact hgood
      · exact h.checked a ha
  | announce a release hchecked hrelease hphase hlatest =>
    have hgrows : Grows s { s with
      releases := s.releases.set a.key { release with phase := .release, latestRevisionNumber := none }
      announced := a :: s.announced } := .same rfl rfl rfl
    refine ⟨h.numbers, h.directories, h.commits, ?_, fun u hu => (h.tasks u hu).mono hgrows le_rfl, h.oneEach,
      h.checked, fun b hb => ?_⟩
    · exact fun i e he => (h.executions i e he).mono hgrows le_rfl fun u hu _ => ⟨u, hu, rfl, rfl⟩
    · rcases List.mem_cons.1 hb with rfl | hb
      · exact h.checked b hchecked
      · exact h.announced b hb

private theorem reaches_inv (hrun : Reaches (Step cfg) State.init s) : Inv s :=
  hrun.invariant (fun _ _ h hstep => hstep.inv h) Inv.init

/-! ### Results -/

/-- The commit has imported the files with which the revision was made, and the run that made it had read the row of the
release with this revision as the latest one and no other one voted on. -/
def Imported (s : State φ) (key : ReleaseKey) (revision r : Nat) : Prop :=
  ∃ c, s.commits[r]? = some c ∧ c.byAtr = true ∧ s.made.get (key, revision) = some c.files ∧
    ∃ row, s.importedBy.get r = some row ∧ Latest revision row

theorem Published.imported {key : ReleaseKey} {revision r : Nat} (h : Inv s) (hr : Published s key revision r) :
    Imported s key revision r := by
  obtain ⟨c, hc, hatr, committee, args, rfl, rfl, hmessage⟩ := hr
  obtain ⟨hmade, himported⟩ := h.commits r c hc hatr committee args hmessage
  exact ⟨c, hc, hatr, hmade, himported⟩

def plainConfig : Config where
  kind := .asfDistribution
  svnPublishTarget := .ok ()
  internalUrl := fun committee _ => .ok committee.1
  relativeUrl := id
  errorMessage := id

def plainKey : ReleaseKey := ⟨⟨['p'], by decide⟩, ⟨['1'], by decide⟩⟩

def plainRelease : Release := ⟨.releasePreview, some ⟨['c'], by decide⟩, true, some 1, some 1, none, none⟩

def plainTask : Task := ⟨0, ⟨['u'], plainKey, 1, none, none⟩, .queued, none⟩

def plainPlan : Plan := ⟨plainTask.args, ⟨['c'], by decide⟩, ['c']⟩

/-- The next run of a task finds the commit of a worker that has died. -/
private theorem step_heal_plain {s : State Nat}
    (hcommits : s.commits = [⟨['u'], logMessage plainPlan.committee plainPlan.args, true, [['c']], 7⟩])
    {row : Option Release} (hrun : s.executions.get 1 = some ⟨0, .conflict plainPlan, row⟩) :
    Step plainConfig s { s with executions := s.executions.set 1 ⟨0, .finished plainTask.args (.ok 0), row⟩ } := by
  have hheal : alreadyPublished plainConfig s.commits plainPlan (some 0) = .ok 0 := by
    rw [hcommits]
    simp [alreadyPublished, publishRevisionMatches, plainConfig, plainPlan, plainTask]
  rw [← hheal]
  exact Step.heal s 1 0 plainPlan row (some 0) hrun

private theorem follow_conflict : follow plainConfig (.failed "E160020".toList) = .conflict := by
  unfold follow
  exact if_pos List.infix_rfl

/-- A worker dies after the import, and the next run of the task finds the commit. -/
private theorem exists_healed : ∃ s : State Nat, Reaches (Step plainConfig) State.init s ∧
    s.tasks.rows = [{ plainTask with status := .completed, result := some 0 }] ∧ s.announced = [⟨plainKey, 1, 0⟩] :=
  ⟨_, .tail (.tail (.tail (.tail (.tail (.tail (.tail (.tail (.tail (.tail (.tail (.tail (.tail (.tail .refl
    (.createRevision _ plainKey 7)) (.update _ plainKey plainRelease)) (.read _ plainKey))
    (.publishToSvn _ plainKey (some plainRelease) 1 none ['u'] plainTask List.mem_cons_self rfl))
    (.claim _ plainTask 0 plainPlan rfl rfl rfl rfl))
    (.importCommits _ 0 0 plainPlan _ 7 [['c']] true rfl rfl (.ok 0) rfl)) (.crash _ 0))
    (.manage _ { plainTask with status := .active } .queued rfl (.inr ⟨rfl, .inl rfl⟩)))
    (.claim _ plainTask 1 plainPlan rfl rfl rfl rfl))
    (.importConflicts _ 1 0 plainPlan _ "E160020".toList rfl follow_conflict)) (step_heal_plain rfl rfl))
    (.report _ 1 { plainTask with status := .active } plainTask.args (.ok 0) _ rfl rfl rfl))
    (.checkAnnouncement _ plainKey plainRelease 1 { plainTask with status := .completed, result := some 0 } 0
      List.mem_cons_self rfl rfl (by decide +kernel) rfl))
    (.announce _ ⟨plainKey, 1, 0⟩ { plainRelease with downloadPathSuffix := some [] } List.mem_cons_self rfl rfl rfl),
    by decide +kernel, rfl⟩

/-- In every run, two tasks that publish the same revision of a release, and that are queued, run or have completed, are
the same task. -/
theorem publication_unique (hrun : Reaches (Step cfg) State.init s) {t t' : Task} (ht : t ∈ s.tasks.rows)
    (ht' : t' ∈ s.tasks.rows) (hkey : t.args.key = t'.args.key)
    (hrevision : t.args.revisionNumber = t'.args.revisionNumber) (hlive : t.Live) (hlive' : t'.Live) : t = t' :=
  s.tasks.eq_of_key_eq ht ht' ((reaches_inv hrun).oneEach t ht t' ht' hkey hrevision hlive hlive')

theorem publication_unique_healed : ∃ (s : State Nat) (t : Task), t ∈ s.tasks.rows ∧ t.Live ∧
    ∀ t' ∈ s.tasks.rows, t'.args.key = t.args.key → t'.args.revisionNumber = t.args.revisionNumber → t'.Live →
      t' = t := by
  obtain ⟨s, hrun, hrows, -⟩ := exists_healed
  have hmem : { plainTask with status := .completed, result := some 0 } ∈ s.tasks.rows := by
    rw [hrows]
    exact List.mem_singleton_self _
  have hlive : Task.Live { plainTask with status := .completed, result := some 0 } := .inr (.inr rfl)
  exact ⟨s, _, hmem, hlive, fun t' ht' hkey hrevision hlive' =>
    publication_unique hrun ht' hmem hkey hrevision hlive' hlive⟩

/-- In every run, whatever dies when, the commit that is the result of a completed task, or that an announcement is made
for, has imported the files of the revision as they were when it was made, and the run that imported them had read the
revision as the latest one of its release, with no other one voted on. -/
theorem published_exactly (hrun : Reaches (Step cfg) State.init s) :
    (∀ t ∈ s.tasks.rows, t.status = .completed →
      ∃ r, t.result = some r ∧ Imported s t.args.key t.args.revisionNumber r) ∧
    ∀ a ∈ s.announced, Imported s a.key a.revisionNumber a.publishedRevision := by
  have h := reaches_inv hrun
  refine ⟨fun t ht hcompleted => ?_, fun a ha => (h.announced a ha).imported h⟩
  obtain ⟨r, hr, hpublished⟩ := (h.tasks t ht).result hcompleted
  exact ⟨r, hr, hpublished.imported h⟩

theorem published_exactly_healed : ∃ s : State Nat, s.announced = [⟨plainKey, 1, 0⟩] ∧ Imported s plainKey 1 0 := by
  obtain ⟨s, hrun, -, hannounced⟩ := exists_healed
  refine ⟨s, hannounced, ?_⟩
  exact (published_exactly hrun).2 ⟨plainKey, 1, 0⟩ (hannounced ▸ List.mem_singleton_self _)

end Publish

end TrustedReleases
