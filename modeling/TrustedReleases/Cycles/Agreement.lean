import TrustedReleases.Archive.Agreement
import TrustedReleases.Cycles.System
import TrustedReleases.Lib.Withdrawals

/-!
# The dates of cycles agree with the log

A date of a cycle is set exactly when one event of its kind has not been withdrawn, which then has that date, and no
document shows two of them (`cycle_dates_agree`).  This needs that no request writes a date when an event of the same
kind has been logged since it read, and that the last event of a kind is also the one published last when it is looked
up (`Undisturbed`).
-/

namespace TrustedReleases

open Lib
open ArchiveRecord (Withdraws)

namespace Cycles

/-! ### What is promised -/

/-- The event plans the date of the cycle and has not been withdrawn. -/
def Live (log : List LifecycleEvent) (cycleKey : Str) (field : DateField) (e : LifecycleEvent) : Prop :=
  e ∈ log ∧ Plans cycleKey field e ∧ ¬ ∃ w ∈ log, Withdraws e.id w

/-- The document shows the event, and nothing in it withdraws the event. -/
def ShownLive (log : List LifecycleEvent) (doc : List CleEvent) (cycleKey : Str) (field : DateField)
    (e : LifecycleEvent) : Prop :=
  e ∈ log ∧ Plans cycleKey field e ∧ (∃ shown ∈ doc, shown.id = e.id) ∧
    ¬ ∃ shown ∈ doc, shown.type = .withdrawn e.id

structure DatesAgree (db : Database) : Prop where
  set_iff : ∀ c ∈ db.cycles.rows, ∀ field, (c.getattr field).isSome ↔ ∃! e, Live db.log c.cycleKey field e
  effective : ∀ c ∈ db.cycles.rows, ∀ field e, Live db.log c.cycleKey field e → c.getattr field = some e.effective
  once : ∀ id, db.log.countP (fun w => decide (Withdraws id w)) ≤ 1
  project_document : ∀ releaseKeys projectKey doc,
    document releaseKeys (projectEvents db projectKey) = .ok doc → ∀ c ∈ db.cycles.rows, ∀ field e e',
      ShownLive db.log doc c.cycleKey field e → ShownLive db.log doc c.cycleKey field e' → e = e'
  release_document : ∀ releaseKeys releaseKey cycleKey doc,
    document releaseKeys (releaseEvents db releaseKey cycleKey) = .ok doc → ∀ c ∈ db.cycles.rows, ∀ field e e',
      ShownLive db.log doc c.cycleKey field e → ShownLive db.log doc c.cycleKey field e' → e = e'

/-- The last event of the date has a later instant than those before it. -/
def LastIsLatest (db : Database) (cycleKey : Str) (field : DateField) : Prop :=
  ∀ a ∈ db.log, ∀ b ∈ db.log, Plans cycleKey field a → Plans cycleKey field b →
    (∀ c ∈ db.log, Plans cycleKey field c → c.id ≤ b.id) → a ≠ b → a.published < b.published

/-- Nothing has been logged for the date since its request read the cycle, which had no such date, or looked up the
prior event. -/
def Quiet (db : Database) (cycleKey : Str) : Change → Prop
  | .setDate field _ _ since => ∀ e ∈ db.log.drop since, ¬ Plans cycleKey field e
  | .setLts _ => True

/-- What has to hold at the steps of a request: when it writes, nothing has been logged for the dates that it sets since
it read; and when it looks up a prior event, the last one is the latest. -/
def Undisturbed (s : System) : Event → Prop
  | .advance pid =>
    match s.requests.get pid with
    | none => True
    | some r =>
      match r.next with
      | .flush => s.MayWrite pid → ∀ change ∈ r.pending, Quiet (s.view pid) r.cycle.cycleKey change
      | .replan field _ _ => LastIsLatest (s.view pid) r.cycle.cycleKey field
      | _ => True
  | _ => True

/-- The start of a run: no cycle has a date. -/
structure Fresh (db : Database) : Prop where
  nodup : (db.log.map (·.id)).Nodup
  id_lt : ∀ e ∈ db.log, e.id < db.nextEventId
  target_lt : ∀ w ∈ db.log, ∀ id, Withdraws id w → id < db.nextEventId
  once : ∀ id, db.log.countP (fun w => decide (Withdraws id w)) ≤ 1
  plans : ∀ e ∈ db.log, ∀ cycleKey field, ¬ Plans cycleKey field e
  dates : ∀ c ∈ db.cycles.rows, ∀ field, c.getattr field = none

/-! ### The log -/

def fieldOf : LifecycleEventType → Option DateField
  | .eod => some .eod
  | .eos => some .eos
  | .eol => some .eol
  | _ => none

/-- Events are about dates of cycles. -/
def eventShape : LogShape LifecycleEvent (Str × DateField) where
  id := LifecycleEvent.id
  subject e := (fieldOf e.event).bind fun field => e.cycleKey.map fun cycleKey => (cycleKey, field)
  target e := if e.event = .withdraw then e.targetEventId else none

private theorem subject_eq_some {e : LifecycleEvent} {cycleKey : Str} {field : DateField} :
    eventShape.subject e = some (cycleKey, field) ↔ Plans cycleKey field e := by
  have hfield : ∀ event, fieldOf event = some field ↔ event = field.eventType := by
    intro event
    cases event <;> cases field <;> simp [fieldOf, DateField.eventType]
  simp only [eventShape, Option.bind_eq_some_iff, Option.map_eq_some_iff, Prod.mk.injEq, Plans]
  constructor
  · intro h
    obtain ⟨f, hf, key, hkey, rfl, rfl⟩ := h
    exact ⟨(hfield _).1 hf, hkey⟩
  · intro h
    exact ⟨field, (hfield _).2 h.1, cycleKey, h.2, rfl, rfl⟩

private theorem target_eq_some {e : LifecycleEvent} {id : Nat} : eventShape.target e = some id ↔ Withdraws id e := by
  simp [eventShape, Withdraws]

private theorem stands_iff_live {log : List LifecycleEvent} {cycleKey : Str} {field : DateField} {e : LifecycleEvent} :
    eventShape.Stands log (cycleKey, field) e ↔ Live log cycleKey field e := by
  unfold LogShape.Stands LogShape.Withdrawn Live
  simp only [subject_eq_some, target_eq_some]
  rfl

/-- The event that was logged last for the date, or none if there is no such event. -/
def Prior (log : List LifecycleEvent) (cycleKey : Str) (field : DateField) (id : Option Nat) : Prop :=
  match id with
  | none => ∀ e ∈ log, ¬ Plans cycleKey field e
  | some id => ∃ a, eventShape.IsLast log (cycleKey, field) a ∧ a.id = id

theorem Prior.append {log more : List LifecycleEvent} {cycleKey : Str} {field : DateField} {id : Option Nat}
    (h : Prior log cycleKey field id) (hmore : ∀ e ∈ more, ¬ Plans cycleKey field e) :
    Prior (log ++ more) cycleKey field id := by
  cases id with
  | none =>
    intro e he
    rcases List.mem_append.1 he with he | he
    · exact h e he
    · exact hmore e he
  | some id =>
    obtain ⟨a, ha, hid⟩ := h
    refine ⟨a, ⟨List.mem_append_left _ ha.1, ha.2.1, fun b hb hbk => ?_⟩, hid⟩
    rcases List.mem_append.1 hb with hb | hb
    · exact ha.2.2 b hb hbk
    · exact absurd (subject_eq_some.1 hbk) (hmore b hb)

/-! ### A database whose dates agree -/

structure Sound (db : Database) : Prop where
  settled : eventShape.Settled db.log db.nextEventId
  isSome_iff : ∀ c ∈ db.cycles.rows, ∀ field, (c.getattr field).isSome ↔ ∃ e ∈ db.log, Plans c.cycleKey field e
  effective : ∀ c ∈ db.cycles.rows, ∀ field e, eventShape.Stands db.log (c.cycleKey, field) e →
    c.getattr field = some e.effective
  scope : ∀ c ∈ db.cycles.rows, ∀ field, ∀ e ∈ db.log, Plans c.cycleKey field e →
    e.projectKey = c.projectKey ∧ e.versionKey = none
  withdrawScope : ∀ e ∈ db.log, ∀ cycleKey field, Plans cycleKey field e → ∀ w ∈ db.log, Withdraws e.id w →
    w.projectKey = e.projectKey ∧ w.cycleKey = e.cycleKey ∧ w.versionKey = e.versionKey

theorem Fresh.sound {db : Database} (h : Fresh db) : Sound db where
  settled := by
    refine LogShape.Settled.of_no_subject h.nodup h.id_lt ?_ ?_ ?_
    · intro w hw id hid
      exact h.target_lt w hw id (target_eq_some.1 hid)
    · intro id
      simp only [target_eq_some]
      exact h.once id
    · intro e he
      cases hsubject : eventShape.subject e with
      | none => rfl
      | some k => exact absurd (subject_eq_some.1 hsubject) (h.plans e he k.1 k.2)
  isSome_iff := by
    intro c hc field
    rw [h.dates c hc field]
    simp only [Option.isSome_none, Bool.false_eq_true, false_iff, not_exists, not_and]
    exact fun e he => h.plans e he c.cycleKey field
  effective := fun c _ field e hs => absurd (subject_eq_some.1 hs.2.1) (h.plans e hs.1 c.cycleKey field)
  scope := fun c _ field e he hp => absurd hp (h.plans e he c.cycleKey field)
  withdrawScope := fun e he cycleKey field hp => absurd hp (h.plans e he cycleKey field)

/-! ### Databases that grow -/

/-- The cycle is still there, with every date that it had. -/
def Keeps (c c' : ProjectCycle) : Prop :=
  c'.cycleKey = c.cycleKey ∧ c'.projectKey = c.projectKey ∧ ∀ field, (c.getattr field).isSome → (c'.getattr field).isSome

theorem Keeps.trans {a b c : ProjectCycle} (hab : Keeps a b) (hbc : Keeps b c) : Keeps a c :=
  ⟨hbc.1.trans hab.1, hbc.2.1.trans hab.2.1, fun field h => hbc.2.2 field (hab.2.2 field h)⟩

structure Grows (db db' : Database) : Prop where
  log : db.log <+: db'.log
  cycles : ∀ c ∈ db.cycles.rows, ∃ c' ∈ db'.cycles.rows, Keeps c c'

theorem Grows.refl (db : Database) : Grows db db :=
  ⟨List.prefix_rfl, fun c hc => ⟨c, hc, rfl, rfl, fun _ h => h⟩⟩

theorem Grows.trans {a b c : Database} (hab : Grows a b) (hbc : Grows b c) : Grows a c := by
  refine ⟨hab.log.trans hbc.log, fun row hrow => ?_⟩
  obtain ⟨row', hrow', hkeeps⟩ := hab.cycles row hrow
  obtain ⟨row'', hrow'', hkeeps'⟩ := hbc.cycles row' hrow'
  exact ⟨row'', hrow'', hkeeps.trans hkeeps'⟩

theorem Grows.take {db db' : Database} (h : Grows db db') {n : Nat} (hn : n ≤ db.log.length) :
    db'.log.take n = db.log.take n := by
  obtain ⟨more, hmore⟩ := h.log
  rw [← hmore, List.take_append_of_le_length hn]

/-! ### One change -/

section Write

variable {db : Database} {cycle : ProjectCycle} {now : Int} {field : DateField} {effective : Int} {since : Nat}

/-- The row of the cycle that a request has read. -/
def HasCycle (db : Database) (cycle : ProjectCycle) : Prop := ∃ c ∈ db.cycles.rows, Keeps cycle c

theorem HasCycle.grows {db' : Database} (h : HasCycle db cycle) (hgrows : Grows db db') : HasCycle db' cycle := by
  obtain ⟨c, hc, hkeeps⟩ := h
  obtain ⟨c', hc', hkeeps'⟩ := hgrows.cycles c hc
  exact ⟨c', hc', hkeeps.trans hkeeps'⟩

/-- After an update of the columns of a cycle that is there. -/
private theorem mem_updateCycle {u : ProjectCycle → ProjectCycle} {c : ProjectCycle} (hc : c ∈ db.cycles.rows)
    (hkey : (u c).cycleKey = c.cycleKey) (row : ProjectCycle) :
    row ∈ (db.updateCycle c.cycleKey u).cycles.rows ↔
      row = u c ∨ (row ∈ db.cycles.rows ∧ row.cycleKey ≠ c.cycleKey) := by
  have hget : db.cycles.get c.cycleKey = some c := Table.get_eq_some.2 ⟨hc, rfl⟩
  unfold Database.updateCycle
  rw [hget]
  constructor
  · intro hrow
    have hor := Table.mem_replace hrow
    rwa [hkey] at hor
  · intro hrow
    rcases hrow with rfl | hrow
    · exact Table.mem_replace_self hc hkey.symm
    · exact Table.mem_replace_of_ne hrow.1 (by rw [hkey]; exact hrow.2)

@[simp] theorem log_updateCycle (cycleKey : Str) (update : ProjectCycle → ProjectCycle) :
    (db.updateCycle cycleKey update).log = db.log ∧ (db.updateCycle cycleKey update).nextEventId = db.nextEventId := by
  unfold Database.updateCycle
  split <;> exact ⟨rfl, rfl⟩

/-- The events that a change adds to the log. -/
def newEvents (db : Database) (cycle : ProjectCycle) (now : Int) (field : DateField) (effective : Int) :
    Option Nat → List LifecycleEvent
  | none =>
    [⟨db.nextEventId, cycle.projectKey, some cycle.cycleKey, none, field.eventType, effective, now, none⟩]
  | some id =>
    [⟨db.nextEventId, cycle.projectKey, some cycle.cycleKey, none, .withdraw, now, now, some id⟩,
      ⟨db.nextEventId + 1, cycle.projectKey, some cycle.cycleKey, none, field.eventType, effective, now, none⟩]

private theorem log_write_setDate (priorEventId : Option Nat) :
    (db.write cycle now (.setDate field priorEventId effective since)).log =
      db.log ++ newEvents db cycle now field effective priorEventId := by
  cases priorEventId with
  | none => simp [Database.write, Database.withdraw, Database.addEvent, newEvents]
  | some id => simp [Database.write, Database.withdraw, Database.addEvent, newEvents]

private theorem cycles_write_setDate (priorEventId : Option Nat) :
    (db.write cycle now (.setDate field priorEventId effective since)).cycles =
      (db.updateCycle cycle.cycleKey (·.setattr field effective)).cycles := by
  cases priorEventId with
  | none =>
    simp only [Database.write, Database.withdraw, Database.addEvent, Database.updateCycle]
    split <;> rfl
  | some id =>
    simp only [Database.write, Database.withdraw, Database.addEvent, Database.updateCycle]
    split <;> rfl

private theorem nextEventId_write_setDate (priorEventId : Option Nat) :
    (db.write cycle now (.setDate field priorEventId effective since)).nextEventId =
      db.nextEventId + (newEvents db cycle now field effective priorEventId).length := by
  cases priorEventId with
  | none => simp [Database.write, Database.withdraw, Database.addEvent, newEvents]
  | some id => simp [Database.write, Database.withdraw, Database.addEvent, newEvents]

private theorem eventType_ne_withdraw (field : DateField) : field.eventType ≠ .withdraw := by
  cases field <;> exact fun h => by cases h

/-- No event of another date comes with a change. -/
private theorem not_plans_newEvents {priorEventId : Option Nat} {cycleKey : Str} {g : DateField} (hg : g ≠ field) :
    ∀ e ∈ newEvents db cycle now field effective priorEventId, ¬ Plans cycleKey g e := by
  have htype : g.eventType ≠ field.eventType := by
    intro h
    cases g <;> cases field <;> first | exact hg rfl | cases h
  have hwithdraw := eventType_ne_withdraw g
  intro e he hp
  cases priorEventId with
  | none =>
    rw [List.mem_singleton.1 he] at hp
    exact htype hp.1.symm
  | some id =>
    simp only [newEvents, List.mem_cons, List.not_mem_nil, or_false] at he
    rcases he with rfl | rfl
    · exact hwithdraw hp.1.symm
    · exact htype hp.1.symm

theorem Grows.setDate (hcycle : HasCycle db cycle) (priorEventId : Option Nat) :
    Grows db (db.write cycle now (.setDate field priorEventId effective since)) := by
  obtain ⟨c, hc, hkeeps⟩ := hcycle
  refine ⟨?_, fun row hrow => ?_⟩
  · rw [log_write_setDate]
    exact List.prefix_append _ _
  · rw [cycles_write_setDate, ← hkeeps.1]
    have hmem := mem_updateCycle (u := (·.setattr field effective)) hc (ProjectCycle.cycleKey_setattr c field effective)
    by_cases hkey : row.cycleKey = c.cycleKey
    · obtain rfl := db.cycles.eq_of_key_eq hrow hc hkey
      refine ⟨_, (hmem _).2 (.inl rfl), by simp, by simp, fun g hg => ?_⟩
      rw [ProjectCycle.getattr_setattr]
      split
      · rfl
      · exact hg
    · exact ⟨row, (hmem row).2 (.inr ⟨hrow, hkey⟩), rfl, rfl, fun _ h => h⟩

theorem Grows.setLts (hcycle : HasCycle db cycle) (lts : Bool) : Grows db (db.write cycle now (.setLts lts)) := by
  obtain ⟨c, hc, hkeeps⟩ := hcycle
  simp only [Database.write]
  refine ⟨by rw [(log_updateCycle _ _).1], fun row hrow => ?_⟩
  rw [← hkeeps.1]
  have hmem := mem_updateCycle (u := fun row => { row with lts := lts }) hc rfl
  by_cases hkey : row.cycleKey = c.cycleKey
  · obtain rfl := db.cycles.eq_of_key_eq hrow hc hkey
    refine ⟨_, (hmem _).2 (.inl rfl), rfl, rfl, fun g hg => ?_⟩
    cases g <;> exact hg
  · exact ⟨row, (hmem row).2 (.inr ⟨hrow, hkey⟩), rfl, rfl, fun _ h => h⟩

/-- The log stays settled, and what stands for the date is the new event. -/
private theorem Sound.settled_setDate (h : Sound db) {priorEventId : Option Nat}
    (hprior : Prior db.log cycle.cycleKey field priorEventId) :
    eventShape.Settled (db.log ++ newEvents db cycle now field effective priorEventId)
      (db.nextEventId + (newEvents db cycle now field effective priorEventId).length) := by
  have hsubject : ∀ id e, e = (⟨id, cycle.projectKey, some cycle.cycleKey, none, field.eventType, effective, now, none⟩ :
      LifecycleEvent) → eventShape.subject e = some (cycle.cycleKey, field) := by
    intro id e he
    rw [he, subject_eq_some]
    exact ⟨rfl, rfl⟩
  have htarget : eventShape.target ⟨db.nextEventId, cycle.projectKey, some cycle.cycleKey, none, field.eventType,
      effective, now, none⟩ = none := by
    simp [eventShape]
  cases priorEventId with
  | none =>
    refine h.settled.append_first rfl (hsubject _ _ rfl) htarget fun b hb hsub => ?_
    exact hprior b hb (subject_eq_some.1 hsub)
  | some id =>
    obtain ⟨a, ha, hid⟩ := hprior
    have hstands := (h.settled.stands_iff _ a).2 ha
    have happend : newEvents db cycle now field effective (some id) =
        [⟨db.nextEventId, cycle.projectKey, some cycle.cycleKey, none, .withdraw, now, now, some id⟩] ++
          [⟨db.nextEventId + 1, cycle.projectKey, some cycle.cycleKey, none, field.eventType, effective, now, none⟩] := rfl
    rw [happend, ← List.append_assoc]
    refine h.settled.append_replacement hstands rfl rfl ?_ rfl (hsubject _ _ rfl) ?_
    · rw [← hid]
      rfl
    · simp [eventShape]

/-- The new event of a change. -/
private theorem plans_newEvents {priorEventId : Option Nat} :
    ∃ e ∈ newEvents db cycle now field effective priorEventId, Plans cycle.cycleKey field e ∧
      e.effective = effective ∧ db.nextEventId ≤ e.id ∧ ∀ b ∈ newEvents db cycle now field effective priorEventId, b ≠ e →
        b.event = .withdraw ∧ ∀ id, Withdraws id b → priorEventId = some id := by
  cases priorEventId with
  | none =>
    refine ⟨_, List.mem_singleton_self _, ⟨rfl, rfl⟩, rfl, le_rfl, fun b hb hne => ?_⟩
    exact absurd (List.mem_singleton.1 hb) hne
  | some id =>
    refine ⟨_, List.mem_cons_of_mem _ (List.mem_singleton_self _), ⟨rfl, rfl⟩, rfl, Nat.le_succ _, fun b hb hne => ?_⟩
    simp only [newEvents, List.mem_cons, List.not_mem_nil, or_false] at hb
    rcases hb with rfl | rfl
    · exact ⟨rfl, fun i hi => hi.2⟩
    · exact absurd rfl hne

private theorem scope_newEvents {priorEventId : Option Nat} :
    ∀ e ∈ newEvents db cycle now field effective priorEventId,
      e.projectKey = cycle.projectKey ∧ e.cycleKey = some cycle.cycleKey ∧ e.versionKey = none := by
  intro e he
  cases priorEventId with
  | none =>
    rw [List.mem_singleton.1 he]
    exact ⟨rfl, rfl, rfl⟩
  | some id =>
    simp only [newEvents, List.mem_cons, List.not_mem_nil, or_false] at he
    rcases he with rfl | rfl
    · exact ⟨rfl, rfl, rfl⟩
    · exact ⟨rfl, rfl, rfl⟩

/-- A date is set, and the last event of the date withdrawn if there is one. -/
theorem Sound.setDate (h : Sound db) (hcycle : HasCycle db cycle) {priorEventId : Option Nat}
    (hprior : Prior db.log cycle.cycleKey field priorEventId) :
    Sound (db.write cycle now (.setDate field priorEventId effective since)) := by
  obtain ⟨c, hc, hkey, hproject, -⟩ := hcycle
  have hmem := mem_updateCycle (u := (·.setattr field effective)) hc (ProjectCycle.cycleKey_setattr c field effective)
  have hsettled := @Sound.settled_setDate db cycle now field effective h priorEventId hprior
  have hlog := @log_write_setDate db cycle now field effective since priorEventId
  have hrows := @cycles_write_setDate db cycle now field effective since priorEventId
  have hscope := @scope_newEvents db cycle now field effective priorEventId
  obtain ⟨new, hnew, hplans, heffective, hid, hother⟩ := @plans_newEvents db cycle now field effective
    priorEventId
  rw [hkey] at hmem
  have hold : ∀ key g, (key, g) ≠ (cycle.cycleKey, field) →
      ∀ e ∈ newEvents db cycle now field effective priorEventId, ¬ Plans key g e := by
    intro key g hne e he hp
    have hcycleKey := hp.2.symm.trans (hscope e he).2.1
    have hg : g = field := by
      by_contra hg
      exact not_plans_newEvents hg e he hp
    exact hne (by rw [Option.some.inj hcycleKey, hg])
  have honly : ∀ key g, ∀ e ∈ newEvents db cycle now field effective priorEventId, Plans key g e → e = new := by
    intro key g e he hp
    by_contra hne
    rw [Plans, (hother e he hne).1] at hp
    exact eventType_ne_withdraw g hp.1.symm
  have hstands : ∀ e, eventShape.Stands (db.log ++ newEvents db cycle now field effective priorEventId)
      (cycle.cycleKey, field) e → e = new := by
    intro e hs
    have hlast := (hsettled.stands_iff _ e).1 hs
    rcases List.mem_append.1 hs.1 with he | he
    · have hlt := h.settled.id_lt e he
      have hle := hlast.2.2 new (List.mem_append_right _ hnew) (subject_eq_some.2 hplans)
      have hnewid : eventShape.id new = new.id := rfl
      omega
    · exact honly _ _ e he (subject_eq_some.1 hs.2.1)
  have hnewstands : eventShape.Stands (db.log ++ newEvents db cycle now field effective priorEventId)
      (cycle.cycleKey, field) new := by
    obtain ⟨e, he, -⟩ := hsettled.existsUnique_stands.2
      ⟨new, List.mem_append_right _ hnew, subject_eq_some.2 hplans⟩
    rw [← hstands e he]
    exact he
  have hrow : ∀ row ∈ (db.write cycle now (.setDate field priorEventId effective since)).cycles.rows, ∀ g,
      (row.cycleKey, g) ≠ (cycle.cycleKey, field) →
        ∃ row' ∈ db.cycles.rows, row'.cycleKey = row.cycleKey ∧ row'.getattr g = row.getattr g := by
    intro row hrow g hne
    rw [hrows] at hrow
    rcases (hmem row).1 hrow with rfl | hrow
    · refine ⟨c, hc, by simp, ?_⟩
      rw [ProjectCycle.getattr_setattr, if_neg]
      intro hg
      simp [hg, hkey] at hne
    · exact ⟨row, hrow.1, rfl, rfl⟩
  have hsame : ∀ row ∈ (db.write cycle now (.setDate field priorEventId effective since)).cycles.rows, ∀ g,
      (row.cycleKey, g) = (cycle.cycleKey, field) → row.getattr g = some effective := by
    intro row hrow g heq
    rw [Prod.mk.injEq] at heq
    rw [hrows] at hrow
    rcases (hmem row).1 hrow with rfl | hrow
    · rw [ProjectCycle.getattr_setattr, if_pos heq.2]
    · exact absurd heq.1 hrow.2
  refine ⟨by rw [hlog, nextEventId_write_setDate]; exact hsettled, ?_, ?_, ?_, ?_⟩
  · intro row hmemrow g
    rw [hlog]
    by_cases heq : (row.cycleKey, g) = (cycle.cycleKey, field)
    · rw [hsame row hmemrow g heq]
      rw [Prod.mk.injEq] at heq
      rw [heq.1, heq.2]
      simp only [Option.isSome_some, true_iff]
      exact ⟨new, List.mem_append_right _ hnew, hplans⟩
    · obtain ⟨row', hrow', hkey', hget⟩ := hrow row hmemrow g heq
      rw [← hget, h.isSome_iff row' hrow', hkey']
      constructor
      · intro hsome
        obtain ⟨e, he, hp⟩ := hsome
        exact ⟨e, List.mem_append_left _ he, hp⟩
      · intro hsome
        obtain ⟨e, he, hp⟩ := hsome
        rcases List.mem_append.1 he with he | he
        · exact ⟨e, he, hp⟩
        · exact absurd hp (hold _ _ heq e he)
  · intro row hmemrow g e hs
    rw [hlog] at hs
    by_cases heq : (row.cycleKey, g) = (cycle.cycleKey, field)
    · rw [hsame row hmemrow g heq]
      rw [heq] at hs
      rw [hstands e hs, heffective]
    · obtain ⟨row', hrow', hkey', hget⟩ := hrow row hmemrow g heq
      rw [← hget]
      refine h.effective row' hrow' g e ⟨?_, by rw [hkey']; exact hs.2.1, ?_⟩
      · rcases List.mem_append.1 hs.1 with he | he
        · exact he
        · exact absurd (subject_eq_some.1 hs.2.1) (hold _ _ heq e he)
      · intro hw
        exact hs.2.2 (LogShape.withdrawn_append.2 (.inl hw))
  · intro row hmemrow g e he hp
    rw [hlog] at he
    rw [hrows] at hmemrow
    rcases List.mem_append.1 he with he | he
    · rcases (hmem row).1 hmemrow with rfl | hmemrow
      · rw [ProjectCycle.cycleKey_setattr] at hp
        rw [ProjectCycle.projectKey_setattr]
        exact h.scope c hc g e he hp
      · exact h.scope row hmemrow.1 g e he hp
    · have hthis := hscope e he
      refine ⟨?_, hthis.2.2⟩
      rcases (hmem row).1 hmemrow with rfl | hmemrow
      · rw [hthis.1, ProjectCycle.projectKey_setattr, hproject]
      · have hcycleKey := hp.2.symm.trans hthis.2.1
        exact absurd (Option.some.inj hcycleKey) hmemrow.2
  · intro e he key g hp w hw hwithdraws
    rw [hlog] at he hw
    have hin : e ∈ db.log := by
      rcases List.mem_append.1 he with he | he
      · exact he
      · rw [honly key g e he hp] at hwithdraws
        exact absurd ⟨w, hw, target_eq_some.2 hwithdraws⟩ hnewstands.2.2
    rcases List.mem_append.1 hw with hw | hw
    · exact h.withdrawScope e hin key g hp w hw hwithdraws
    · have hne : w ≠ new := by
        intro hwnew
        rw [hwnew, Withdraws, hplans.1] at hwithdraws
        exact eventType_ne_withdraw field hwithdraws.1
      rw [(hother w hw hne).2 e.id hwithdraws] at hprior
      obtain ⟨a, ha, haid⟩ := hprior
      obtain rfl := h.settled.eq_of_id ha.1 hin haid
      have hthis := subject_eq_some.1 ha.2.1
      have hascope := h.scope c hc field a hin (by rw [hkey]; exact hthis)
      have hwscope := hscope w hw
      rw [hascope.1, hascope.2, hthis.2, hwscope.1, hproject]
      exact ⟨rfl, hwscope.2⟩

theorem Sound.setLts (h : Sound db) (hcycle : HasCycle db cycle) (lts : Bool) :
    Sound (db.write cycle now (.setLts lts)) := by
  obtain ⟨c, hc, hkey, -, -⟩ := hcycle
  have hmem := mem_updateCycle (u := fun row => { row with lts := lts }) hc rfl
  have hrow : ∀ row ∈ (db.write cycle now (.setLts lts)).cycles.rows, ∃ row' ∈ db.cycles.rows,
      row'.cycleKey = row.cycleKey ∧ row'.projectKey = row.projectKey ∧ ∀ g, row'.getattr g = row.getattr g := by
    intro row hrow
    simp only [Database.write] at hrow
    rw [← hkey] at hrow
    rcases (hmem row).1 hrow with rfl | hrow
    · refine ⟨c, hc, rfl, rfl, fun g => ?_⟩
      cases g <;> rfl
    · exact ⟨row, hrow.1, rfl, rfl, fun _ => rfl⟩
  have hsame := @log_updateCycle db cycle.cycleKey fun row => { row with lts := lts }
  refine ⟨?_, ?_, ?_, ?_, ?_⟩
  · simp only [Database.write]
    rw [hsame.1, hsame.2]
    exact h.settled
  · intro row hmemrow g
    obtain ⟨row', hrow', hkey', -, hget⟩ := hrow row hmemrow
    simp only [Database.write]
    rw [hsame.1, ← hget, ← hkey']
    exact h.isSome_iff row' hrow' g
  · intro row hmemrow g e hs
    obtain ⟨row', hrow', hkey', -, hget⟩ := hrow row hmemrow
    simp only [Database.write] at hs
    rw [hsame.1, ← hkey'] at hs
    rw [← hget]
    exact h.effective row' hrow' g e hs
  · intro row hmemrow g e he hp
    obtain ⟨row', hrow', hkey', hproject', -⟩ := hrow row hmemrow
    simp only [Database.write] at he
    rw [hsame.1] at he
    rw [← hkey'] at hp
    rw [← hproject']
    exact h.scope row' hrow' g e he hp
  · simp only [Database.write]
    rw [hsame.1]
    exact h.withdrawScope

end Write

/-! ### Requests -/

/-- What the session has read for a change, and the log as long as it was then. -/
def ChangeOk (db : Database) (cycleKey : Str) : Change → Prop
  | .setDate field priorEventId _ since =>
    since ≤ db.log.length ∧ Prior (db.log.take since) cycleKey field priorEventId
  | .setLts _ => True

theorem ChangeOk.grows {db db' : Database} {cycleKey : Str} {change : Change} (h : ChangeOk db cycleKey change)
    (hgrows : Grows db db') : ChangeOk db' cycleKey change := by
  cases change with
  | setDate field priorEventId effective since =>
    refine ⟨h.1.trans hgrows.log.length_le, ?_⟩
    rw [hgrows.take h.1]
    exact h.2
  | setLts lts => trivial

def Change.field : Change → Option DateField
  | .setDate field _ _ _ => some field
  | .setLts _ => none

def Stage.rest : Stage → List DateField
  | .dates rest => rest
  | _ => []

structure RequestOk (db : Database) (r : EditRequest) : Prop where
  cycle : HasCycle db r.cycle
  since : r.since ≤ db.log.length
  unset : ∀ field, r.cycle.getattr field = none → ∀ e ∈ db.log.take r.since, ¬ Plans r.cycle.cycleKey field e
  pending : ∀ change ∈ r.pending, ChangeOk db r.cycle.cycleKey change
  fields : (r.pending.filterMap Change.field ++ r.stage.rest).Nodup

theorem RequestOk.grows {db db' : Database} {r : EditRequest} (h : RequestOk db r) (hgrows : Grows db db') :
    RequestOk db' r where
  cycle := h.cycle.grows hgrows
  since := h.since.trans hgrows.log.length_le
  unset := by
    rw [hgrows.take h.since]
    exact h.unset
  pending := fun change hchange => (h.pending change hchange).grows hgrows
  fields := h.fields

/-- One pending change is written. -/
theorem Sound.write {db : Database} {cycle : ProjectCycle} {now : Int} {change : Change} (h : Sound db)
    (hcycle : HasCycle db cycle) (hok : ChangeOk db cycle.cycleKey change)
    (hquiet : Quiet db cycle.cycleKey change) :
    Sound (db.write cycle now change) ∧ Grows db (db.write cycle now change) := by
  cases change with
  | setDate field priorEventId effective since =>
    have hprior : Prior db.log cycle.cycleKey field priorEventId := by
      rw [← List.take_append_drop since db.log]
      exact hok.2.append hquiet
    exact ⟨h.setDate hcycle hprior, Grows.setDate hcycle priorEventId⟩
  | setLts lts => exact ⟨h.setLts hcycle lts, Grows.setLts hcycle lts⟩

/-- A change of another date is still quiet. -/
theorem Quiet.write {db : Database} {cycle : ProjectCycle} {now : Int} {change other : Change}
    (h : Quiet db cycle.cycleKey other) (hok : ChangeOk db cycle.cycleKey other)
    (hne : ∀ field, other.field = some field → change.field ≠ some field) :
    Quiet (db.write cycle now change) cycle.cycleKey other := by
  cases other with
  | setLts lts => trivial
  | setDate g otherPrior otherEffective otherSince =>
    have hne := hne g rfl
    show ∀ e ∈ List.drop otherSince _, ¬ Plans cycle.cycleKey g e
    cases change with
    | setLts lts =>
      simp only [Database.write]
      rw [(log_updateCycle _ _).1]
      exact h
    | setDate field priorEventId effective since =>
      rw [log_write_setDate, List.drop_append_of_le_length hok.1]
      intro e he
      rcases List.mem_append.1 he with he | he
      · exact h e he
      · refine not_plans_newEvents ?_ e he
        intro heq
        exact hne (by rw [heq]; rfl)

/-- All pending changes are written. -/
private theorem Sound.writeAll {db : Database} {cycle : ProjectCycle} {now : Int} {changes : List Change} (h : Sound db)
    (hcycle : HasCycle db cycle) (hok : ∀ change ∈ changes, ChangeOk db cycle.cycleKey change)
    (hquiet : ∀ change ∈ changes, Quiet db cycle.cycleKey change)
    (hfields : (changes.filterMap Change.field).Nodup) :
    Sound (changes.foldl (fun db change => db.write cycle now change) db) ∧
      Grows db (changes.foldl (fun db change => db.write cycle now change) db) := by
  induction changes generalizing db with
  | nil => exact ⟨h, .refl db⟩
  | cons change changes ih =>
    rw [List.forall_mem_cons] at hok hquiet
    obtain ⟨hsound, hgrows⟩ := @Sound.write db cycle now change h hcycle hok.1 hquiet.1
    have hne : ∀ other ∈ changes, ∀ field, other.field = some field → change.field ≠ some field := by
      intro other hother field hfield heq
      rw [List.filterMap_cons_some heq, List.nodup_cons] at hfields
      exact hfields.1 (List.mem_filterMap.2 ⟨other, hother, hfield⟩)
    have hrest : (changes.filterMap Change.field).Nodup := by
      cases hfield : change.field with
      | none => rwa [List.filterMap_cons_none hfield] at hfields
      | some field =>
        rw [List.filterMap_cons_some hfield, List.nodup_cons] at hfields
        exact hfields.2
    obtain ⟨hsound', hgrows'⟩ := ih hsound (hcycle.grows hgrows)
      (fun other hother => (hok.2 other hother).grows hgrows)
      (fun other hother => (hquiet.2 other hother).write (hok.2 other hother) (hne other hother)) hrest
    exact ⟨hsound', hgrows.trans hgrows'⟩

/-! ### The system -/

structure Invariant (s : System) : Prop where
  db : Sound s.db
  txn : ∀ pid copy, s.txn = some (pid, copy) → Sound copy ∧ Grows s.db copy ∧ (s.requests.get pid).isSome
  requests : ∀ pid r, s.requests.get pid = some r → RequestOk (s.view pid) r

section

variable {s : System} {pid : Nat} {r : EditRequest}

theorem Invariant.view (h : Invariant s) (pid : Nat) : Sound (s.view pid) ∧ Grows s.db (s.view pid) := by
  unfold System.view
  split
  · rename_i owner copy htxn
    split
    · exact ⟨(h.txn owner copy htxn).1, (h.txn owner copy htxn).2.1⟩
    · exact ⟨h.db, .refl s.db⟩
  · exact ⟨h.db, .refl s.db⟩

/-- A request that goes on without writing. -/
theorem Invariant.set (h : Invariant s) {r' : EditRequest}
    (hok : RequestOk (s.view pid) r') : Invariant { s with requests := s.requests.set pid r' } where
  db := h.db
  txn := by
    intro owner copy htxn
    obtain ⟨hsound, hgrows, hsome⟩ := h.txn owner copy htxn
    refine ⟨hsound, hgrows, ?_⟩
    simp only [Dict.get_set]
    split
    · rfl
    · exact hsome
  requests := by
    intro other r hother
    simp only [Dict.get_set] at hother
    split at hother
    · rename_i heq
      obtain rfl := Option.some.inj hother
      rw [heq]
      exact hok
    · exact h.requests other r hother

/-- The others see the same, when the request that has the lock ends without a commit. -/
theorem Invariant.abandon (h : Invariant s) (pid : Nat) : Invariant (s.abandon pid) := by
  refine ⟨h.db, ?_, ?_⟩
  · intro owner copy htxn
    obtain ⟨htxn, hne⟩ := Option.filter_eq_some_iff.1 htxn
    obtain ⟨hsound, hgrows, hsome⟩ := h.txn owner copy htxn
    refine ⟨hsound, hgrows, ?_⟩
    have hne := of_decide_eq_true hne
    simp only [System.abandon, Dict.get_pop]
    rw [if_neg hne]
    exact hsome
  · intro other r hother
    simp only [System.abandon, Dict.get_pop] at hother
    split at hother
    · cases hother
    · rename_i hne
      have hview : (s.abandon pid).view other = s.view other := by
        unfold System.view System.abandon
        cases htxn : s.txn with
        | none => rfl
        | some txn =>
          by_cases howner : txn.1 = pid
          · have hother' : ¬ txn.1 = other := fun heq => hne (heq.symm.trans howner)
            simp [Option.filter, howner, Ne.symm hne]
          · simp [Option.filter, howner]
      rw [hview]
      exact h.requests other r hother

private theorem next_keep {rest : List DateField} (h : r.next = .keep rest) :
    ∃ field, r.stage = .dates (field :: rest) := by
  unfold EditRequest.next at h
  split at h
  · cases h
  · rename_i field rest' hstage
    split at h
    · cases h
      exact ⟨field, hstage⟩
    · split at h
      · cases h
      · split_ifs at h
  · cases h
  · split_ifs at h

private theorem next_plan {field : DateField} {date : Int} {rest : List DateField}
    (h : r.next = .plan field date rest) :
    r.stage = .dates (field :: rest) ∧ r.cycle.getattr field = none := by
  unfold EditRequest.next at h
  split at h
  · cases h
  · rename_i field' rest' hstage
    split at h
    · cases h
    · split at h
      · cases h
      · split_ifs at h with hnone
        cases h
        exact ⟨hstage, hnone⟩
  · cases h
  · split_ifs at h

private theorem next_replan {field : DateField} {date : Int} {rest : List DateField}
    (h : r.next = .replan field date rest) :
    r.stage = .dates (field :: rest) ∧ (r.cycle.getattr field).isSome ∧ r.pending = [] := by
  unfold EditRequest.next at h
  split at h
  · cases h
  · rename_i field' rest' hstage
    split at h
    · cases h
    · split at h
      · cases h
      · split_ifs at h with hnone hempty
        cases h
        exact ⟨hstage, Option.isSome_iff_ne_none.2 hnone, List.isEmpty_iff.1 hempty⟩
  · cases h
  · split_ifs at h

/-- The event that is looked up is the last one. -/
theorem Sound.priorEventId {db : Database} {cycle : ProjectCycle} {field : DateField} (h : Sound db)
    (hcycle : HasCycle db cycle) (hsome : (cycle.getattr field).isSome)
    (hlatest : LastIsLatest db cycle.cycleKey field) :
    Prior db.log cycle.cycleKey field (db.priorEventId cycle.cycleKey field) := by
  obtain ⟨c, hc, hkeeps⟩ := hcycle
  have hplans := (h.isSome_iff c hc field).1 (hkeeps.2.2 field hsome)
  rw [hkeeps.1] at hplans
  obtain ⟨e, he, hp⟩ := hplans
  have hlast : ∃ a, eventShape.IsLast db.log (cycle.cycleKey, field) a :=
    LogShape.exists_isLast ⟨e, he, subject_eq_some.2 hp⟩
  obtain ⟨a, ha⟩ := hlast
  have hap := subject_eq_some.1 ha.2.1
  have hprior : latestBy LifecycleEvent.published (db.log.filter fun e => decide (Plans cycle.cycleKey field e)) =
      some a := by
    refine latestBy_eq (List.mem_filter.2 ⟨ha.1, decide_eq_true hap⟩) fun b hb hne => ?_
    obtain ⟨hb, hbp⟩ := List.mem_filter.1 hb
    refine hlatest b hb a ha.1 (of_decide_eq_true hbp) hap (fun d hd hdp => ?_) hne
    exact ha.2.2 d hd (subject_eq_some.2 hdp)
  unfold Database.priorEventId
  rw [hprior]
  exact ⟨a, ha, rfl⟩

/-- The pending changes of the request that may write are written to its copy. -/
theorem Invariant.flush (h : Invariant s) (hr : s.requests.get pid = some r) (hmay : s.MayWrite pid)
    (hquiet : ∀ change ∈ r.pending, Quiet (s.view pid) r.cycle.cycleKey change) :
    Invariant { s with
      txn := some (pid, r.pending.foldl (fun db change => db.write r.cycle r.now change) (s.view pid))
      requests := s.requests.set pid { r with pending := [] } } := by
  have hok := h.requests pid r hr
  obtain ⟨hsound, hgrows⟩ := @Sound.writeAll (s.view pid) r.cycle r.now r.pending (h.view pid).1 hok.cycle hok.pending
    hquiet (List.Nodup.of_append_left hok.fields)
  refine ⟨h.db, ?_, ?_⟩
  · intro owner copy htxn
    rw [Option.some.injEq, Prod.mk.injEq] at htxn
    rw [← htxn.1, ← htxn.2]
    exact ⟨hsound, (h.view pid).2.trans hgrows, by simp⟩
  · intro other r' hother
    simp only [Dict.get_set] at hother
    unfold System.view
    split at hother
    · rename_i heq
      obtain rfl := Option.some.inj hother
      have hnew := hok.grows hgrows
      simp only [heq, if_true]
      exact ⟨hnew.cycle, hnew.since, hnew.unset, fun _ hmem => absurd hmem List.not_mem_nil,
        List.Nodup.of_append_right hok.fields⟩
    · rename_i hne
      have hold := h.requests other r' hother
      have hview : s.view other = s.db := by
        unfold System.view
        split
        · rename_i owner copy htxn
          rw [if_neg]
          intro heq
          exact hne (heq.symm.trans (hmay _ htxn))
        · rfl
      rw [hview] at hold
      simp only [if_neg (Ne.symm hne)]
      exact hold

/-- What the request has written becomes visible to all. -/
theorem Invariant.commit (h : Invariant s) (hmay : s.MayWrite pid) : Invariant ⟨s.view pid, none, s.requests.pop pid⟩ := by
  obtain ⟨hsound, hgrows⟩ := h.view pid
  refine ⟨hsound, fun _ _ htxn => (by cases htxn), ?_⟩
  intro other r' hother
  simp only [Dict.get_pop] at hother
  split at hother
  · cases hother
  · rename_i hne
    have hold := h.requests other r' hother
    have hview : s.view other = s.db := by
      unfold System.view
      split
      · rename_i owner copy htxn
        rw [if_neg]
        intro heq
        exact hne (heq.symm.trans (hmay _ htxn))
      · rfl
    rw [hview] at hold
    exact hold.grows hgrows

theorem Invariant.advance (h : Invariant s) (hr : s.requests.get pid = some r)
    (hundisturbed : Undisturbed s (.advance pid)) : Invariant (s.advance pid r) := by
  have hok := h.requests pid r hr
  simp only [Undisturbed, hr] at hundisturbed
  unfold System.advance
  split
  · -- the date stays as it is
    rename_i rest hnext
    obtain ⟨field, hstage⟩ := next_keep hnext
    have hfields := hok.fields
    rw [hstage] at hfields
    have hsub : (r.pending.filterMap Change.field ++ rest).Sublist (r.pending.filterMap Change.field ++ (field :: rest)) :=
      List.Sublist.append_left (List.sublist_cons_self field rest) _
    exact h.set ⟨hok.cycle, hok.since, hok.unset, hok.pending, hfields.sublist hsub⟩
  · exact h.abandon pid
  · -- the cycle had no such date
    rename_i field date rest hnext
    obtain ⟨hstage, hnone⟩ := next_plan hnext
    have hfields := hok.fields
    rw [hstage] at hfields
    refine h.set ⟨hok.cycle, hok.since, hok.unset, fun change hchange => ?_, ?_⟩
    · rcases List.mem_append.1 hchange with hchange | hchange
      · exact hok.pending change hchange
      · rw [List.mem_singleton.1 hchange]
        exact ⟨hok.since, hok.unset field hnone⟩
    · rw [List.filterMap_append, List.append_assoc]
      exact hfields
  · -- nothing is pending, and the prior event is looked up
    rename_i field date rest hnext
    obtain ⟨hstage, hsome, hpending⟩ := next_replan hnext
    have hfields := hok.fields
    rw [hstage, hpending] at hfields
    refine h.set ⟨hok.cycle, hok.since, hok.unset, fun change hchange => ?_, hfields⟩
    rw [List.mem_singleton.1 hchange]
    refine ⟨le_rfl, ?_⟩
    rw [List.take_length]
    rw [hnext] at hundisturbed
    exact (h.view pid).1.priorEventId hok.cycle hsome hundisturbed
  · -- the last column
    have hfields := List.Nodup.of_append_left hok.fields
    refine h.set ⟨hok.cycle, hok.since, hok.unset, fun change hchange => ?_, ?_⟩
    · rcases List.mem_append.1 hchange with hchange | hchange
      · exact hok.pending change hchange
      · split at hchange
        · rw [List.mem_singleton.1 hchange]
          trivial
        · cases hchange
    · by_cases hlts : r.cycle.lts = r.form.lts
      · simpa [hlts, Stage.rest] using hfields
      · have hnone : [Change.setLts r.form.lts].filterMap Change.field = [] := rfl
        simpa [hlts, Stage.rest, hnone] using hfields
  · rename_i hnext
    split
    · rename_i hmay
      rw [hnext] at hundisturbed
      exact h.flush hr hmay (hundisturbed hmay)
    · exact h
  · split
    · rename_i hmay
      exact h.commit hmay
    · exact h

private theorem readCycle_ok {db : Database} {committeeKey : Str} {form : EditCycleDatesForm} {cycle : ProjectCycle}
    (h : db.readCycle committeeKey form = .ok cycle) : cycle ∈ db.cycles.rows := by
  unfold Database.readCycle at h
  obtain ⟨-, -, h⟩ := bind_eq_ok h
  obtain ⟨found, hfound, h⟩ := demand_bind_eq_ok.1 h
  obtain ⟨-, h⟩ := raiseIf_bind_eq_ok.1 h
  obtain rfl := Except.ok.inj h
  exact (Table.get_eq_some.1 hfound).1

theorem Invariant.step (h : Invariant s) (e : Event) (hundisturbed : Undisturbed s e) : Invariant (step s e) := by
  cases e with
  | begin pid committeeKey form now =>
    simp only [Cycles.step]
    split
    · exact h
    · rename_i hfree
      split
      · exact h
      · rename_i cycle hread
        have hcycle := readCycle_ok hread
        have hview : s.view pid = s.db := by
          unfold System.view
          split
          · rename_i owner copy htxn
            rw [if_neg]
            intro heq
            have hsome := (h.txn owner copy htxn).2.2
            rw [heq, hfree] at hsome
            cases hsome
          · rfl
        refine h.set ?_
        rw [hview]
        refine ⟨⟨cycle, hcycle, rfl, rfl, fun _ hsome => hsome⟩, le_rfl, fun field hnone e he hp => ?_,
          fun _ hmem => absurd hmem List.not_mem_nil, (by decide : dateFields.Nodup)⟩
        rw [List.take_length] at he
        have hsome := (h.db.isSome_iff cycle hcycle field).2 ⟨e, he, hp⟩
        rw [hnone] at hsome
        cases hsome
  | advance pid =>
    simp only [Cycles.step]
    split
    · exact h
    · rename_i r hr
      exact h.advance hr hundisturbed
  | abandon pid => exact h.abandon pid

theorem Invariant.init {db : Database} (h : Fresh db) : Invariant (System.init db) :=
  ⟨h.sound, fun _ _ htxn => (by cases htxn), fun _ _ hr => (by cases hr)⟩

end

/-! ### Documents -/

private theorem toCleEvent_ok {releaseKeys : List Str} {e : LifecycleEvent} {shown : CleEvent}
    (h : toCleEvent releaseKeys e = .ok shown) :
    shown.id = e.id ∧ ∀ id, Withdraws id e → shown.type = .withdrawn id := by
  unfold toCleEvent at h
  split at h <;> rename_i hevent <;> obtain ⟨value, hvalue, h⟩ := bind_eq_ok h <;> obtain rfl := Except.ok.inj h
  case h_6 =>
    refine ⟨rfl, fun id hw => ?_⟩
    rw [hw.2] at hvalue
    rw [← Except.ok.inj hvalue]
  all_goals
    refine ⟨rfl, fun id hw => ?_⟩
    rw [hw.1] at hevent
    cases hevent

/-- A document shows its events, and nothing else. -/
private theorem document_ok {releaseKeys : List Str} {events : List LifecycleEvent} {doc : List CleEvent}
    (h : document releaseKeys events = .ok doc) :
    (∀ e ∈ events, ∃ shown ∈ doc, toCleEvent releaseKeys e = .ok shown) ∧
      ∀ shown ∈ doc, ∃ e ∈ events, toCleEvent releaseKeys e = .ok shown := by
  unfold document at h
  obtain ⟨cleEvents, hmap, h⟩ := bind_eq_ok h
  obtain rfl := Except.ok.inj h
  simp only [mem_orderBy]
  exact exists_of_forall₂ (mapM_eq_ok.1 hmap)

/-- A document whose events are chosen by project, cycle and release shows at most one event that is live. -/
private theorem Sound.shown_once {db : Database} (h : Sound db) {p : LifecycleEvent → Bool}
    (hp : ∀ a b : LifecycleEvent, a.projectKey = b.projectKey → a.cycleKey = b.cycleKey → a.versionKey = b.versionKey →
      p a = p b) {releaseKeys : List Str} {doc : List CleEvent} (hdoc : document releaseKeys (db.log.filter p) = .ok doc)
    {cycleKey : Str} {field : DateField} {e e' : LifecycleEvent} (he : ShownLive db.log doc cycleKey field e)
    (he' : ShownLive db.log doc cycleKey field e') : e = e' := by
  obtain ⟨hshows, honly⟩ := document_ok hdoc
  have hlive : ∀ a, ShownLive db.log doc cycleKey field a → eventShape.Stands db.log (cycleKey, field) a := by
    intro a ha
    obtain ⟨hmem, hplans, ⟨shown, hshown, hid⟩, hnot⟩ := ha
    refine stands_iff_live.2 ⟨hmem, hplans, fun hw => ?_⟩
    obtain ⟨w, hw, hwithdraws⟩ := hw
    obtain ⟨source, hsource, hcle⟩ := honly shown hshown
    have hchosen := List.mem_filter.1 hsource
    obtain rfl := h.settled.eq_of_id hchosen.1 hmem ((toCleEvent_ok hcle).1.symm.trans hid)
    have hscope := h.withdrawScope source hmem cycleKey field hplans w hw hwithdraws
    have hwchosen : w ∈ db.log.filter p := by
      refine List.mem_filter.2 ⟨hw, ?_⟩
      rw [hp w source hscope.1 hscope.2.1 hscope.2.2]
      exact hchosen.2
    obtain ⟨shown', hshown', hcle'⟩ := hshows w hwchosen
    exact hnot ⟨shown', hshown', (toCleEvent_ok hcle').2 source.id hwithdraws⟩
  have hlast := (h.settled.stands_iff _ e).1 (hlive e he)
  have hlast' := (h.settled.stands_iff _ e').1 (hlive e' he')
  exact LogShape.IsLast.unique h.settled hlast hlast'

private theorem Sound.datesAgree {db : Database} (h : Sound db) : DatesAgree db where
  set_iff := by
    intro c hc field
    have hone := h.settled.existsUnique_stands (k := (c.cycleKey, field))
    simp only [stands_iff_live, subject_eq_some] at hone
    rw [h.isSome_iff c hc field, hone]
  effective := fun c hc field e he => h.effective c hc field e (stands_iff_live.2 he)
  once := by
    intro id
    have honce := h.settled.once id
    simp only [target_eq_some] at honce
    exact honce
  project_document := by
    intro releaseKeys projectKey doc hdoc c _ field e e' he he'
    exact h.shown_once (fun a b hab _ _ => by simp only [hab]) hdoc he he'
  release_document := by
    intro releaseKeys releaseKey cycleKey doc hdoc c _ field e e' he he'
    exact h.shown_once (fun a b _ hcycle hversion => by simp only [hcycle, hversion]) hdoc he he'

/-! ### Every run -/

/-- Whatever requests come and however they overlap, the dates agree with the log as long as no request is disturbed. -/
theorem cycle_dates_agree {db : Database} (hfresh : Fresh db) {s : System}
    (hrun : Reaches (StepWhen step Undisturbed) (System.init db) s) : DatesAgree s.db := by
  have hinv : Invariant s := hrun.keeps (fun _ e h hundisturbed => h.step e hundisturbed) (Invariant.init hfresh)
  exact hinv.db.datesAgree

/-! ### Two runs -/

instance Quiet.decidable (db : Database) (cycleKey : Str) : ∀ change, Decidable (Quiet db cycleKey change)
  | .setDate _ _ _ _ => inferInstanceAs (Decidable (∀ _ ∈ _, _))
  | .setLts _ => .isTrue trivial

instance LastIsLatest.decidable (db : Database) (cycleKey : Str) (field : DateField) :
    Decidable (LastIsLatest db cycleKey field) := inferInstanceAs (Decidable (∀ _ ∈ _, ∀ _ ∈ _, _))

instance Undisturbed.decidable (s : System) : ∀ e, Decidable (Undisturbed s e)
  | .advance pid =>
    match h : s.requests.get pid with
    | none => .isTrue (by simp [Undisturbed, h])
    | some r =>
      match hnext : r.next with
      | .flush => decidable_of_iff (s.MayWrite pid → ∀ change ∈ r.pending, Quiet (s.view pid) r.cycle.cycleKey change)
          (by simp only [Undisturbed, h, hnext])
      | .replan field _ _ => decidable_of_iff (LastIsLatest (s.view pid) r.cycle.cycleKey field)
          (by simp only [Undisturbed, h, hnext])
      | .keep _ | .refuse _ | .plan _ _ _ | .lts | .commit => .isTrue (by simp [Undisturbed, h, hnext])
  | .begin _ _ _ _ => .isTrue trivial
  | .abandon _ => .isTrue trivial

/-- A database with one cycle that has no dates. -/
def oneCycle : Database where
  projects := [⟨"p".toList, some "c".toList, .active⟩]
  cycles := Table.empty.insert ⟨"p-1".toList, "p".toList, none, none, none, false⟩
  log := []
  nextEventId := 1

private theorem oneCycle_fresh : Fresh oneCycle := by
  refine ⟨List.nodup_nil, fun e he => ?_, fun w hw => ?_, fun id => Nat.zero_le _, fun e he => ?_, fun c hc field => ?_⟩
  · cases he
  · cases hw
  · cases he
  · rcases Table.mem_insert hc with hc | rfl
    · cases hc
    · cases field <;> rfl

def beginEod (pid : Nat) (date now : Int) : Event :=
  .begin pid "c".toList ⟨"p".toList, "p-1".toList, some date, none, none, false⟩ now

/-- Three dates, the last column, the flush and the commit. -/
def finishEdit (pid : Nat) : List Event := List.replicate 6 (.advance pid)

/-- The end of development is set, and then changed. -/
theorem cycle_dates_agree_changed : ∃ s : System,
    (s.db.cycles.rows.map (·.eod), s.db.log.map fun e => (e.id, e.event, e.targetEventId)) =
      ([some (midnight 200)], [(1, .eod, none), (2, .withdraw, some 1), (3, .eod, none)]) ∧ DatesAgree s.db := by
  let events : List Event := beginEod 7 100 1000 :: finishEdit 7 ++ beginEod 8 200 2000 :: finishEdit 8
  have hundisturbed : Throughout step Undisturbed (System.init oneCycle) events := by decide +kernel
  exact ⟨events.foldl step (System.init oneCycle), by decide +kernel,
    cycle_dates_agree oneCycle_fresh (Reaches.foldl hundisturbed)⟩

/-- Two requests find no end of development: both plan one, and nothing withdraws the first. -/
theorem cycle_dates_two_live : ∃ s : System, Fresh oneCycle ∧
    Reaches (StepWhen step fun _ _ => True) (System.init oneCycle) s ∧ ¬ DatesAgree s.db := by
  let events : List Event := [beginEod 7 100 1000, beginEod 8 200 2000] ++ finishEdit 7 ++ finishEdit 8
  refine ⟨events.foldl step (System.init oneCycle), oneCycle_fresh,
    Reaches.foldl (Throughout.of_forall (fun _ _ => trivial) _ _), fun h => ?_⟩
  let first : LifecycleEvent := ⟨1, "p".toList, some "p-1".toList, none, .eod, midnight 100, 1000, none⟩
  let second : LifecycleEvent := ⟨2, "p".toList, some "p-1".toList, none, .eod, midnight 200, 2000, none⟩
  have hlog : (events.foldl step (System.init oneCycle)).db.log = [first, second] := by decide +kernel
  have hrows : ((events.foldl step (System.init oneCycle)).db.cycles.rows.map fun c => (c.cycleKey, c.eod)) =
      [("p-1".toList, some (midnight 200))] := by decide +kernel
  obtain ⟨c, hc, hcolumns⟩ := List.mem_map.1 (hrows ▸ List.mem_singleton_self ("p-1".toList, some (midnight 200)))
  rw [Prod.mk.injEq] at hcolumns
  have hlive : Live (events.foldl step (System.init oneCycle)).db.log c.cycleKey .eod first := by
    rw [hlog, hcolumns.1]
    unfold Live
    decide +kernel
  have hdate := h.effective c hc .eod first hlive
  simp only [ProjectCycle.getattr, hcolumns.2] at hdate
  exact absurd hdate (by decide +kernel)

end Cycles

end TrustedReleases
