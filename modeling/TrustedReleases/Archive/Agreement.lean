import TrustedReleases.Archive.Record

/-!
# The record of archivals agrees with the log

A release is archived exactly when one archival of its log stands, that is, has not been withdrawn.  Archiving keeps
this by itself.  Taking an archival back keeps it as long as the event that the writer looked up is the one that stands
when it commits (`Orderly`), and a failed removal undoes its own archival as long as the release was not archived
again in between (`archiveRecord_agrees`).
-/

namespace TrustedReleases

open Lib

namespace ArchiveRecord

/-! ### The log -/

/-- The event withdraws the one with the id. -/
def Withdraws (id : Nat) (e : LifecycleEvent) : Prop := e.event = .withdraw ∧ e.targetEventId = some id

instance (id : Nat) (e : LifecycleEvent) : Decidable (Withdraws id e) :=
  inferInstanceAs (Decidable (_ ∧ _))

/-- The event with the id has been withdrawn. -/
def Withdrawn (s : ArchiveRecord) (id : Nat) : Prop := ∃ w ∈ s.events, Withdraws id w

/-- An archival of the release that has not been withdrawn. -/
def Stands (s : ArchiveRecord) (key : Str) (a : LifecycleEvent) : Prop :=
  a ∈ s.events ∧ IsArchive key a ∧ ¬ s.Withdrawn a.id

/-- The release is archived. -/
def Archived (s : ArchiveRecord) (key : Str) : Prop := ∃ r, s.releases.get key = some r ∧ r.isArchived = true

/-- The record and the log agree: a release is archived exactly when one archival stands, and no archival is withdrawn
twice. -/
structure Agrees (s : ArchiveRecord) : Prop where
  archived_iff : ∀ key r, s.releases.get key = some r → (r.isArchived = true ↔ ∃! a, s.Stands key a)
  withdrawn_once : ∀ a ∈ s.events, a.event = .archive → s.events.countP (fun e => decide (Withdraws a.id e)) ≤ 1

/-- If the step is the commit for a failed removal, it withdraws no archival but the one that queued the removal, and
clears no other flag. -/
def UndoesOwnOnly (publishes : Bool) (s : ArchiveRecord) (op : Op) : Prop :=
  ∀ pid now v r, op = .finish pid now → s.reversals.get pid = some v → v.cause = .failedRemoval r →
    ∀ key a, s.Stands key a →
      (s.step publishes op).Withdrawn a.id ∨ (s.Archived key ∧ ¬ (s.step publishes op).Archived key) →
        a.id = r.archival ∧ key = r.key

/-- The last archival of the release has a later instant than those before it. -/
def LastIsLatest (s : ArchiveRecord) (key : Str) : Prop :=
  ∀ a ∈ s.events, ∀ b ∈ s.events, IsArchive key a → IsArchive key b →
    (∀ c ∈ s.events, IsArchive key c → c.id ≤ b.id) → a ≠ b → a.published < b.published

/-- What has to hold at the steps of a reversal.  When it looks up the archival, the release is still archived, its
last archival is its latest, and, for a failed removal, the release has not been archived again since the removal was
queued; and nothing is recorded for the release before it commits. -/
def Orderly (s : ArchiveRecord) : Op → Prop
  | .lookUp pid => ∀ v, s.reversals.get pid = some v → s.Archived v.key ∧ s.LastIsLatest v.key ∧
      ∀ r, v.cause = .failedRemoval r → ∀ a ∈ s.events, IsArchive v.key a → a.id ≤ r.archival
  | .finish pid _ => ∀ v p n, s.reversals.get pid = some v → v.found = some (p, n) → s.eventCount v.key = n
  | _ => True

/-- The start of a run: no release is archived, and nothing is under way. -/
structure Fresh (s : ArchiveRecord) : Prop where
  ids : (s.events.map (·.id)).Nodup
  id_lt : ∀ e ∈ s.events, e.id < s.nextEventId
  events : ∀ e ∈ s.events, e.event ≠ .archive ∧ e.event ≠ .withdraw
  releases : ∀ key r, s.releases.get key = some r → r.isArchived = false
  removals : s.removals = []
  reversals : ∀ pid, s.reversals.get pid = none

/-! ### The invariant -/

/-- What every orderly run keeps. -/
structure LogInv (s : ArchiveRecord) : Prop where
  ids : (s.events.map (·.id)).Nodup
  id_lt : ∀ e ∈ s.events, e.id < s.nextEventId
  target_lt : ∀ w ∈ s.events, ∀ id, Withdraws id w → id < s.nextEventId
  once : ∀ id, s.events.countP (fun e => decide (Withdraws id e)) ≤ 1
  archived : ∀ key, s.Archived key → ∃ a, s.Stands key a ∧
    ∀ b ∈ s.events, IsArchive key b → b.id ≤ a.id ∧ (b.id ≠ a.id → s.Withdrawn b.id)
  current : ∀ key, ¬ s.Archived key → ∀ b ∈ s.events, IsArchive key b → s.Withdrawn b.id
  removal : ∀ r ∈ s.removals, ∃ a ∈ s.events, IsArchive r.key a ∧ a.id = r.archival
  cause : ∀ pid v r, s.reversals.get pid = some v → v.cause = .failedRemoval r → r ∈ s.removals ∧ v.key = r.key
  found : ∀ pid v p n, s.reversals.get pid = some v → v.found = some (p, n) →
    n ≤ s.eventCount v.key ∧ (s.eventCount v.key = n → ∃ a, s.Stands v.key a ∧ p = some a.id ∧
      ∀ r, v.cause = .failedRemoval r → a.id = r.archival)

variable {s : ArchiveRecord}

private theorem event_eq_of_id {l : List LifecycleEvent} (h : (l.map (·.id)).Nodup) {a b : LifecycleEvent} (ha : a ∈ l)
    (hb : b ∈ l) (hid : a.id = b.id) : a = b := List.inj_on_of_nodup_map h ha hb hid

private theorem Fresh.logInv (h : s.Fresh) : s.LogInv where
  ids := h.ids
  id_lt := h.id_lt
  target_lt w hw id hid := absurd hid.1 (h.events w hw).2
  once id := by
    have hzero : s.events.countP (fun e => decide (Withdraws id e)) = 0 := by
      rw [List.countP_eq_zero]
      intro e he hw
      exact (h.events e he).2 (of_decide_eq_true hw).1
    omega
  archived key := by
    rintro ⟨r, hr, harch⟩
    rw [h.releases key r hr] at harch
    cases harch
  current key _ b hb hkey := absurd hkey.1 (h.events b hb).1
  removal r hr := by rw [h.removals] at hr; cases hr
  cause pid v r hv := by rw [h.reversals] at hv; cases hv
  found pid v p n hv := by rw [h.reversals] at hv; cases hv

/-- The archivals that stand are all the same one. -/
private theorem LogInv.stands_unique (h : s.LogInv) {key : Str} {a b : LifecycleEvent} (ha : s.Stands key a)
    (hb : s.Stands key b) : a = b := by
  by_cases harch : s.Archived key
  · obtain ⟨c, -, hc⟩ := h.archived key harch
    have hid : ∀ d, s.Stands key d → d.id = c.id := fun d hd =>
      by_contra fun hne => hd.2.2 ((hc d hd.1 hd.2.1).2 hne)
    exact event_eq_of_id h.ids ha.1 hb.1 ((hid a ha).trans (hid b hb).symm)
  · exact absurd (h.current key harch a ha.1 ha.2.1) ha.2.2

private theorem LogInv.archived_iff (h : s.LogInv) (key : Str) : s.Archived key ↔ ∃ a, s.Stands key a := by
  constructor
  · intro harch
    obtain ⟨a, ha, -⟩ := h.archived key harch
    exact ⟨a, ha⟩
  · rintro ⟨a, ha⟩
    by_contra harch
    exact ha.2.2 (h.current key harch a ha.1 ha.2.1)

theorem LogInv.agrees (h : s.LogInv) : s.Agrees where
  archived_iff key r hr := by
    have hkey : r.isArchived = true ↔ s.Archived key := by
      refine ⟨fun harch => ⟨r, hr, harch⟩, ?_⟩
      rintro ⟨r', hr', harch⟩
      rw [hr] at hr'
      rwa [Option.some.inj hr']
    rw [hkey, h.archived_iff]
    exact ⟨fun ⟨a, ha⟩ => ⟨a, ha, fun b hb => h.stands_unique hb ha⟩, fun ⟨a, ha, _⟩ => ⟨a, ha⟩⟩
  withdrawn_once a _ _ := h.once a.id

/-! ### Adding to the log -/

private theorem withdrawn_append {s' : ArchiveRecord} {e : LifecycleEvent} (hevents : s'.events = s.events ++ [e])
    (id : Nat) : s'.Withdrawn id ↔ s.Withdrawn id ∨ Withdraws id e := by
  simp only [Withdrawn, hevents, List.mem_append, List.mem_singleton, or_and_right, exists_or, exists_eq_left]

private theorem eventCount_append {s' : ArchiveRecord} {e : LifecycleEvent} (hevents : s'.events = s.events ++ [e])
    (key : Str) : s'.eventCount key = s.eventCount key + if e.versionKey = some key then 1 else 0 := by
  simp only [eventCount, hevents, List.countP_append, List.countP_singleton, decide_eq_true_eq]

private theorem archived_congr {s' : ArchiveRecord} {key : Str} (h : s'.releases.get key = s.releases.get key) :
    s'.Archived key ↔ s.Archived key := by
  unfold Archived
  rw [h]

/-- An event of another release changes nothing for a release, unless it withdraws one of its archivals. -/
private theorem stands_other {s' : ArchiveRecord} {e : LifecycleEvent} (h : s.LogInv) {key j : Str}
    (hevents : s'.events = s.events ++ [e]) (hkey : e.versionKey = some key)
    (htarget : ∀ id, Withdraws id e → ∃ a, s.Stands key a ∧ a.id = id) (hj : j ≠ key) (a : LifecycleEvent) :
    s'.Stands j a ↔ s.Stands j a := by
  have hmem : IsArchive j a → (a ∈ s'.events ↔ a ∈ s.events) := by
    intro ha
    rw [hevents, List.mem_append, List.mem_singleton, or_iff_left]
    rintro rfl
    rw [ha.2] at hkey
    exact hj (Option.some.inj hkey)
  have hw : a ∈ s.events → IsArchive j a → ¬ Withdraws a.id e := by
    intro hmem ha hw
    obtain ⟨b, hb, hid⟩ := htarget _ hw
    obtain rfl := event_eq_of_id h.ids hb.1 hmem hid
    have := ha.2.symm.trans hb.2.1.2
    exact hj (Option.some.inj this)
  unfold Stands
  constructor
  · rintro ⟨ha, hk, hn⟩
    rw [withdrawn_append hevents] at hn
    exact ⟨(hmem hk).1 ha, hk, fun hc => hn (.inl hc)⟩
  · rintro ⟨ha, hk, hn⟩
    refine ⟨(hmem hk).2 ha, hk, ?_⟩
    rw [withdrawn_append hevents]
    rintro (hc | hc)
    · exact hn hc
    · exact hw ha hk hc

/-- Recording an event keeps the invariant: one that archives a release, one that withdraws the archival that stands
as the release's flag is cleared, or another one of a release that is not archived. -/
private theorem LogInv.record {s' : ArchiveRecord} {e : LifecycleEvent} (h : s.LogInv) (key : Str)
    (hevents : s'.events = s.events ++ [e]) (hid : e.id = s.nextEventId) (hnext : s'.nextEventId = s.nextEventId + 1)
    (hkey : e.versionKey = some key) (hreleases : ∀ j, j ≠ key → s'.releases.get j = s.releases.get j)
    (htarget : ∀ id, Withdraws id e → ∃ a, s.Stands key a ∧ a.id = id)
    (harchived : s'.Archived key → IsArchive key e ∧ ¬ s.Archived key)
    (hcurrent : ¬ s'.Archived key → ¬ IsArchive key e ∧ ∀ a, s.Stands key a → Withdraws a.id e)
    (hremovals : ∀ r ∈ s'.removals, r ∈ s.removals ∨ (r.key = key ∧ r.archival = e.id ∧ IsArchive key e))
    (hkept : ∀ r ∈ s.removals, r ∈ s'.removals)
    (hreversals : ∀ pid v, s'.reversals.get pid = some v → s.reversals.get pid = some v) : s'.LogInv := by
  have hmem : ∀ b, b ∈ s'.events ↔ b ∈ s.events ∨ b = e := by
    intro b
    rw [hevents, List.mem_append, List.mem_singleton]
  have htarget_lt : ∀ id, Withdraws id e → id < s.nextEventId := by
    intro id hw
    obtain ⟨a, ha, rfl⟩ := htarget id hw
    exact h.id_lt a ha.1
  have hnew : ¬ s'.Withdrawn e.id := by
    rw [withdrawn_append hevents, hid]
    rintro (⟨w, hw, hwid⟩ | hw)
    · exact lt_irrefl _ (h.target_lt w hw _ hwid)
    · exact lt_irrefl _ (htarget_lt _ hw)
  refine ⟨?_, ?_, ?_, ?_, ?_, ?_, ?_, ?_, ?_⟩
  · rw [hevents, List.map_append, List.map_singleton, ← List.concat_eq_append, List.nodup_concat]
    refine ⟨fun hm => ?_, h.ids⟩
    obtain ⟨b, hb, hbid⟩ := List.mem_map.1 hm
    have := h.id_lt b hb
    omega
  · intro b hb
    rcases (hmem b).1 hb with hb | rfl
    · have := h.id_lt b hb
      omega
    · omega
  · intro w hw id hwid
    rcases (hmem w).1 hw with hw | rfl
    · have := h.target_lt w hw id hwid
      omega
    · have := htarget_lt id hwid
      omega
  · intro id
    rw [hevents, List.countP_append, List.countP_singleton]
    split
    · rename_i hw
      obtain ⟨a, ha, rfl⟩ := htarget id (of_decide_eq_true hw)
      have hzero : s.events.countP (fun b => decide (Withdraws a.id b)) = 0 := by
        rw [List.countP_eq_zero]
        intro b hb hw
        exact ha.2.2 ⟨b, hb, of_decide_eq_true hw⟩
      omega
    · exact h.once id
  · intro j harch
    by_cases hj : j = key
    · subst hj
      obtain ⟨he, hnot⟩ := harchived harch
      refine ⟨e, ⟨(hmem e).2 (.inr rfl), he, hnew⟩, fun b hb hbk => ?_⟩
      rcases (hmem b).1 hb with hb | rfl
      · refine ⟨?_, fun _ => (withdrawn_append hevents _).2 (.inl (h.current j hnot b hb hbk))⟩
        have := h.id_lt b hb
        omega
      · exact ⟨le_rfl, fun hne => absurd rfl hne⟩
    · obtain ⟨a, ha, hlast⟩ := h.archived j ((archived_congr (hreleases j hj)).1 harch)
      refine ⟨a, (stands_other h hevents hkey htarget hj a).2 ha, fun b hb hbk => ?_⟩
      rcases (hmem b).1 hb with hb | rfl
      · exact ⟨(hlast b hb hbk).1, fun hne => (withdrawn_append hevents _).2 (.inl ((hlast b hb hbk).2 hne))⟩
      · rw [hbk.2] at hkey
        exact absurd (Option.some.inj hkey) hj
  · intro j hnot b hb hbk
    by_cases hj : j = key
    · subst hj
      obtain ⟨hne, hall⟩ := hcurrent hnot
      rcases (hmem b).1 hb with hb | rfl
      · by_contra hw
        rw [withdrawn_append hevents, not_or] at hw
        exact hw.2 (hall b ⟨hb, hbk, hw.1⟩)
      · exact absurd hbk hne
    · rcases (hmem b).1 hb with hb | rfl
      · have hs : ¬ s.Archived j := fun hs => hnot ((archived_congr (hreleases j hj)).2 hs)
        exact (withdrawn_append hevents _).2 (.inl (h.current j hs b hb hbk))
      · rw [hbk.2] at hkey
        exact absurd (Option.some.inj hkey) hj
  · intro r hr
    rcases hremovals r hr with hr | ⟨rfl, harch, he⟩
    · obtain ⟨a, ha, hk, hid⟩ := h.removal r hr
      exact ⟨a, (hmem a).2 (.inl ha), hk, hid⟩
    · exact ⟨e, (hmem e).2 (.inr rfl), he, harch.symm⟩
  · intro pid v r hv hc
    obtain ⟨hr, hk⟩ := h.cause pid v r (hreversals pid v hv) hc
    exact ⟨hkept r hr, hk⟩
  · intro pid v p n hv hf
    obtain ⟨hle, hfound⟩ := h.found pid v p n (hreversals pid v hv) hf
    rw [eventCount_append hevents, hkey]
    by_cases hvk : v.key = key
    · rw [if_pos (by rw [hvk])]
      exact ⟨by omega, fun heq => by omega⟩
    · rw [if_neg (fun heq => hvk (Option.some.inj heq).symm), Nat.add_zero]
      refine ⟨hle, fun heq => ?_⟩
      obtain ⟨a, ha, hp, hown⟩ := hfound heq
      exact ⟨a, (stands_other h hevents hkey htarget hvk a).2 ha, hp, hown⟩

/-! ### The steps -/

/-- An archival sets the flag of a release that was not archived, records it and queues a removal, or none. -/
private theorem archiveReleaseCore_ok {publishes : Bool} {s' : ArchiveRecord} {asfUid key : Str}
    {source : ArchiveSource}
    {archiveDate : Int} (h : s.archiveReleaseCore publishes asfUid key source archiveDate = .ok s') :
    ∃ r, s.releases.get key = some r ∧ r.phase = .release ∧ r.isArchived = false ∧
      s' = { s with
        releases := s.releases.set key
          { r with archived := some archiveDate, isArchived := true, archiveSource := some source }
        events := s.events ++ [⟨s.nextEventId, r.projectKey, some r.cycleKey, some key, .archive, archiveDate,
          archiveDate, none⟩]
        nextEventId := s.nextEventId + 1
        removals :=
          if source ≠ .distWatcher ∧ publishes = true then s.removals ++ [⟨asfUid, key, s.nextEventId⟩]
          else s.removals } := by
  unfold archiveReleaseCore at h
  split at h
  · cases h
  · rename_i r hr
    simp only at h
    split at h
    · cases h
    · rename_i hphase
      split at h
      · cases h
      · rename_i hnot
        refine ⟨r, hr, not_not.1 hphase, by simpa using hnot, (Except.ok.inj h).symm.trans ?_⟩
        unfold queueSvnUnpublish addEvent
        by_cases hsource : source = .distWatcher <;> by_cases hpub : publishes = true <;> simp [hsource, hpub]

private theorem not_archived {key : Str} {r : PublishedRelease} (hr : s.releases.get key = some r)
    (hnot : r.isArchived = false) : ¬ s.Archived key := by
  rintro ⟨r', hr', harch⟩
  rw [hr] at hr'
  rw [Option.some.inj hr', harch] at hnot
  cases hnot

theorem LogInv.archive {publishes : Bool} {s' : ArchiveRecord} {asfUid key : Str} {source : ArchiveSource}
    {archiveDate : Int} (h : s.LogInv) (hok : s.archiveReleaseCore publishes asfUid key source archiveDate = .ok s') :
    s'.LogInv := by
  obtain ⟨r, hr, -, hnot, rfl⟩ := archiveReleaseCore_ok hok
  refine h.record key rfl rfl rfl rfl (fun j hj => ?_) (fun id hw => ?_) (fun _ => ?_) (fun hn => ?_)
    (fun v hv => ?_) (fun v hv => ?_) (fun _ _ hv => hv)
  · simp only [Dict.get_set, if_neg hj]
  · cases hw.1
  · exact ⟨⟨rfl, rfl⟩, not_archived hr hnot⟩
  · exact absurd ⟨_, by simp only [Dict.get_set, if_pos]; rfl, rfl⟩ hn
  · simp only at hv
    split at hv
    · rcases List.mem_append.1 hv with hv | hv
      · exact .inl hv
      · rw [List.mem_singleton.1 hv]
        exact .inr ⟨rfl, rfl, rfl, rfl⟩
    · exact .inl hv
  · simp only
    split
    · exact List.mem_append_left _ hv
    · exact hv

/-- A writer that starts to take back an archival has looked nothing up. -/
private theorem LogInv.start {pid : Nat} {key : Str} {c : ReversalCause} (h : s.LogInv)
    (hcause : ∀ r, c = .failedRemoval r → r ∈ s.removals ∧ key = r.key) :
    { s with reversals := s.reversals.set pid ⟨key, c, none⟩ : ArchiveRecord }.LogInv where
  ids := h.ids
  id_lt := h.id_lt
  target_lt := h.target_lt
  once := h.once
  archived := h.archived
  current := h.current
  removal := h.removal
  cause q v r hv hc := by
    simp only [Dict.get_set] at hv
    split at hv
    · rw [← Option.some.inj hv] at hc ⊢
      exact hcause r hc
    · exact h.cause q v r hv hc
  found q v p n hv hf := by
    simp only [Dict.get_set] at hv
    split at hv
    · rw [← Option.some.inj hv] at hf
      cases hf
    · exact h.found q v p n hv hf

private theorem LogInv.addArtifacts (h : s.LogInv) (artifacts : List Artifact) :
    { s with artifacts := artifacts : ArchiveRecord }.LogInv :=
  ⟨h.ids, h.id_lt, h.target_lt, h.once, h.archived, h.current, h.removal, h.cause, h.found⟩

theorem LogInv.catalogue (h : s.LogInv) (pid : Nat) (projectKey version cycleKey : Str) (released now : Int)
    (artifacts : List ArtifactInput) :
    (s.catalogueRelease pid projectKey version cycleKey released now artifacts).LogInv := by
  unfold catalogueRelease
  simp only
  split
  · split
    · exact h.start fun r hr => by cases hr
    · exact h
  · rename_i hnone
    have hnot : ¬ s.Archived (releaseKey projectKey version) := by
      rintro ⟨r, hr, -⟩
      rw [hnone] at hr
      cases hr
    let r : PublishedRelease := ⟨projectKey, version, cycleKey, .release, none, false, none⟩
    have hrecord : (addEvent { s with releases := s.releases.set (releaseKey projectKey version) r } r
        (releaseKey projectKey version) .release released now none).LogInv := by
      refine h.record (releaseKey projectKey version) rfl rfl rfl rfl (fun j hj => ?_) (fun id hw => ?_)
        (fun harch => ?_) (fun _ => ⟨fun he => ?_, fun a ha => ?_⟩) (fun v hv => .inl hv) (fun v hv => hv)
        (fun _ _ hv => hv)
      · simp only [addEvent, Dict.get_set, if_neg hj]
      · cases hw.1
      · obtain ⟨r, hr, harch⟩ := harch
        simp only [addEvent, Dict.get_set, if_pos] at hr
        rw [← Option.some.inj hr] at harch
        cases harch
      · cases he.1
      · exact absurd (h.current _ hnot a ha.1 ha.2.1) ha.2.2
    exact hrecord.addArtifacts _

theorem LogInv.fails (h : s.LogInv) (pid : Nat) {removal : Removal} (hr : removal ∈ s.removals) :
    (s.removalFails pid removal).LogInv := by
  unfold removalFails
  split
  · split
    · refine h.start fun r hc => ?_
      rw [← ReversalCause.failedRemoval.inj hc]
      exact ⟨hr, rfl⟩
    · exact h
  · exact h

/-- The archival that is looked up is the one that stands, if the release is archived and its last archival is its
latest. -/
private theorem priorEventId_eq {key : Str} {a : LifecycleEvent} (ha : s.Stands key a)
    (hlast : ∀ b ∈ s.events, IsArchive key b → b.id ≤ a.id) (hlatest : s.LastIsLatest key) :
    s.priorEventId key = some a.id := by
  rw [priorEventId, latestBy_eq (x := a) (List.mem_filter.2 ⟨ha.1, decide_eq_true ha.2.1⟩) fun b hb hne => ?_]
  · rfl
  · rw [List.mem_filter, decide_eq_true_eq] at hb
    exact hlatest b hb.1 a ha.1 hb.2 ha.2.1 hlast hne

private theorem LogInv.lookUp (h : s.LogInv) {pid : Nat} (hord : s.Orderly (.lookUp pid)) : (s.lookUp pid).LogInv := by
  unfold ArchiveRecord.lookUp
  split
  · rename_i v hv
    obtain ⟨harch, hlatest, hown⟩ := hord v hv
    obtain ⟨a, ha, hlast⟩ := h.archived v.key harch
    refine ⟨h.ids, h.id_lt, h.target_lt, h.once, h.archived, h.current, h.removal, fun q u r hu hc => ?_,
      fun q u p n hu hf => ?_⟩
    · simp only [Dict.get_set] at hu
      split at hu
      · rw [← Option.some.inj hu] at hc ⊢
        exact h.cause pid v r hv hc
      · exact h.cause q u r hu hc
    · simp only [Dict.get_set] at hu
      split at hu
      · rw [← Option.some.inj hu] at hf ⊢
        simp only [Option.some.injEq, Prod.mk.injEq] at hf
        refine ⟨hf.2.symm.le, fun _ => ⟨a, ha, ?_, fun r hc => ?_⟩⟩
        · rw [← hf.1, priorEventId_eq ha (fun b hb hbk => (hlast b hb hbk).1) hlatest]
        · obtain ⟨hr, hk⟩ := h.cause pid v r hv hc
          obtain ⟨b, hb, hbk, hid⟩ := h.removal r hr
          have hle := hown r hc a ha.1 ha.2.1
          have := (hlast b hb (hk ▸ hbk)).1
          omega
      · exact h.found q u p n hu hf
  · exact h

/-- What the commit of a writer does that has looked up the archival that stands. -/
private theorem finish_eq {pid : Nat} {now : Int} (h : s.LogInv) (hord : s.Orderly (.finish pid now)) :
    s.finish pid now = s ∨ ∃ v r a artifacts, s.reversals.get pid = some v ∧ s.releases.get v.key = some r ∧
      s.Stands v.key a ∧ (∀ r, v.cause = .failedRemoval r → a.id = r.archival) ∧
      s.finish pid now = { s with
        releases := s.releases.set v.key { r with archived := none, isArchived := false, archiveSource := none }
        events := s.events ++ [⟨s.nextEventId, r.projectKey, some r.cycleKey, some v.key, .withdraw, now, now,
          some a.id⟩]
        nextEventId := s.nextEventId + 1
        artifacts := artifacts
        reversals := s.reversals.pop pid } := by
  unfold finish
  split
  · rename_i key cause p n hv
    obtain ⟨a, ha, hp, hown⟩ := (h.found pid _ p n hv rfl).2 (hord _ p n hv rfl)
    split
    · exact .inl rfl
    · rename_i r hr
      subst hp
      exact .inr ⟨_, r, a, _, hv, hr, ha, hown, rfl⟩
  · exact .inl rfl

theorem LogInv.finish {pid : Nat} {now : Int} (h : s.LogInv) (hord : s.Orderly (.finish pid now)) :
    (s.finish pid now).LogInv := by
  rcases finish_eq h hord with heq | ⟨v, r, a, artifacts, hv, hr, ha, -, heq⟩
  · rw [heq]; exact h
  · rw [heq]
    refine h.record v.key rfl rfl rfl rfl (fun j hj => ?_) (fun id hw => ?_) (fun harch => ?_)
      (fun _ => ⟨fun he => ?_, fun b hb => ?_⟩) (fun u hu => .inl hu) (fun u hu => hu) (fun q u hu => ?_)
    · simp only [Dict.get_set, if_neg hj]
    · exact ⟨a, ha, Option.some.inj hw.2⟩
    · obtain ⟨r', hr', harch⟩ := harch
      simp only [Dict.get_set, if_pos] at hr'
      rw [← Option.some.inj hr'] at harch
      cases harch
    · cases he.1
    · rw [h.stands_unique hb ha]
      exact ⟨rfl, rfl⟩
    · simp only [Dict.get_pop] at hu
      split at hu
      · cases hu
      · exact hu

/-- Every orderly step keeps the invariant. -/
theorem LogInv.step {publishes : Bool} {op : Op} (h : s.LogInv) (hord : s.Orderly op) : (s.step publishes op).LogInv := by
  cases op with
  | archive asfUid key source archiveDate =>
    simp only [ArchiveRecord.step]
    cases hok : s.archiveReleaseCore publishes asfUid key source archiveDate with
    | ok s' => exact h.archive hok
    | error e => exact h
  | catalogue pid projectKey version cycleKey released now artifacts => exact h.catalogue ..
  | removalFails pid removal =>
    simp only [ArchiveRecord.step]
    split
    · rename_i hr
      exact h.fails pid hr
    · exact h
  | lookUp pid => exact h.lookUp hord
  | finish pid now => exact h.finish hord
  | abandon pid =>
    refine ⟨h.ids, h.id_lt, h.target_lt, h.once, h.archived, h.current, h.removal, fun q v r hv => ?_,
      fun q v p n hv => ?_⟩
    · simp only [ArchiveRecord.step, Dict.get_pop] at hv
      split at hv
      · cases hv
      · exact h.cause q v r hv
    · simp only [ArchiveRecord.step, Dict.get_pop] at hv
      split at hv
      · cases hv
      · exact h.found q v p n hv

/-- A failed removal undoes the archival that queued it and no other. -/
private theorem LogInv.undoesOwnOnly {publishes : Bool} {op : Op} (h : s.LogInv) (hord : s.Orderly op) :
    s.UndoesOwnOnly publishes op := by
  rintro pid now v r rfl hv hcause key a ha hundone
  obtain ⟨-, hkey⟩ := h.cause pid v r hv hcause
  have hstep : s.step publishes (.finish pid now) = s.finish pid now := rfl
  rw [hstep] at hundone
  rcases finish_eq h hord with heq | ⟨u, q, b, artifacts, hu, hq, hb, hown, heq⟩
  · rw [heq] at hundone
    rcases hundone with hw | ⟨harch, hnot⟩
    · exact absurd hw ha.2.2
    · exact absurd harch hnot
  · rw [hv] at hu
    obtain rfl := Option.some.inj hu
    rw [heq] at hundone
    -- the archival is the one of the same release, in both ways that it could be undone
    have hsame : key = v.key ∧ a = b := by
      rcases hundone with hw | ⟨harch, hnot⟩
      · rcases (withdrawn_append rfl a.id).1 hw with hw | hw
        · exact absurd hw ha.2.2
        · have hab := event_eq_of_id h.ids ha.1 hb.1 (Option.some.inj hw.2).symm
          refine ⟨?_, hab⟩
          have := ha.2.1.2
          rw [hab, hb.2.1.2] at this
          exact (Option.some.inj this).symm
      · by_cases hk : key = v.key
        · subst hk
          exact ⟨rfl, h.stands_unique ha hb⟩
        · exact absurd ((archived_congr (by simp only [Dict.get_set, if_neg hk])).2 harch) hnot
    rw [hsame.2]
    exact ⟨hown r hcause, hsame.1.trans hkey⟩

/-- In every run whose steps are orderly, the record agrees with the log at every time, and every failed removal undoes
the archival that queued it and no other. -/
theorem archiveRecord_agrees {publishes : Bool} {s₀ s : ArchiveRecord} (hstart : s₀.Fresh)
    (hrun : Reaches (StepWhen (ArchiveRecord.step publishes) Orderly) s₀ s) :
    s.Agrees ∧ ∀ op, s.Orderly op → s.UndoesOwnOnly publishes op := by
  have h : s.LogInv := hrun.keeps (I := LogInv) (fun _ _ h hord => h.step hord) hstart.logInv
  exact ⟨h.agrees, fun op hord => h.undoesOwnOnly hord⟩

/-! ### A removal that fails late -/

/-- A record of one release. -/
def oneRelease : ArchiveRecord where
  releases := (∅ : Dict Str PublishedRelease).set ['p', '-', '1'] ⟨['p'], ['1'], ['c'], .release, none, false, none⟩
  events := [⟨1, ['p'], some ['c'], some ['p', '-', '1'], .release, 0, 0, none⟩]
  nextEventId := 2
  artifacts := []
  removals := []
  reversals := ∅

private theorem oneRelease_fresh : oneRelease.Fresh where
  ids := by decide
  id_lt := by decide
  events := by decide
  releases key r hr := by
    simp only [oneRelease, Dict.get_set, Dict.get_empty] at hr
    split at hr
    · rw [← Option.some.inj hr]
    · cases hr
  removals := rfl
  reversals _ := rfl

/-- The release is archived and its removal fails. -/
def failedArchive : ArchiveRecord :=
  [.archive ['m'] ['p', '-', '1'] .manual 10, .removalFails 7 ⟨['m'], ['p', '-', '1'], 2⟩, .lookUp 7, .finish 7 20].foldl
    (ArchiveRecord.step true) oneRelease

theorem archiveRecord_agrees_failedArchive : failedArchive.Agrees ∧ ¬ failedArchive.Archived ['p', '-', '1'] := by
  have h₁ : Reaches (StepWhen (ArchiveRecord.step true) Orderly) oneRelease _ :=
    Reaches.event .refl (Op.archive ['m'] ['p', '-', '1'] .manual 10) trivial
  have h₂ := h₁.event (.removalFails 7 ⟨['m'], ['p', '-', '1'], 2⟩) trivial
  have h₃ := h₂.event (.lookUp 7) (by
    intro v hv
    obtain rfl := Option.some.inj hv
    exact ⟨⟨_, rfl, rfl⟩, by unfold LastIsLatest; decide, fun r hr => by
      rw [← ReversalCause.failedRemoval.inj hr]
      decide⟩)
  have h₄ := h₃.event (.finish 7 20) (by
    intro v p n hv hf
    obtain rfl := Option.some.inj hv
    exact (Prod.mk.inj (Option.some.inj hf)).2)
  refine ⟨(archiveRecord_agrees oneRelease_fresh h₄).1, ?_⟩
  rintro ⟨r, hr, harch⟩
  rw [← Option.some.inj hr] at harch
  cases harch

/-- The release is archived, restored and archived again before the first removal fails. -/
def archivedAgain : ArchiveRecord :=
  [.archive ['m'] ['p', '-', '1'] .manual 10, .catalogue 6 ['p'] ['1'] ['c'] 15 15 [], .lookUp 6, .finish 6 16,
    .archive ['m'] ['p', '-', '1'] .manual 20, .removalFails 7 ⟨['m'], ['p', '-', '1'], 2⟩, .lookUp 7].foldl
    (ArchiveRecord.step true) oneRelease

/-- The removal that the first archival queued undoes the second one. -/
theorem archiveRecord_undoesLater : ¬ ∀ publishes s₀ s, Fresh s₀ →
    Reaches (StepWhen (ArchiveRecord.step publishes) fun _ _ => True) s₀ s →
      s.Agrees ∧ ∀ op, s.UndoesOwnOnly publishes op := by
  intro h
  have hown := (h true oneRelease archivedAgain oneRelease_fresh (.foldl (.of_forall (fun _ _ => trivial) _ _))).2 (.finish 7 30)
  have hlater := hown 7 30 _ _ rfl rfl rfl ['p', '-', '1']
    ⟨4, ['p'], some ['c'], some ['p', '-', '1'], .archive, 20, 20, none⟩
    ⟨by decide, by decide, by unfold Withdrawn; decide⟩ (.inl (by unfold Withdrawn; decide))
  exact absurd hlater.1 (by decide)

end ArchiveRecord

end TrustedReleases
