import TrustedReleases.Vote.Refinement

/-!
# What is voted on does not change

While a release is a candidate or a preview, no revision is added to it and no upload waits (`votedRevision_frozen`).
An upload that is promoted becomes a revision whatever the phase is, so this rests on the rows of the uploads: while one
waits, the release is a draft (`Life.Frozen`).  It fails when two workers validate one upload (`promotedLate`): the ids
of deleted rows are given out again, so a task that is queued again can come to the upload of another task.
-/

namespace TrustedReleases

open Lib

/-- A worker has the upload in its hands. -/
def Validated (validations : Dict Nat Validation) (id : Nat) : Bool :=
  validations.keys.any fun task =>
    match Dict.get validations task with
    | some v => decide (v.quarantinedId = id) && v.working
    | none => false

/-- No release is deleted, and no worker starts to validate an upload that another one has in its hands. -/
def OneWorker (validations : Dict Nat Validation) : Op → Prop
  | .claimValidation task => ∀ v ∈ Dict.get validations task, Validated validations v.quarantinedId = false
  | .deleteRelease _ _ _ => False
  | _ => True

instance (validations : Dict Nat Validation) (op : Op) : Decidable (OneWorker validations op) := by
  unfold OneWorker
  split <;> infer_instance

private theorem not_working_of_not_validated {validations : Dict Nat Validation} {id task : Nat} {v : Validation}
    (h : Validated validations id = false) (hv : Dict.get validations task = some v) (hid : v.quarantinedId = id) :
    v.working = false := by
  have := List.any_eq_false.1 h task (Dict.mem_keys_of_get hv)
  simpa [hv, hid] using this

/-! ### The invariant -/

/-- A candidate or a preview is at the revision that is voted on.  While uploads wait, the release is a draft; the
workers' rows are pending and each has one worker. -/
structure Life.Frozen (l : Life) : Prop where
  voted : l.standing.phase = some .releaseCandidate ∨ l.standing.phase = some .releasePreview →
    ∃ n, l.standing.voted = some n ∧ l.standing.latest = some n
  draft : l.standing.Awaiting → l.standing.phase = some .releaseCandidateDraft
  staging : ∀ id ∈ l.staging, ∃ q, Dict.get l.standing.quarantined id = some q ∧ q.status = .staging
  working : ∀ task v, Dict.get l.validations task = some v → v.working = true →
    ∃ q, Dict.get l.standing.quarantined v.quarantinedId = some q ∧ q.status = .pending
  alone : ∀ task task' v v', Dict.get l.validations task = some v → Dict.get l.validations task' = some v' →
    v.working = true → v'.working = true → v.quarantinedId = v'.quarantinedId → task = task'

namespace Life.Frozen

variable {l l' : Life} {task : Nat} {v v' : Validation}

theorem init (cs : Committees) (revisionCounter voteCounter : Option Nat) :
    (System.init cs revisionCounter voteCounter).life.Frozen where
  voted := by rintro (h | h) <;> cases h
  draft := by rintro ⟨id, q, hq, -⟩; cases hq
  staging := by intro id hid; cases hid
  working := by intro task v hv; cases hv
  alone := by intro task task' v v' hv; cases hv

/-- A draft has no revision that is voted on. -/
private theorem voted_of_draft {t : Standing} (h : t.phase = some .releaseCandidateDraft) :
    t.phase = some .releaseCandidate ∨ t.phase = some .releasePreview → ∃ n, t.voted = some n ∧ t.latest = some n := by
  rw [h]
  rintro (h | h) <;> cases h

private theorem phase_of_staging (h : l.Frozen) {id : Nat} (hid : id ∈ l.staging) :
    l.standing.phase = some .releaseCandidateDraft := by
  obtain ⟨q, hq, hstatus⟩ := h.staging id hid
  exact h.draft ⟨id, q, hq, .inl hstatus⟩

private theorem phase_of_working (h : l.Frozen) (hv : Dict.get l.validations task = some v) (hw : v.working = true) :
    l.standing.phase = some .releaseCandidateDraft := by
  obtain ⟨q, hq, hstatus⟩ := h.working task v hv hw
  exact h.draft ⟨_, q, hq, .inr hstatus⟩

/-- A task comes to another stage, and does not take up a row by this. -/
theorem setStage (h : l.Frozen) (hid : ∀ w, Dict.get l.validations task = some w → v'.quarantinedId = w.quarantinedId)
    (hworking : v'.working = true → ∃ w, Dict.get l.validations task = some w ∧ w.working = true) :
    Life.Frozen { l with validations := Dict.set l.validations task v' } := by
  -- the worker of a row was the worker of the row before
  have hold : ∀ t w, Dict.get (Dict.set l.validations task v') t = some w → w.working = true →
      ∃ w', Dict.get l.validations t = some w' ∧ w'.working = true ∧ w'.quarantinedId = w.quarantinedId := by
    intro t w hw hwork
    rw [Dict.get_set] at hw
    split_ifs at hw with ht
    · obtain rfl := Option.some.inj hw
      obtain ⟨w', hw', hwork'⟩ := hworking hwork
      exact ⟨w', ht ▸ hw', hwork', (hid w' hw').symm⟩
    · exact ⟨w, hw, hwork, rfl⟩
  refine ⟨h.voted, h.draft, h.staging, fun t w hw hwork => ?_, fun t t' w w' hw hw' hwork hwork' heq => ?_⟩
  · obtain ⟨u, hu, huwork, hid⟩ := hold t w hw hwork
    rw [← hid]
    exact h.working t u hu huwork
  · obtain ⟨u, hu, huwork, hid⟩ := hold t w hw hwork
    obtain ⟨u', hu', huwork', hid'⟩ := hold t' w' hw' hwork'
    exact h.alone t t' u u' hu hu' huwork huwork' (by rw [hid, hid', heq])

/-- A row that no upload under way and no worker has is written or deleted, and does not wait afterwards. -/
private theorem setRow (h : l.Frozen) (id : Nat) {rows : Dict Nat Quarantined}
    (hrow : ∀ q, Dict.get rows id = some q → q.status ≠ .staging ∧ q.status ≠ .pending)
    (hrest : ∀ i, i ≠ id → Dict.get rows i = Dict.get l.standing.quarantined i) (hstaging : id ∉ l.staging)
    (hfree : ∀ t w, Dict.get l.validations t = some w → w.working = true → w.quarantinedId ≠ id) :
    Life.Frozen { l with standing := { l.standing with quarantined := rows } } := by
  refine ⟨h.voted, ?_, fun i hi => ?_, fun t w hw hwork => ?_, h.alone⟩
  · rintro ⟨i, q, hq, hstatus⟩
    by_cases hi : i = id
    · obtain ⟨hs, hp⟩ := hrow q (hi ▸ hq)
      rcases hstatus with hstatus | hstatus
      · exact absurd hstatus hs
      · exact absurd hstatus hp
    · exact h.draft ⟨i, q, (hrest i hi).symm.trans hq, hstatus⟩
  · obtain ⟨q, hq, hstatus⟩ := h.staging i hi
    have hne : i ≠ id := fun heq => hstaging (heq ▸ hi)
    exact ⟨q, (hrest i hne).trans hq, hstatus⟩
  · obtain ⟨q, hq, hstatus⟩ := h.working t w hw hwork
    exact ⟨q, (hrest _ (hfree t w hw hwork)).trans hq, hstatus⟩

/-- A worker ends its work on a row, which does not wait afterwards. -/
theorem release (h : l.Frozen) {rows : Dict Nat Quarantined} (hv : Dict.get l.validations task = some v)
    (hwork : v.working = true) (hid : v'.quarantinedId = v.quarantinedId) (hworking : v'.working = false)
    (hrow : ∀ q, Dict.get rows v.quarantinedId = some q → q.status ≠ .staging ∧ q.status ≠ .pending)
    (hrest : ∀ i, i ≠ v.quarantinedId → Dict.get rows i = Dict.get l.standing.quarantined i) :
    Life.Frozen { l with
      standing := { l.standing with quarantined := rows }
      validations := Dict.set l.validations task v' } := by
  have hset : Life.Frozen { l with validations := Dict.set l.validations task v' } := by
    refine h.setStage (fun w hw => ?_) fun hw => ?_
    · rw [hv] at hw
      rw [hid, Option.some.inj hw]
    · rw [hworking] at hw
      cases hw
  refine hset.setRow _ hrow hrest (fun hstaging => ?_) fun t w hw hwork' heq => ?_
  · obtain ⟨q, hq, hstatus⟩ := h.staging _ hstaging
    obtain ⟨q', hq', hstatus'⟩ := h.working task v hv hwork
    rw [hq] at hq'
    rw [Option.some.inj hq', hstatus'] at hstatus
    cases hstatus
  · dsimp only at hw
    rw [Dict.get_set] at hw
    split_ifs at hw with ht
    · rw [← Option.some.inj hw, hworking] at hwork'
      cases hwork'
    · exact ht (h.alone t task w v hw hv hwork' hwork heq)

/-- A row that waits is written, while the release is a draft. -/
private theorem waitingRow (h : l.Frozen) (id : Nat) (q : Quarantined) (uploads : List Nat)
    (hphase : l.standing.phase = some .releaseCandidateDraft)
    (hstaging : ∀ i ∈ uploads, i ∈ l.staging ∧ i ≠ id ∨ i = id ∧ q.status = .staging)
    (hfree : ∀ t w, Dict.get l.validations t = some w → w.working = true → w.quarantinedId ≠ id) :
    Life.Frozen { l with
      standing := { l.standing with quarantined := Dict.set l.standing.quarantined id q }
      staging := uploads } := by
  refine ⟨h.voted, fun _ => hphase, fun i hi => ?_, fun t w hw hwork => ?_, h.alone⟩
  · dsimp only
    rw [Dict.get_set]
    rcases hstaging i hi with ⟨hold, hne⟩ | ⟨rfl, hstatus⟩
    · obtain ⟨r, hr, hstatus⟩ := h.staging i hold
      exact ⟨r, by rw [if_neg hne, hr], hstatus⟩
    · exact ⟨q, if_pos rfl, hstatus⟩
  · obtain ⟨r, hr, hstatus⟩ := h.working t w hw hwork
    dsimp only
    rw [Dict.get_set]
    exact ⟨r, by rw [if_neg (hfree t w hw hwork), hr], hstatus⟩

/-- A worker takes up a pending row that no other worker has. -/
theorem claim (h : l.Frozen) {q : Quarantined}
    (hq : Dict.get l.standing.quarantined v.quarantinedId = some q) (hpending : q.status = .pending)
    (hcond : Validated l.validations v.quarantinedId = false) :
    Life.Frozen { l with validations := Dict.set l.validations task { v with stage := .validating q } } := by
  refine ⟨h.voted, h.draft, h.staging, fun t w hw hwork => ?_, fun t t' w w' hw hw' hwork hwork' heq => ?_⟩
  · dsimp only at hw
    rw [Dict.get_set] at hw
    split_ifs at hw with ht
    · obtain rfl := Option.some.inj hw
      exact ⟨q, hq, hpending⟩
    · exact h.working t w hw hwork
  · dsimp only at hw hw'
    rw [Dict.get_set] at hw hw'
    split_ifs at hw hw' with ht ht'
    · rw [ht, ht']
    · obtain rfl := Option.some.inj hw
      rw [not_working_of_not_validated hcond hw' heq.symm] at hwork'
      cases hwork'
    · obtain rfl := Option.some.inj hw'
      rw [not_working_of_not_validated hcond hw heq] at hwork
      cases hwork
    · exact h.alone t t' w w' hw hw' hwork hwork' heq

/-- The steps keep the invariant. -/
theorem step (h : l.Frozen) {op : Op} (hstep : Life.Step l op l') (hcond : OneWorker l.validations op) :
    l'.Frozen := by
  cases hstep with
  | stay => exact h
  | read => exact ⟨h.voted, h.draft, h.staging, h.working, h.alone⟩
  | setCommittees cs => exact ⟨h.voted, h.draft, h.staging, h.working, h.alone⟩
  | startRelease hphase => exact ⟨voted_of_draft rfl, fun _ => rfl, h.staging, h.working, h.alone⟩
  | deleteRelease => exact hcond.elim
  | announce hphase =>
    refine ⟨?_, fun hwaiting => ?_, h.staging, h.working, h.alone⟩
    · rintro (heq | heq) <;> cases heq
    · have := h.draft hwaiting
      rw [hphase] at this
      cases this
  | addRevision hphase => exact ⟨voted_of_draft hphase, fun _ => hphase, h.staging, h.working, h.alone⟩
  | @quarantine env actor i a files id q hphase hid hq =>
    refine h.waitingRow id q _ hphase (fun i hi => ?_) fun t w hw hwork heq => ?_
    · rcases List.mem_append.1 hi with hi | hi
      · obtain ⟨r, hr, -⟩ := h.staging i hi
        refine .inl ⟨hi, fun heq => ?_⟩
        rw [heq, hid] at hr
        cases hr
      · exact .inr ⟨List.mem_singleton.1 hi, hq⟩
    · obtain ⟨r, hr, -⟩ := h.working t w hw hwork
      rw [heq, hid] at hr
      cases hr
  | @queueValidation id task q hq hid htask =>
    obtain ⟨r, hr, hstatus⟩ := h.staging id hid
    have hrow := h.waitingRow id { q with status := .pending } (l.staging.filter fun i => decide (i ≠ id))
      (h.phase_of_staging hid) (fun i hi => ?_) fun t w hw hwork heq => ?_
    · refine hrow.setStage (fun w hw => ?_) fun hw => by cases hw
      dsimp only at hw
      rw [htask] at hw
      cases hw
    · rw [List.mem_filter, decide_eq_true_eq] at hi
      exact .inl hi
    · -- the row of a worker is not staging
      obtain ⟨r', hr', hpending⟩ := h.working t w hw hwork
      rw [heq, hr] at hr'
      rw [← Option.some.inj hr', hstatus] at hpending
      cases hpending
  | loseUpload id =>
    exact ⟨h.voted, h.draft, fun i hi => h.staging i (List.mem_filter.1 hi).1, h.working, h.alone⟩
  | claimValidation v q hv hq hpending => exact h.claim hq hpending (hcond v hv)
  | @promote env task v q hv hstage hphase =>
    have hwork : v.working = true := by rw [Validation.working, hstage]
    have hdraft := h.phase_of_working hv hwork
    have hset : Life.Frozen { l with validations := Dict.set l.validations task { v with stage := .promoted } } := by
      refine h.setStage (fun w hw => ?_) fun _ => ⟨v, hv, hwork⟩
      rw [hv] at hw
      rw [← Option.some.inj hw]
    exact ⟨voted_of_draft hdraft, fun _ => hdraft, hset.staging, hset.working, hset.alone⟩
  | deleteQuarantined v hv hstage =>
    refine h.release hv (by rw [Validation.working, hstage]) rfl rfl (fun q hq => ?_) fun i hi => ?_
    · rw [Dict.get_pop, if_pos rfl] at hq
      cases hq
    · rw [Dict.get_pop, if_neg hi]
  | markFailed v q completed hv hstage =>
    refine h.release hv (by rw [Validation.working, hstage]) rfl rfl (fun r hr => ?_) fun i hi => ?_
    · rw [Dict.get_set, if_pos rfl] at hr
      rw [← Option.some.inj hr]
      exact ⟨nofun, nofun⟩
    · rw [Dict.get_set, if_neg hi]
  | idle v v' hv hid hworking =>
    refine h.setStage (fun w hw => ?_) fun hw => ?_
    · rw [hv] at hw
      rw [hid, Option.some.inj hw]
    · rw [hworking] at hw
      cases hw
  | endValidation task =>
    refine ⟨h.voted, h.draft, h.staging, fun t w hw hwork => ?_, fun t t' w w' hw hw' => ?_⟩
    · dsimp only at hw
      rw [Dict.get_pop] at hw
      split_ifs at hw
      exact h.working t w hw hwork
    · dsimp only at hw hw'
      rw [Dict.get_pop] at hw hw'
      split_ifs at hw hw'
      exact h.alone t t' w w' hw hw'
  | @clearQuarantine env actor id q hq hfailed =>
    refine h.setRow id (fun r hr => ?_) (fun i hi => ?_) (fun hstaging => ?_) fun t w hw hwork heq => ?_
    · rw [Dict.get_set, if_pos rfl] at hr
      rw [← Option.some.inj hr]
      exact ⟨nofun, nofun⟩
    · rw [Dict.get_set, if_neg hi]
    · obtain ⟨r, hr, hstatus⟩ := h.staging id hstaging
      rw [hq] at hr
      rw [← Option.some.inj hr, hfailed] at hstatus
      cases hstatus
    · obtain ⟨r, hr, hstatus⟩ := h.working t w hw hwork
      rw [heq, hq] at hr
      rw [← Option.some.inj hr, hfailed] at hstatus
      cases hstatus
  | startVote revision hphase hlatest hidle =>
    exact ⟨fun _ => ⟨revision, rfl, hlatest⟩, fun hwaiting => absurd hwaiting hidle, h.staging, h.working, h.alone⟩
  | castTrusted b hphase => exact ⟨h.voted, h.draft, h.staging, h.working, h.alone⟩
  | notPassed cs hcs hphase => exact ⟨voted_of_draft rfl, fun _ => rfl, h.staging, h.working, h.alone⟩
  | passed cs hcs hphase =>
    refine ⟨fun _ => h.voted (.inl hphase), fun hwaiting => ?_, h.staging, h.working, h.alone⟩
    have := h.draft hwaiting
    rw [hphase] at this
    cases this
  | firstRoundPassed cs hcs threadId hphase => exact ⟨h.voted, h.draft, h.staging, h.working, h.alone⟩

/-- No step adds a revision to a candidate or to a preview. -/
private theorem revisions_kept (h : l.Frozen) {op : Op} (hstep : Life.Step l op l')
    (hphase : l.standing.phase = some .releaseCandidate ∨ l.standing.phase = some .releasePreview) :
    ∀ n ∈ l'.standing.revisions, n ∈ l.standing.revisions := by
  have hnot : l.standing.phase ≠ some .releaseCandidateDraft := by
    intro hdraft
    rw [hdraft] at hphase
    rcases hphase with heq | heq <;> cases heq
  cases hstep with
  | deleteRelease => exact fun n hn => absurd hn List.not_mem_nil
  | announce => exact fun n hn => absurd hn List.not_mem_nil
  | addRevision hdraft => exact absurd hdraft hnot
  | promote v q hv hstage =>
    exact absurd (h.phase_of_working hv (by rw [Validation.working, hstage])) hnot
  | _ => exact fun n hn => hn

end Life.Frozen

/-- While a release is a candidate or a preview, its latest revision is the one that is voted on, no step adds a
revision, and no upload waits, in every run in which each upload has one worker at a time. -/
theorem votedRevision_frozen {cs : Committees} {revisionCounter voteCounter : Option Nat} {s : System}
    (hrun : Reaches (StepWhen System.step fun s op => OneWorker s.validations op)
      (System.init cs revisionCounter voteCounter) s) {r : Release} (hr : s.tables.release = some r)
    (hphase : r.phase = .releaseCandidate ∨ r.phase = .releasePreview) :
    (∃ n, r.votedRevisionNumber = some n ∧ s.tables.latestRevisionNumber = some n) ∧
      (∀ op, OneWorker s.validations op → ∀ n ∈ (s.step op).tables.revisions, n ∈ s.tables.revisions) ∧
      ∀ id q, Dict.get s.tables.quarantined id = some q → q.status ≠ .staging ∧ q.status ≠ .pending := by
  have hfrozen : s.life.Frozen :=
    Reaches.keeps (I := fun s => s.life.Frozen) (fun s op h hcond => h.step (s.step_life op) hcond) hrun
      (.init cs revisionCounter voteCounter)
  obtain ⟨hstanding, -, hrelease, -⟩ := standing_of_release hr
  have hphase' : s.life.standing.phase = some .releaseCandidate ∨ s.life.standing.phase = some .releasePreview :=
    hphase.imp (fun heq => hstanding.trans (congrArg some heq)) fun heq => hstanding.trans (congrArg some heq)
  refine ⟨?_, fun op _ => hfrozen.revisions_kept (s.step_life op) hphase', fun id q hq => ?_⟩
  · obtain ⟨n, hvoted, hlatest⟩ := hfrozen.voted hphase'
    exact ⟨n, hrelease.symm.trans hvoted, hlatest⟩
  · have hnot : ¬ s.life.standing.Awaiting := by
      intro hwaiting
      have := hfrozen.draft hwaiting
      rw [this] at hphase'
      rcases hphase' with heq | heq <;> cases heq
    exact ⟨fun hstatus => hnot ⟨id, q, hq, .inl hstatus⟩, fun hstatus => hnot ⟨id, q, hq, .inr hstatus⟩⟩

/-! ### An upload with two workers -/

/-- A release manager of the project. -/
def manager : Actor := ⟨"rm".toList, true⟩

/-- A committee that is not a podling, or is one, with the incubator's. -/
def committees (isPodling : Bool) : Committees where
  committee := some ⟨"example".toList, isPodling, ["rm".toList, "ann".toList]⟩
  incubator := some ⟨"incubator".toList, false, ["rm".toList, "ann".toList]⟩

/-- Nothing stands in the way of a transaction. -/
def clear (now : Int) : Env where
  now := now
  testMode := false
  projectKey := "example"
  versionKey := "1.0"
  projectActive := true
  policyVoteMode := .trusted
  tasksOngoing := 0
  blockerChecks := false
  fileCount := 1
  concernError := none
  firstRoundRecipients := ["dev@example.apache.org".toList]
  secondRoundRecipients := []
  votingRecipients := []
  archiveUrl := some "https://lists.apache.org/thread/t1".toList
  resolutionBypass := false
  emailVotePasses := false
  startVoteTemplate := []
  startVoteMail := fun _ => ([], [])
  voteEmailBody := fun _ => []

/-- A plain upload. -/
def upload : NewRevision := ⟨"rm".toList, none, none, false, false⟩

/-- A vote without options. -/
def plainVote : StartVote where
  emailTo := "dev@example.apache.org".toList
  voteDurationChoice := 72
  subject := []
  bodyData := []
  asfFullname := []
  permittedRecipients := none
  emailCc := []
  emailBcc := []
  secondRoundEmailTo := none
  expectedVoteMode := none
  expectedRevision := none
  notifyWhenFinished := false
  automaticResolveWhenFinished := false
  automaticPublishWhenResolved := false
  automaticPublishAsfUid := none
  downloadPathSuffix := none

/-- A release is started, and an upload to it is quarantined and promoted. -/
def promotedUpload : List Op :=
  [.startRelease (clear 1) manager false none (.ok ()), .read, .createRevision (clear 2) manager 0 upload (.ok false) 0,
    .createRevision (clear 3) manager 0 upload (.ok true) 1, .queueValidation 1 101, .claimValidation 101,
    .promote (clear 4) 101, .deleteQuarantined 101]

/-- A vote is started on the promoted upload. -/
def votedOnRun : List Op := promotedUpload ++ [.read, .startVote (clear 5) manager 1 plainVote]

/-- The state after that. -/
def votedOn : System := votedOnRun.foldl System.step (System.init (committees false) none none)

theorem votedRevision_frozen_votedOn : ∃ r, votedOn.tables.release = some r ∧
    ∃ n, r.votedRevisionNumber = some n ∧ votedOn.tables.latestRevisionNumber = some n := by
  have hrelease : votedOn.tables.release.map (·.phase) = some .releaseCandidate := by decide
  obtain ⟨r, hr, hphase⟩ := Option.map_eq_some_iff.1 hrelease
  have hrun : Throughout System.step (fun s op => OneWorker s.validations op) (System.init (committees false) none none)
      votedOnRun := by decide
  exact ⟨r, hr, (votedRevision_frozen (.foldl hrun) hr (.inl hphase)).1⟩

/-- The worker of the upload is lost before it reports, and the next upload gets the id of the deleted row.  The task
that is queued again and the new one both validate it, one of them fails, and after the start of the vote the other one
promotes the upload. -/
def promotedLateRun : List Op :=
  promotedUpload ++ [.loseWorker 101, .createRevision (clear 5) manager 0 upload (.ok true) 1, .queueValidation 1 102,
    .claimValidation 101, .claimValidation 102, .markFailed (clear 6) 102, .read,
    .startVote (clear 7) manager 1 plainVote, .promote (clear 8) 101]

/-- The state after that. -/
def promotedLate : System := promotedLateRun.foldl System.step (System.init (committees false) none none)

/-- The revision that is voted on is not the latest one. -/
theorem promotedLate_notFrozen : ¬ ∀ s, Reaches (StepWhen System.step fun _ _ => True)
    (System.init (committees false) none none) s → ∀ r, s.tables.release = some r →
      (r.phase = .releaseCandidate ∨ r.phase = .releasePreview) →
        s.tables.latestRevisionNumber = r.votedRevisionNumber := by
  intro h
  have hrun : Reaches (StepWhen System.step fun _ _ => True) (System.init (committees false) none none) promotedLate :=
    .foldl (.of_forall (fun _ _ => trivial) _ _)
  have hrelease : promotedLate.tables.release.map (fun r => (r.phase, r.votedRevisionNumber)) =
      some (.releaseCandidate, some 2) := by decide
  obtain ⟨r, hr, heq⟩ := Option.map_eq_some_iff.1 hrelease
  have hlatest : promotedLate.tables.latestRevisionNumber = some 3 := by decide
  have := h promotedLate hrun r hr (.inl (congrArg Prod.fst heq))
  rw [hlatest, show r.votedRevisionNumber = some 2 from congrArg Prod.snd heq] at this
  cases this

end TrustedReleases
