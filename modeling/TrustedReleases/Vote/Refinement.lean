import TrustedReleases.Vote.Life

/-!
# The system refines the life of a release

One lemma for each transaction says what it has done when it ends well; together they show that every step of the
system is one of the abstract model (`System.step_life`).
-/

namespace TrustedReleases

open Lib

variable {env : Env} {actor : Actor} {s : Tables} {v : View}

/-! ### Uploads that wait -/

private theorem pendingQuarantineCount_pos (h : s.standing.Awaiting) : 0 < s.pendingQuarantineCount := by
  obtain ⟨id, q, hq, hstatus⟩ := h
  refine List.length_pos_of_mem (a := id) (List.mem_filter.2 ⟨Dict.mem_keys_of_get hq, ?_⟩)
  have hq' : Dict.get s.quarantined id = some q := hq
  simp only [hq', hstatus, decide_true]

/-! ### Starting a vote -/

private theorem selectForStart_eq_some {promote : Bool} {phase : ReleasePhase} {revision : Nat} {thread : Option Str}
    {r : Release} (h : s.selectForStart promote phase revision thread = some r) :
    s.release = some r ∧ r.phase = phase ∧ s.latestRevisionNumber = some revision ∧
      (promote = false → (r.votedRevisionNumber = none ∨ r.votedRevisionNumber = some revision) ∧
        r.podlingThreadId = thread) := by
  unfold Tables.selectForStart at h
  cases hr : s.release with
  | none => rw [hr] at h; cases h
  | some r' =>
    rw [hr] at h
    dsimp only at h
    split_ifs at h with hselect
    obtain rfl := Option.some.inj h
    exact ⟨rfl, hselect⟩

private theorem startVoteNoCommit_ok {promote : Bool} {expectedRevision : Option Nat}
    {expectedVoteMode : Option VoteMode}
    {thread : Option Str} {started : Started}
    (h : startVoteNoCommit env actor s v promote expectedRevision expectedVoteMode thread = .ok started) :
    ∃ r revision mode, s.release = some r ∧ s.latestRevisionNumber = some revision ∧
      r.phase = (if promote then .releaseCandidateDraft else .releaseCandidate) ∧
      (promote = true → s.pendingQuarantineCount = 0) ∧ started.voteSeq = allocate s.voteCounter ∧
      started.tables = { s with
        release := some (r.startVote env.now promote (allocate s.voteCounter) mode revision)
        voteCounter := some (allocate s.voteCounter) } := by
  simp only [startVoteNoCommit] at h
  obtain ⟨_, -, h⟩ := bind_eq_ok h
  obtain ⟨_, -, h⟩ := bind_eq_ok h
  obtain ⟨revisionNumber, -, h⟩ := bind_eq_ok h
  obtain ⟨_, -, h⟩ := bind_eq_ok h
  obtain ⟨mode, -, h⟩ := bind_eq_ok h
  obtain ⟨_, -, h⟩ := bind_eq_ok h
  obtain ⟨_, hidle, h⟩ := bind_eq_ok h
  obtain ⟨_, -, h⟩ := bind_eq_ok h
  obtain ⟨_, -, h⟩ := bind_eq_ok h
  obtain ⟨_, -, h⟩ := bind_eq_ok h
  obtain ⟨r, hr, h⟩ := demand_bind_eq_ok.1 h
  obtain rfl := Except.ok.inj h
  obtain ⟨hrelease, hphase, hlatest, -⟩ := selectForStart_eq_some hr
  refine ⟨r, _, mode, hrelease, hlatest, hphase, fun hpromote => ?_, rfl, rfl⟩
  rw [if_pos hpromote, checkDraftIdle, raiseIf_bind_eq_ok] at hidle
  have := raiseIf_eq_ok.1 hidle.2
  omega

/-- Where the release stands does not depend on its tasks. -/
private theorem standing_addTask (now : Int) (args : VoteTaskArgs) : (s.addTask now args).standing = s.standing := rfl

private theorem standing_lockDownloadPath (a : StartVote) : (s.lockDownloadPath a).standing = s.standing := by
  unfold Tables.lockDownloadPath
  split
  · cases hr : s.release <;> simp [Tables.standing, Tables.currentVoteSeq, Tables.votedRevisionNumber, hr]
  · rfl

/-- A vote that was started with the release as a draft, or as a candidate for the second round. -/
private theorem start_ok {promote : Bool} {a : StartVote} {started : Started}
    (h : start env actor s v promote a = .ok started) :
    ∃ revision, s.standing.latest = some revision ∧ started.voteSeq = allocate s.voteCounter ∧
      s.standing.phase = some (if promote then .releaseCandidateDraft else .releaseCandidate) ∧
      (promote = true → ¬ s.standing.Awaiting) ∧
      started.tables.standing = if promote then s.standing.startVote revision else
        { s.standing with voteSeq := some (allocate s.voteCounter), voteCounter := some (allocate s.voteCounter) } := by
  simp only [start] at h
  obtain ⟨_, -, h⟩ := bind_eq_ok h
  obtain ⟨_, -, h⟩ := bind_eq_ok h
  obtain ⟨started', hstarted, h⟩ := bind_eq_ok h
  obtain ⟨committee, -, h⟩ := bind_eq_ok h
  obtain ⟨_, -, h⟩ := bind_eq_ok h
  obtain rfl := Except.ok.inj h
  obtain ⟨r, revision, mode, hr, hlatest, hphase, hidle, hseq, htables⟩ := startVoteNoCommit_ok hstarted
  refine ⟨revision, hlatest, hseq, ?_, fun hp hawaiting => ?_, ?_⟩
  · simp only [Tables.standing, hr, Option.map_some, hphase]
  · have := pendingQuarantineCount_pos hawaiting
    rw [hidle hp] at this
    exact absurd this (Nat.lt_irrefl 0)
  · rw [standing_addTask, standing_lockDownloadPath, htables]
    cases promote <;>
      simp [Tables.standing, Standing.startVote, Tables.currentVoteSeq, Tables.votedRevisionNumber, hr, Release.startVote]

/-! ### Resolving a vote -/

private theorem trustedVoteRound_eq (cs : Committees) (r : Release) :
    trustedVoteRound cs.committee r = cs.votingRound r.podlingThreadId := rfl

theorem votingRound_one {cs : Committees} {thread : Option Str} (h : cs.votingRound thread = some 1) :
    thread = none := by
  unfold Committees.votingRound at h
  split at h
  · cases thread with
    | none => rfl
    | some t => split at h <;> simp at h
  · cases h

private theorem selectForResolve_eq_some {loaded r : Release} {thread : Option Str}
    (h : s.selectForResolve loaded thread = some r) :
    s.release = some r ∧ r.phase = .releaseCandidate ∧ r.currentVoteSeq = loaded.currentVoteSeq ∧
      r.podlingThreadId = thread := by
  unfold Tables.selectForResolve at h
  cases hr : s.release with
  | none => rw [hr] at h; cases h
  | some r' =>
    rw [hr] at h
    dsimp only at h
    split_ifs at h with hselect
    obtain rfl := Option.some.inj h
    exact ⟨rfl, hselect⟩

private theorem resolveTransition_ok {loaded : Release} {thread newThread url : Option Str} {phase : ReleasePhase}
    {mode : Option VoteMode} {resolved : Option Int} {t : Tables}
    (h : resolveTransition env s loaded thread phase mode resolved newThread url = .ok t) :
    s.standing.phase = some .releaseCandidate ∧ s.standing.voteSeq = loaded.currentVoteSeq ∧
      s.standing.thread = thread ∧ t.standing = { s.standing with
        phase := some phase
        voted := if phase = .releaseCandidateDraft then none else s.standing.voted
        thread := newThread } := by
  simp only [resolveTransition, demand_bind_eq_ok] at h
  obtain ⟨r, hr, h⟩ := h
  obtain rfl := Except.ok.inj h
  obtain ⟨hrelease, hphase, hseq, hthread⟩ := selectForResolve_eq_some hr
  simp [Tables.standing, Tables.currentVoteSeq, Tables.votedRevisionNumber, hrelease, hphase, hseq, hthread,
    Release.resolveTransition]

/-- What a resolution with the round of the committees does to the release. -/
def Tables.ResolvesTo (s : Tables) (cs : Committees) (result : VoteResult) (resolved : Resolved) : Prop :=
  s.standing.phase = some .releaseCandidate ∧ resolved.votingRound = cs.votingRound s.standing.thread ∧
    ((result ≠ .passed ∧ resolved.tables.standing = s.standing.toDraft ∧ resolved.secondRoundVoteSeq = none) ∨
      (result = .passed ∧ resolved.votingRound ≠ some 1 ∧ resolved.tables.standing = s.standing.toPreview ∧
        resolved.secondRoundVoteSeq = none) ∨
      (result = .passed ∧ resolved.votingRound = some 1 ∧ resolved.secondRoundVoteSeq = some (allocate s.voteCounter) ∧
        ∃ threadId, resolved.tables.standing = s.standing.secondRound threadId))

private theorem transitionToDraft_ok {loaded : Release} {t : Tables} (h : transitionToDraft env s loaded = .ok t) :
    s.standing.phase = some .releaseCandidate ∧ s.standing.voteSeq = loaded.currentVoteSeq ∧
      s.standing.thread = loaded.podlingThreadId ∧ t.standing = s.standing.toDraft := resolveTransition_ok h

private theorem transitionToPreview_ok {loaded : Release} {t : Tables} (h : transitionToPreview env s loaded = .ok t) :
    s.standing.phase = some .releaseCandidate ∧ s.standing.voteSeq = loaded.currentVoteSeq ∧
      s.standing.thread = loaded.podlingThreadId ∧ t.standing = s.standing.toPreview := by
  simp only [transitionToPreview] at h
  obtain ⟨mode, -, h⟩ := bind_eq_ok h
  obtain ⟨hphase, hseq, hthread, ht⟩ := resolveTransition_ok h
  refine ⟨hphase, hseq, hthread, ht.trans ?_⟩
  rw [← hthread]
  rfl

private theorem transitionToSecondRound_ok {loaded : Release} {a : ResolveVote} {task : VoteTask} {threadId : Str}
    {template : Option Str} {started : Started}
    (h : transitionToSecondRound env actor s loaded a task threadId template = .ok started) :
    s.standing.phase = some .releaseCandidate ∧ s.standing.voteSeq = loaded.currentVoteSeq ∧
      s.standing.thread = none ∧ started.voteSeq = allocate s.voteCounter ∧ started.tables.standing = s.standing.secondRound threadId := by
  simp only [transitionToSecondRound] at h
  obtain ⟨mode, -, h⟩ := bind_eq_ok h
  obtain ⟨t, ht, h⟩ := bind_eq_ok h
  obtain ⟨v, -, h⟩ := bind_eq_ok h
  obtain ⟨_, -, h⟩ := bind_eq_ok h
  obtain ⟨revisionNumber, -, h⟩ := bind_eq_ok h
  obtain ⟨template, -, h⟩ := bind_eq_ok h
  obtain ⟨initiate, -, h⟩ := bind_eq_ok h
  obtain ⟨hphase, hloaded, hthread, ht⟩ := resolveTransition_ok ht
  obtain ⟨revision, -, hseq, -, -, hstarted⟩ := start_ok h
  have hcounter : t.voteCounter = s.voteCounter := congrArg Standing.voteCounter ht
  refine ⟨hphase, hloaded, hthread, hseq.trans (by rw [hcounter]), ?_⟩
  rw [if_neg Bool.false_ne_true, ht, hcounter] at hstarted
  rw [hstarted, ← hphase]
  rfl

private theorem candidate_eq_some {r : Release} (h : s.candidate = some r) :
    s.release = some r ∧ r.phase = .releaseCandidate := by
  rw [Tables.candidate, Option.filter_eq_some_iff] at h
  exact ⟨h.1, of_decide_eq_true h.2⟩

private theorem trustedTransition_ok {r : Release} {a : ResolveVote} {thread template : Option Str}
    {resolved : Resolved}
    (hr : s.release = some r) (h : trustedTransition env actor s r a thread template = .ok resolved) :
    s.ResolvesTo s.committees a.voteResult resolved := by
  have hthread : s.standing.thread = r.podlingThreadId := by simp [Tables.standing, hr]
  have hround : trustedVoteRound s.committees.committee r = s.committees.votingRound s.standing.thread := by
    rw [hthread, trustedVoteRound_eq]
  unfold trustedTransition at h
  dsimp only at h
  rw [hround] at h
  split_ifs at h with hsecond hpassed
  · obtain ⟨task, -, h⟩ := bind_eq_ok h
    obtain ⟨threadId, -, h⟩ := bind_eq_ok h
    obtain ⟨started, hstarted, h⟩ := bind_eq_ok h
    obtain rfl := Except.ok.inj h
    obtain ⟨hphase, -, -, hseq, ht⟩ := transitionToSecondRound_ok hstarted
    exact ⟨hphase, rfl, .inr (.inr ⟨hsecond.2, hsecond.1, congrArg some hseq, threadId, ht⟩)⟩
  · obtain ⟨t, ht, h⟩ := bind_eq_ok h
    obtain rfl := Except.ok.inj h
    obtain ⟨hphase, -, -, ht⟩ := transitionToPreview_ok ht
    exact ⟨hphase, rfl, .inr (.inl ⟨hpassed, fun hone => hsecond ⟨hone, hpassed⟩, ht, rfl⟩)⟩
  · obtain ⟨t, ht, h⟩ := bind_eq_ok h
    obtain rfl := Except.ok.inj h
    obtain ⟨hphase, -, -, ht⟩ := transitionToDraft_ok ht
    exact ⟨hphase, rfl, .inl ⟨hpassed, ht, rfl⟩⟩

private theorem resolveTrusted_ok {a : ResolveVote} {thread template : Option Str} {resolved : Resolved}
    (h : resolveTrusted env actor s a thread template = .ok resolved) :
    s.ResolvesTo s.committees a.voteResult resolved ∧ ∀ n, a.expectedVoteSeq = some n → s.standing.voteSeq = some n := by
  simp only [resolveTrusted] at h
  obtain ⟨r, hr, h⟩ := demand_bind_eq_ok.1 h
  obtain ⟨_, -, h⟩ := bind_eq_ok h
  obtain ⟨mode, -, h⟩ := bind_eq_ok h
  obtain ⟨_, -, h⟩ := bind_eq_ok h
  obtain ⟨voteSeq, hseq, h⟩ := demand_bind_eq_ok.1 h
  obtain ⟨hexpected, h⟩ := raiseIf_bind_eq_ok.1 h
  obtain ⟨committee, -, h⟩ := bind_eq_ok h
  obtain ⟨_, -, h⟩ := bind_eq_ok h
  obtain ⟨_, -, h⟩ := bind_eq_ok h
  have hrelease := (candidate_eq_some hr).1
  refine ⟨trustedTransition_ok hrelease h, fun n hn => ?_⟩
  have hstanding : s.standing.voteSeq = some voteSeq := by simp [Tables.standing, Tables.currentVoteSeq, hrelease, hseq]
  rw [hn] at hexpected
  rw [hstanding]
  by_contra hne
  exact hexpected ⟨rfl, Ne.symm hne⟩

private theorem resolveRelease_ok {a : ResolveVote} {task : VoteTask} {template : Option Str} {resolved : Resolved}
    (h : resolveRelease env actor s v a task template = .ok resolved) :
    s.ResolvesTo v.committees a.voteResult resolved ∧ s.standing.voteSeq = v.release.currentVoteSeq := by
  unfold resolveRelease at h
  dsimp only at h
  rw [trustedVoteRound_eq] at h
  split_ifs at h with hsecond hpassed
  · obtain ⟨_, -, h⟩ := bind_eq_ok h
    obtain ⟨archiveUrl, -, h⟩ := bind_eq_ok h
    obtain ⟨started, hstarted, h⟩ := bind_eq_ok h
    obtain rfl := Except.ok.inj h
    obtain ⟨hphase, hloaded, hthread, hseq, ht⟩ := transitionToSecondRound_ok hstarted
    have hround : v.committees.votingRound v.release.podlingThreadId = v.committees.votingRound s.standing.thread := by
      rw [hthread, votingRound_one hsecond.1]
    exact ⟨⟨hphase, hround, .inr (.inr ⟨hsecond.2, hsecond.1, congrArg some hseq, _, ht⟩)⟩, hloaded⟩
  · obtain ⟨_, -, h⟩ := bind_eq_ok h
    obtain ⟨t, ht, h⟩ := bind_eq_ok h
    obtain rfl := Except.ok.inj h
    obtain ⟨hphase, hloaded, hthread, ht⟩ := transitionToPreview_ok ht
    refine ⟨⟨hphase, by rw [hthread], .inr (.inl ⟨hpassed, fun hone => hsecond ⟨hone, hpassed⟩, ht, rfl⟩)⟩, hloaded⟩
  · obtain ⟨_, -, h⟩ := bind_eq_ok h
    obtain ⟨t, ht, h⟩ := bind_eq_ok h
    obtain rfl := Except.ok.inj h
    obtain ⟨hphase, hloaded, hthread, ht⟩ := transitionToDraft_ok ht
    exact ⟨⟨hphase, by rw [hthread], .inl ⟨hpassed, ht, rfl⟩⟩, hloaded⟩

private theorem resolveEmail_ok {a : ResolveVote} {template : Option Str} {resolved : Resolved}
    (h : resolveEmail env actor s v a template = .ok resolved) :
    s.ResolvesTo v.committees a.voteResult resolved ∧
      ∀ n, a.expectedVoteSeq = some n → s.standing.voteSeq = none ∨ s.standing.voteSeq = some n := by
  simp only [resolveEmail] at h
  obtain ⟨hexpected, h⟩ := raiseIf_bind_eq_ok.1 h
  obtain ⟨task, -, h⟩ := bind_eq_ok h
  obtain ⟨committee, -, h⟩ := bind_eq_ok h
  obtain ⟨_, -, h⟩ := bind_eq_ok h
  obtain ⟨_, -, h⟩ := bind_eq_ok h
  obtain ⟨hresolves, hloaded⟩ := resolveRelease_ok h
  refine ⟨hresolves, fun n hn => ?_⟩
  rw [hloaded]
  cases hseq : v.release.currentVoteSeq with
  | none => exact .inl rfl
  | some m =>
    refine .inr ?_
    by_contra hne
    exact hexpected (by simp [hn, hseq, Option.some_inj.not.1 hne])

/-- A resolution goes by the committees of the release, as they are or as the request has read them. -/
theorem resolve_ok {a : ResolveVote} {resolved : Resolved} (h : resolve env actor s v a = .ok resolved) :
    ∃ cs, (cs = s.committees ∨ cs = v.committees) ∧ s.ResolvesTo cs a.voteResult resolved ∧
      ∀ n, a.expectedVoteSeq = some n → s.standing.voteSeq = none ∨ s.standing.voteSeq = some n := by
  simp only [resolve] at h
  obtain ⟨_, -, h⟩ := bind_eq_ok h
  obtain ⟨mode, -, h⟩ := bind_eq_ok h
  cases mode with
  | trusted =>
    obtain ⟨hresolves, hexpected⟩ := resolveTrusted_ok h
    exact ⟨s.committees, .inl rfl, hresolves, fun n hn => .inr (hexpected n hn)⟩
  | email =>
    obtain ⟨hresolves, hexpected⟩ := resolveEmail_ok h
    exact ⟨v.committees, .inr rfl, hresolves, hexpected⟩

/-! ### Casting a ballot -/

private theorem castRound_eq (cs : Committees) (c : Committee) (hc : cs.committee = some c) (r : Release) :
    castRound c r = cs.votingRound r.podlingThreadId := by
  unfold castRound Committees.votingRound
  rw [hc]
  cases r.podlingThreadId <;> rfl

/-- A ballot that was stored. -/
theorem castTrusted_ok {c : CastVote} {t : Tables} (h : castTrusted env actor s c = .ok t) :
    ∃ b : BallotPaper, s.standing.phase = some .releaseCandidate ∧ s.standing.voteSeq = some b.voteSeq ∧
      b.voteRound = s.standing.votingRound ∧ s.standing.latest = some b.revisionNumberAtCast ∧
      b.voterAsfUid = actor.asfUid ∧ b.id = nextBallotId s.ballots ∧
      (∀ n, c.expectedVoteSeq = some n → n = b.voteSeq) ∧
      t.standing = { s.standing with ballots := s.ballots ++ [b] } := by
  simp only [castTrusted] at h
  obtain ⟨r, hr, h⟩ := demand_bind_eq_ok.1 h
  obtain ⟨_, -, h⟩ := bind_eq_ok h
  obtain ⟨_, -, h⟩ := bind_eq_ok h
  obtain ⟨mode, -, h⟩ := bind_eq_ok h
  obtain ⟨_, -, h⟩ := bind_eq_ok h
  obtain ⟨voteSeq, hseq, h⟩ := demand_bind_eq_ok.1 h
  obtain ⟨hexpected, h⟩ := raiseIf_bind_eq_ok.1 h
  obtain ⟨committee, hcommittee, h⟩ := demand_bind_eq_ok.1 h
  obtain ⟨revisionNumber, hlatest, h⟩ := demand_bind_eq_ok.1 h
  obtain ⟨isBinding, -, h⟩ := bind_eq_ok h
  obtain ⟨task, -, h⟩ := bind_eq_ok h
  obtain ⟨thread, -, h⟩ := bind_eq_ok h
  obtain rfl := Except.ok.inj h
  obtain ⟨hrelease, hphase⟩ := candidate_eq_some hr
  refine ⟨_, ?_, ?_, ?_, ?_, rfl, rfl, fun n hn => ?_, rfl⟩
  · simp [Tables.standing, hrelease, hphase]
  · simp [Tables.standing, Tables.currentVoteSeq, hrelease, hseq]
  · simpa [Standing.votingRound, Tables.standing, hrelease] using castRound_eq s.committees committee hcommittee r
  · exact hlatest
  · rw [hn] at hexpected
    by_contra hne
    exact hexpected ⟨rfl, fun heq => hne (Option.some.inj heq)⟩

/-! ### Releases and uploads -/

private theorem startRelease_ok {expedited : Bool} {suffix : Option Str} {checks : Except VoteError Unit} {t : Tables}
    (h : startRelease env actor s expedited suffix checks = .ok t) :
    s.standing.phase = none ∧ t.standing = s.standing.fresh := by
  simp only [startRelease] at h
  obtain ⟨_, -, h⟩ := bind_eq_ok h
  obtain ⟨_, -, h⟩ := bind_eq_ok h
  obtain ⟨_, hnone, h⟩ := bind_eq_ok h
  obtain ⟨_, -, h⟩ := bind_eq_ok h
  obtain rfl := Except.ok.inj h
  cases hr : s.release with
  | none => simp [Tables.standing, Standing.fresh, Tables.currentVoteSeq, Tables.votedRevisionNumber, Release.draft, hr]
  | some r => rw [hr] at hnone; cases hnone

private theorem deleteRelease_ok {phase : Option ReleasePhase} {t : Tables}
    (h : deleteRelease env actor s phase = .ok t) :
    t.standing = s.standing.deleted (env.testMode && s.committees.isTest) := by
  simp only [deleteRelease] at h
  obtain ⟨r, -, h⟩ := bind_eq_ok h
  obtain ⟨_, -, h⟩ := bind_eq_ok h
  obtain ⟨_, -, h⟩ := bind_eq_ok h
  obtain ⟨_, -, h⟩ := bind_eq_ok h
  obtain rfl := Except.ok.inj h
  rfl

private theorem promoteInDatabase_ok {number : Nat} {date : Int} {t : Tables}
    (h : promoteInDatabase s number date = .ok t) :
    s.standing.phase = some .releasePreview ∧ t.standing = s.standing.announced := by
  unfold promoteInDatabase at h
  cases hr : s.release with
  | none => rw [hr] at h; cases h
  | some r =>
    rw [hr] at h
    dsimp only at h
    split_ifs at h with hselect
    obtain rfl := Except.ok.inj h
    simp [Tables.standing, Standing.announced, Tables.currentVoteSeq, Tables.votedRevisionNumber, hr, hselect.1]

private theorem announce_ok {number : Option Nat} {published : Except VoteError Unit} {t : Tables}
    (h : announce env actor s v number published = .ok t) :
    s.standing.phase = some .releasePreview ∧ t.standing = s.standing.announced := by
  simp only [announce] at h
  obtain ⟨_, -, h⟩ := bind_eq_ok h
  obtain ⟨_, -, h⟩ := bind_eq_ok h
  obtain ⟨_, -, h⟩ := bind_eq_ok h
  obtain ⟨latest, -, h⟩ := bind_eq_ok h
  obtain ⟨_, -, h⟩ := bind_eq_ok h
  obtain ⟨_, -, h⟩ := bind_eq_ok h
  obtain ⟨_, -, h⟩ := bind_eq_ok h
  exact promoteInDatabase_ok h

private theorem standing_commitNewRevision (now : Int) :
    (s.commitNewRevision now).standing = s.standing.addRevision := by
  cases hr : s.release with
  | none =>
    simp [Tables.standing, Tables.commitNewRevision, Standing.addRevision, Tables.currentVoteSeq,
      Tables.votedRevisionNumber, hr]
  | some r =>
    by_cases hnow : r.activityAt ≤ now <;>
      simp [Tables.standing, Tables.commitNewRevision, Standing.addRevision, Tables.currentVoteSeq,
        Tables.votedRevisionNumber, hr, hnow]

private theorem finaliseRevision_ok {t : Tables} (h : finaliseRevision env s = .ok t) :
    s.standing.phase ≠ none ∧ t.standing = s.standing.addRevision := by
  simp only [finaliseRevision, demand_bind_eq_ok] at h
  obtain ⟨r, hr, h⟩ := h
  obtain rfl := Except.ok.inj h
  exact ⟨by simp [Tables.standing, hr], standing_commitNewRevision env.now⟩

/-- What `create_revision_with_quarantine` stores, it stores for a draft. -/
private theorem createRevisionWithQuarantine_ok {a : NewRevision} {files : Except VoteError Bool} {id token : Nat}
    {stored : Stored}
    (h : createRevisionWithQuarantine env actor s v [.releaseCandidateDraft] a files id token = .ok stored) :
    s.standing.phase = some .releaseCandidateDraft ∧
      (stored = .revision (s.commitNewRevision env.now) ∨ ∃ q : Quarantined, q.status = .staging ∧
        stored = .quarantined { s with quarantined := Dict.set s.quarantined id q }) := by
  simp only [createRevisionWithQuarantine] at h
  obtain ⟨_, -, h⟩ := bind_eq_ok h
  obtain ⟨_, -, h⟩ := bind_eq_ok h
  obtain ⟨_, -, h⟩ := bind_eq_ok h
  obtain ⟨quarantine, -, h⟩ := bind_eq_ok h
  obtain ⟨r, hr, h⟩ := demand_bind_eq_ok.1 h
  obtain ⟨_, hphase, h⟩ := bind_eq_ok h
  obtain ⟨_, -, h⟩ := bind_eq_ok h
  obtain ⟨_, -, h⟩ := bind_eq_ok h
  rw [ensurePhaseAllowed, raiseIf_eq_ok, not_not, List.mem_singleton] at hphase
  refine ⟨by simp [Tables.standing, hr, hphase], ?_⟩
  cases quarantine with
  | false =>
    obtain rfl := Except.ok.inj h
    exact .inl rfl
  | true =>
    obtain ⟨_, -, h⟩ := bind_eq_ok h
    obtain rfl := Except.ok.inj h
    exact .inr ⟨_, rfl, rfl⟩

private theorem markFailed_ok {id : Nat} {q : Quarantined} {t : Tables} (h : markFailed env s id q = .ok t) :
    t = { s with quarantined := Dict.set s.quarantined id { q with status := .failed, completed := some env.now } } := by
  simp only [markFailed, demand_bind_eq_ok] at h
  obtain ⟨r, -, h⟩ := h
  exact (Except.ok.inj h).symm

private theorem clearQuarantine_ok {id : Nat} {t : Tables} (h : clearQuarantine env actor s id = .ok t) :
    ∃ q, Dict.get s.quarantined id = some q ∧ q.status = .failed ∧
      t = { s with quarantined := Dict.set s.quarantined id { q with status := .acknowledged } } := by
  simp only [clearQuarantine] at h
  obtain ⟨r, -, h⟩ := bind_eq_ok h
  obtain ⟨_, -, h⟩ := bind_eq_ok h
  obtain ⟨_, -, h⟩ := bind_eq_ok h
  obtain ⟨q, hq, h⟩ := demand_bind_eq_ok.1 h
  obtain rfl := Except.ok.inj h
  rw [Option.filter_eq_some_iff] at hq
  exact ⟨q, hq.1, of_decide_eq_true hq.2, rfl⟩

/-! ### The steps -/

namespace System

variable {s : System} {P : System → Prop}

theorem commit_of {x : Except VoteError Tables} (stay : P s) (done : ∀ t, x = .ok t → P { s with tables := t }) :
    P (s.commit x) := by
  unfold commit
  cases hx : x with
  | ok t => exact done t hx
  | error e => exact stay

theorem onView_of {i : Nat} {f : View → System} (stay : P s) (done : ∀ v ∈ s.seen, P (f v)) : P (s.onView i f) := by
  unfold onView
  cases hv : s.seen[i]? with
  | some v => exact done v (List.mem_of_getElem? hv)
  | none => exact stay

private theorem onTask_of {task : Nat} {f : Validation → System} (stay : P s)
    (done : ∀ v, Dict.get s.validations task = some v → P (f v)) : P (s.onTask task f) := by
  unfold onTask
  cases hv : Dict.get s.validations task with
  | some v => exact done v hv
  | none => exact stay

private theorem known_mem {v : View} {cs : Committees} (hv : v ∈ s.seen)
    (h : cs = s.tables.committees ∨ cs = v.committees) : cs ∈ s.life.standing.committees :: s.life.known := by
  rcases h with rfl | rfl
  · exact List.mem_cons_self
  · exact List.mem_cons_of_mem _ (List.mem_map_of_mem hv)

private theorem createRevision_life {v : View} (i : Nat) (a : NewRevision) (files : Except VoteError Bool) (id : Nat) :
    Life.Step s.life (.createRevision env actor i a files id) (s.createRevision env actor v a files id).life := by
  unfold createRevision
  split
  · rename_i t ht
    obtain ⟨hphase, hstored⟩ := createRevisionWithQuarantine_ok ht
    obtain heq | ⟨q, -, heq⟩ := hstored
    · obtain rfl := Stored.revision.inj heq
      simp only [life, standing_commitNewRevision]
      exact .addRevision (l := s.life) hphase
    · cases heq
  · rename_i t ht
    obtain ⟨hphase, hstored⟩ := createRevisionWithQuarantine_ok ht
    obtain heq | ⟨q, hq, heq⟩ := hstored
    · cases heq
    · obtain rfl := Stored.quarantined.inj heq
      split_ifs with hid
      · exact .quarantine q hphase (Option.isNone_iff_eq_none.1 hid) hq
      · exact .stay _ _
  · exact .stay _ _

private theorem claimValidation_life {task : Nat} {v : Validation} (hv : Dict.get s.validations task = some v) :
    Life.Step s.life (.claimValidation task) (s.claimValidation task v).life := by
  have hidle : Life.Step s.life (.claimValidation task) (s.setStage task v .finished).life := .idle v _ hv rfl rfl
  unfold claimValidation
  split
  · split
    · rename_i q hq
      split_ifs with hpending
      · exact .claimValidation v q hv hq hpending
      · exact hidle
    · exact hidle
  · exact .stay _ _

private theorem promote_life {task : Nat} {v : Validation} (hv : Dict.get s.validations task = some v) :
    Life.Step s.life (.promote env task) (s.promote env task v).life := by
  unfold promote
  split
  · rename_i q hstage
    split_ifs
    · split
      · rename_i t ht
        obtain ⟨hphase, hstanding⟩ := finaliseRevision_ok ht
        simp only [life, hstanding]
        exact .promote (l := s.life) v q hv hstage hphase
      · exact .stay _ _
    · exact .stay _ _
  · exact .stay _ _

private theorem deleteQuarantined_life {task : Nat} {v : Validation} (hv : Dict.get s.validations task = some v) :
    Life.Step s.life (.deleteQuarantined task) (s.deleteQuarantined task v).life := by
  unfold deleteQuarantined
  split
  · rename_i hstage
    exact .deleteQuarantined v hv hstage
  · exact .stay _ _

private theorem markFailed_life {task : Nat} {v : Validation} (hv : Dict.get s.validations task = some v) :
    Life.Step s.life (.markFailed env task) (s.markFailed env task v).life := by
  unfold markFailed
  split
  · rename_i q hstage
    split
    · rename_i t ht
      obtain rfl := markFailed_ok ht
      exact .markFailed v q _ hv hstage
    · exact .stay _ _
  · exact .stay _ _

private theorem removeDirectory_life (v : Validation) : (s.removeDirectory v).life = s.life := by
  unfold removeDirectory
  split <;> rfl

private theorem queueValidation_life (id task : Nat) :
    Life.Step s.life (.queueValidation id task) (s.queueValidation id task).life := by
  unfold queueValidation
  split
  · rename_i t ht
    obtain ⟨q, hq, rfl⟩ := Option.map_eq_some_iff.1 ht
    split_ifs with h
    · exact .queueValidation q hq h.1 (Option.isNone_iff_eq_none.1 h.2)
    · exact .stay _ _
  · exact .stay _ _

private theorem startVote_life {v : View} (i : Nat) (a : StartVote) :
    Life.Step s.life (.startVote env actor i a) (s.startVote env actor a v).life := by
  unfold startVote
  split
  · rename_i started hstarted
    obtain ⟨revision, hlatest, hseq, hphase, hidle, hstanding⟩ := start_ok hstarted
    simp only [life, hstanding, hseq, if_true]
    exact .startVote (l := s.life) revision hphase hlatest (hidle rfl)
  · exact .stay _ _

private theorem castTrusted_life (c : CastVote) :
    Life.Step s.life (.castTrusted env actor c) (s.castTrusted env actor c).life := by
  refine commit_of (P := fun s' => Life.Step s.life _ s'.life) (.stay _ _) fun t ht => ?_
  obtain ⟨b, hphase, hseq, hround, hlatest, hvoter, hid, -, hstanding⟩ := castTrusted_ok ht
  simp only [life, hstanding]
  exact .castTrusted (l := s.life) b hphase hseq hround hlatest hvoter hid

private theorem resolve_life {v : View} (hv : v ∈ s.seen) (i : Nat) (a : ResolveVote) :
    Life.Step s.life (.resolve env actor i a) (s.resolve env actor a v).life := by
  unfold resolve
  split
  · rename_i res hres
    obtain ⟨cs, hcs, ⟨hphase, hround, hcases⟩, -⟩ := resolve_ok hres
    obtain ⟨hresult, hstanding, hsecond⟩ | ⟨hresult, hone, hstanding, hsecond⟩ |
      ⟨hresult, hone, hsecond, threadId, hstanding⟩ := hcases
    · simp only [life, hstanding, hsecond, hround, Option.toList_none, List.map_nil, List.append_nil]
      exact .notPassed (l := s.life) cs (known_mem hv hcs) hphase hresult
    · simp only [life, hstanding, hsecond, hround, hresult, Option.toList_none, List.map_nil, List.append_nil]
      exact .passed (l := s.life) cs (known_mem hv hcs) hphase hresult fun heq => hone (hround.trans heq)
    · simp only [life, hstanding, hsecond, hone, hresult, Option.toList_some, List.map_cons, List.map_nil]
      exact .firstRoundPassed (l := s.life) cs (known_mem hv hcs) threadId hphase hresult (hround.symm.trans hone)
  · exact .stay _ _

/-- Every step of the system is a step of the abstract model. -/
theorem step_life (s : System) (op : Op) : Life.Step s.life op (s.step op).life := by
  have stay := fun op => Life.Step.stay s.life op
  cases op with
  | read =>
    cases hr : s.tables.view with
    | none => simpa [step, life, hr] using stay .read
    | some v =>
      obtain ⟨r, hr', rfl⟩ := Option.map_eq_some_iff.1 hr
      simpa [step, life, hr, Tables.standing] using Life.Step.read s.life
  | setCommittees cs => exact .setCommittees s.life cs
  | setTasks tasks => exact stay _
  | startRelease env actor expedited suffix checks =>
    refine commit_of (P := fun s' => Life.Step s.life _ s'.life) (stay _) fun t ht => ?_
    obtain ⟨hphase, hstanding⟩ := startRelease_ok ht
    simp only [life, hstanding]
    exact .startRelease (l := s.life) hphase
  | deleteRelease env actor phase =>
    simp only [step, deleteRelease]
    split
    · rename_i t ht
      simp only [life, deleteRelease_ok ht]
      exact .deleteRelease (l := s.life) _
    · exact stay _
  | announce env actor i number published =>
    refine onView_of (P := fun s' => Life.Step s.life _ s'.life) (stay _) fun v _ => ?_
    refine commit_of (P := fun s' => Life.Step s.life _ s'.life) (stay _) fun t ht => ?_
    obtain ⟨hphase, hstanding⟩ := announce_ok ht
    simp only [life, hstanding]
    exact .announce (l := s.life) hphase
  | createRevision env actor i a files id =>
    exact onView_of (P := fun s' => Life.Step s.life _ s'.life) (stay _) fun v _ => createRevision_life i a files id
  | queueValidation id task => exact queueValidation_life id task
  | loseUpload id => exact .loseUpload s.life id
  | claimValidation task =>
    exact onTask_of (P := fun s' => Life.Step s.life _ s'.life) (stay _) fun v hv => claimValidation_life hv
  | promote env task =>
    exact onTask_of (P := fun s' => Life.Step s.life _ s'.life) (stay _) fun v hv => promote_life hv
  | deleteQuarantined task =>
    exact onTask_of (P := fun s' => Life.Step s.life _ s'.life) (stay _) fun v hv => deleteQuarantined_life hv
  | markFailed env task =>
    exact onTask_of (P := fun s' => Life.Step s.life _ s'.life) (stay _) fun v hv => markFailed_life hv
  | removeDirectory task =>
    refine onTask_of (P := fun s' => Life.Step s.life _ s'.life) (stay _) fun v _ => ?_
    rw [removeDirectory_life]
    exact stay _
  | loseWorker task =>
    exact onTask_of (P := fun s' => Life.Step s.life _ s'.life) (stay _) fun v hv => .idle v _ hv rfl rfl
  | endValidation task => exact .endValidation s.life task
  | clearQuarantine env actor id =>
    refine commit_of (P := fun s' => Life.Step s.life _ s'.life) (stay _) fun t ht => ?_
    obtain ⟨q, hq, hfailed, rfl⟩ := clearQuarantine_ok ht
    exact .clearQuarantine q hq hfailed
  | startVote env actor i a =>
    exact onView_of (P := fun s' => Life.Step s.life _ s'.life) (stay _) fun v _ => startVote_life i a
  | castTrusted env actor c => exact castTrusted_life c
  | resolve env actor i a =>
    exact onView_of (P := fun s' => Life.Step s.life _ s'.life) (stay _) fun v hv => resolve_life hv i a

end System

end TrustedReleases
