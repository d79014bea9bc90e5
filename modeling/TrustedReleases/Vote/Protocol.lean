import TrustedReleases.Vote.OneBallot

/-!
# The vote protocol

Votes are numbered in the order of their starts, a vote is resolved once and takes no ballot afterwards, and a podling's
release becomes a preview only by two votes in a row that passed on one revision (`vote_safety`).  A number comes again
only when a test release is deleted, with its counters (`testRelease_reusesNumber`), and only what goes by the numbers
needs that none is.
-/

namespace TrustedReleases

open Lib

/-- The committees stay as they are. -/
def KeepsCommittees : Op → Prop
  | .setCommittees _ => False
  | _ => True

/-- The counters of the release are not deleted, and the committees stay as they are. -/
def Kept (t : Standing) : Op → Prop
  | .deleteRelease env _ _ => (env.testMode && t.committees.isTest) = false
  | .setCommittees _ => False
  | _ => True

instance decidableKept (t : Standing) (op : Op) : Decidable (Kept t op) :=
  match op with
  | .deleteRelease env _ _ => inferInstanceAs (Decidable ((env.testMode && t.committees.isTest) = false))
  | .setCommittees _ => .isFalse id
  | .read | .setTasks _ | .startRelease .. | .announce .. | .createRevision .. | .queueValidation .. | .loseUpload _
  | .claimValidation _ | .promote .. | .deleteQuarantined _ | .markFailed .. | .removeDirectory _ | .loseWorker _
  | .endValidation _ | .clearQuarantine .. | .startVote .. | .castTrusted .. | .resolve .. => .isTrue trivial

instance decidableKeepsCommittees (op : Op) : Decidable (KeepsCommittees op) :=
  match op with
  | .setCommittees _ => .isFalse id
  | .deleteRelease .. | .read | .setTasks _ | .startRelease .. | .announce .. | .createRevision .. | .queueValidation ..
  | .loseUpload _ | .claimValidation _ | .promote .. | .deleteQuarantined _ | .markFailed .. | .removeDirectory _
  | .loseWorker _ | .endValidation _ | .clearQuarantine .. | .startVote .. | .castTrusted .. | .resolve .. =>
    .isTrue trivial

/-- The numbers of the votes that were started. -/
def startedSeqs (history : List VoteEvent) : List Nat :=
  history.filterMap fun e => match e with
    | .started n => some n
    | .resolved _ _ _ _ => none

/-- The numbers of the votes that were resolved. -/
def resolvedSeqs (history : List VoteEvent) : List Nat :=
  history.filterMap fun e => match e with
    | .started _ => none
    | .resolved n _ _ _ => some n

@[simp] theorem startedSeqs_append (a b : List VoteEvent) : startedSeqs (a ++ b) = startedSeqs a ++ startedSeqs b :=
  List.filterMap_append

@[simp] theorem resolvedSeqs_append (a b : List VoteEvent) : resolvedSeqs (a ++ b) = resolvedSeqs a ++ resolvedSeqs b :=
  List.filterMap_append

@[simp] theorem startedSeqs_started (n : Nat) : startedSeqs [.started n] = [n] := rfl

@[simp] theorem resolvedSeqs_started (n : Nat) : resolvedSeqs [.started n] = [] := rfl

@[simp] theorem startedSeqs_resolved (n : Nat) (round : Option Nat) (result : VoteResult) (revision : Option Nat) :
    startedSeqs [.resolved n round result revision] = [] := rfl

@[simp] theorem resolvedSeqs_resolved (n : Nat) (round : Option Nat) (result : VoteResult) (revision : Option Nat) :
    resolvedSeqs [.resolved n round result revision] = [n] := rfl

/-- The last thing that happened is that the first round `m` was passed and the second one started, both on the
revision. -/
def InSecondRound (history : List VoteEvent) (m : Nat) (revision : Nat) : Prop :=
  ∃ before, history = before ++ [.resolved m (some 1) .passed (some revision), .started (m + 1)]

/-- The last thing that happened is that two rounds in a row were passed, on the revision. -/
def PassedTwice (history : List VoteEvent) (revision : Nat) : Prop :=
  ∃ before m, history = before ++ [.resolved m (some 1) .passed (some revision), .started (m + 1),
    .resolved (m + 1) (some 2) .passed (some revision)]

/-- The committee of the project is a podling. -/
def Committees.IsPodling (cs : Committees) : Prop := ∃ c, cs.committee = some c ∧ c.isPodling = true

private theorem votingRound_two {cs : Committees} (h : cs.IsPodling) {thread : Option Str} (hthread : thread ≠ none) :
    cs.votingRound thread = some 2 := by
  obtain ⟨c, hc, hpodling⟩ := h
  obtain ⟨t, rfl⟩ := Option.ne_none_iff_exists'.1 hthread
  simp [Committees.votingRound, hc, hpodling]

private theorem votingRound_of_none {cs : Committees} (h : cs.IsPodling) : cs.votingRound none = some 1 := by
  obtain ⟨c, hc, hpodling⟩ := h
  simp [Committees.votingRound, hc, hpodling]

/-! ### The rounds -/

/-- The current vote of a candidate has the last number that was given out, and a podling's candidate with a thread is
in the second round. -/
structure Life.Rounds (l : Life) : Prop where
  known : ∀ cs ∈ l.known, cs = l.standing.committees
  thread : l.standing.phase = none ∨ l.standing.phase = some .releaseCandidateDraft → l.standing.thread = none
  current : l.standing.phase = some .releaseCandidate → ∃ n revision, l.standing.voteSeq = some n ∧
    l.standing.voteCounter = some n ∧ l.standing.voted = some revision
  second : l.standing.phase = some .releaseCandidate → l.standing.thread ≠ none → ∃ m revision,
    l.standing.voteSeq = some (m + 1) ∧ l.standing.voted = some revision ∧ InSecondRound l.history m revision
  preview : l.standing.phase = some .releasePreview → l.standing.committees.IsPodling →
    ∃ revision, l.standing.voted = some revision ∧ PassedTwice l.history revision

namespace Life.Rounds

variable {l l' : Life}

theorem init (cs : Committees) (revisionCounter voteCounter : Option Nat) :
    (System.init cs revisionCounter voteCounter).life.Rounds where
  known := by intro cs h; cases h
  thread := fun _ => rfl
  current := by intro h; cases h
  second := by intro h; cases h
  preview := by intro h; cases h

/-- Outside of votes. -/
private theorem of_draft {t : Standing} {known : List Committees} {staging : List Nat}
    {validations : Dict Nat Validation} {history : List VoteEvent} (hknown : ∀ cs ∈ known, cs = t.committees)
    (hphase : t.phase ≠ some .releaseCandidate) (hpreview : t.phase ≠ some .releasePreview)
    (hthread : t.phase = none ∨ t.phase = some .releaseCandidateDraft → t.thread = none) :
    Life.Rounds ⟨t, known, staging, validations, history⟩ where
  known := hknown
  thread := hthread
  current := fun heq => absurd heq hphase
  second := fun heq => absurd heq hphase
  preview := fun heq => absurd heq hpreview

theorem known_eq (h : l.Rounds) {cs : Committees} (hcs : cs ∈ l.standing.committees :: l.known) :
    cs = l.standing.committees := by
  rcases List.mem_cons.1 hcs with rfl | hcs
  · rfl
  · exact h.known cs hcs

theorem startVote (h : l.Rounds) (revision : Nat) (hphase : l.standing.phase = some .releaseCandidateDraft) :
    Life.Rounds { l with
      standing := l.standing.startVote revision
      history := l.history ++ [.started (allocate l.standing.voteCounter)] } := by
  refine ⟨h.known, (by rintro (heq | heq) <;> cases heq), fun _ => ⟨_, revision, rfl, rfl, rfl⟩, fun _ hthread => ?_,
    nofun⟩
  exact absurd (h.thread (.inr hphase)) hthread

theorem passed (h : l.Rounds) (hphase : l.standing.phase = some .releaseCandidate)
    (hround : l.standing.votingRound ≠ some 1) :
    Life.Rounds { l with
      standing := l.standing.toPreview
      history := l.history ++ l.resolution l.standing.votingRound .passed } := by
  refine ⟨h.known, (by rintro (heq | heq) <;> cases heq), nofun, nofun, fun _ hpodling => ?_⟩
  -- the vote of a podling was the second round
  have hthread : l.standing.thread ≠ none := by
    intro hnone
    rw [Standing.votingRound, hnone] at hround
    exact hround (votingRound_of_none hpodling)
  obtain ⟨m, revision, hm, hvoted, before, hbefore⟩ := h.second hphase hthread
  refine ⟨revision, hvoted, before, m, ?_⟩
  have htwo : l.standing.votingRound = some 2 := votingRound_two hpodling hthread
  simp [resolution, hm, hvoted, hbefore, htwo]

theorem firstRoundPassed (h : l.Rounds) (threadId : Str) (hphase : l.standing.phase = some .releaseCandidate) :
    Life.Rounds { l with
      standing := l.standing.secondRound threadId
      history := l.history ++ l.resolution (some 1) .passed ++ [.started (allocate l.standing.voteCounter)] } := by
  obtain ⟨n, revision, hn, hcounter, hvoted⟩ := h.current hphase
  have hnext : allocate l.standing.voteCounter = n + 1 := by rw [hcounter]; rfl
  have hsame : (l.standing.secondRound threadId).phase = some .releaseCandidate := hphase
  refine ⟨h.known, fun hor => ?_, fun _ => ⟨_, revision, rfl, rfl, hvoted⟩, fun _ _ => ?_, fun hpreview => ?_⟩
  · dsimp only at hor
    rw [hsame] at hor
    rcases hor with heq | heq <;> cases heq
  · refine ⟨n, revision, congrArg some hnext, hvoted, l.history, ?_⟩
    simp [resolution, hn, hvoted, hnext]
  · rw [hsame] at hpreview
    cases hpreview

/-- The steps keep the rounds, also those that delete the counters. -/
theorem step (h : l.Rounds) {op : Op} (hstep : Life.Step l op l') (hcond : KeepsCommittees op) : l'.Rounds := by
  cases hstep with
  | stay => exact h
  | read =>
    refine ⟨fun cs hcs => ?_, h.thread, h.current, h.second, h.preview⟩
    rcases List.mem_append.1 hcs with hcs | hcs
    · exact h.known cs hcs
    · exact List.mem_singleton.1 hcs
  | setCommittees => exact hcond.elim
  | startRelease => exact of_draft h.known nofun nofun fun _ => rfl
  | deleteRelease => exact of_draft h.known nofun nofun fun _ => rfl
  | announce => exact of_draft h.known nofun nofun (by rintro (heq | heq) <;> cases heq)
  | startVote revision hphase => exact h.startVote revision hphase
  | notPassed => exact ⟨h.known, fun _ => rfl, nofun, nofun, nofun⟩
  | passed cs hcs hphase hresult hround =>
    obtain rfl := h.known_eq hcs
    exact h.passed hphase hround
  | firstRoundPassed cs hcs threadId hphase => exact h.firstRoundPassed threadId hphase
  | _ => exact ⟨h.known, h.thread, h.current, h.second, h.preview⟩

end Life.Rounds

/-! ### The numbers -/

/-- The numbers of votes are given out in order, and the current vote of a candidate was started and is not resolved. -/
structure Life.Voting (l : Life) : Prop extends Life.Rounds l where
  started : (startedSeqs l.history).Pairwise (· < ·)
  resolved : (resolvedSeqs l.history).Nodup
  started_lt : ∀ n ∈ startedSeqs l.history, n < allocate l.standing.voteCounter
  resolved_lt : ∀ n ∈ resolvedSeqs l.history, n < allocate l.standing.voteCounter
  pending : l.standing.phase = some .releaseCandidate → ∀ n, l.standing.voteSeq = some n →
    n ∈ startedSeqs l.history ∧ n ∉ resolvedSeqs l.history

namespace Life.Voting

variable {l l' : Life}

theorem init (cs : Committees) (revisionCounter voteCounter : Option Nat) :
    (System.init cs revisionCounter voteCounter).life.Voting where
  toRounds := .init cs revisionCounter voteCounter
  started := .nil
  resolved := .nil
  started_lt := by intro n h; cases h
  resolved_lt := by intro n h; cases h
  pending := by intro h; cases h

/-- Outside of votes, where the history does not grow. -/
private theorem of_draft (h : l.Voting) (hrounds : l'.Rounds) (hhistory : l'.history = l.history)
    (hcounter : l'.standing.voteCounter = l.standing.voteCounter) (hphase : l'.standing.phase ≠ some .releaseCandidate) :
    l'.Voting where
  toRounds := hrounds
  started := hhistory ▸ h.started
  resolved := hhistory ▸ h.resolved
  started_lt := by rw [hhistory, hcounter]; exact h.started_lt
  resolved_lt := by rw [hhistory, hcounter]; exact h.resolved_lt
  pending := fun heq => absurd heq hphase

/-- A vote is started with the next number. -/
private theorem started_append (h : l.Voting) :
    (startedSeqs (l.history ++ [.started (allocate l.standing.voteCounter)])).Pairwise (· < ·) ∧
      ∀ n ∈ startedSeqs (l.history ++ [.started (allocate l.standing.voteCounter)]),
        n < allocate l.standing.voteCounter + 1 := by
  rw [startedSeqs_append, startedSeqs_started, List.pairwise_append]
  refine ⟨⟨h.started, List.pairwise_singleton _ _, fun n hn m hm => ?_⟩, fun n hn => ?_⟩
  · rw [List.mem_singleton.1 hm]
    exact h.started_lt n hn
  · rcases List.mem_append.1 hn with hn | hn
    · exact Nat.lt_succ_of_lt (h.started_lt n hn)
    · exact Nat.lt_succ_of_le (List.mem_singleton.1 hn).le

/-- The current vote is resolved. -/
private theorem resolved_append (h : l.Voting) (hphase : l.standing.phase = some .releaseCandidate)
    (round : Option Nat) (result : VoteResult) : ∃ n, l.standing.voteCounter = some n ∧
    resolvedSeqs (l.history ++ l.resolution round result) = resolvedSeqs l.history ++ [n] ∧
      startedSeqs (l.history ++ l.resolution round result) = startedSeqs l.history ∧
      (resolvedSeqs l.history ++ [n]).Nodup ∧
      ∀ m ∈ resolvedSeqs l.history ++ [n], m < allocate l.standing.voteCounter := by
  obtain ⟨n, revision, hseq, hcounter, -⟩ := h.current hphase
  obtain ⟨-, hn⟩ := h.pending hphase n hseq
  refine ⟨n, hcounter, by simp [resolution, hseq], by simp [resolution, hseq], ?_, fun m hm => ?_⟩
  · rw [List.nodup_append]
    refine ⟨h.resolved, List.nodup_singleton _, fun m hm k hk heq => ?_⟩
    rw [heq, List.mem_singleton.1 hk] at hm
    exact hn hm
  · rcases List.mem_append.1 hm with hm | hm
    · exact h.resolved_lt m hm
    · rw [List.mem_singleton.1 hm, hcounter]
      exact Nat.lt_succ_self n

theorem startVote (h : l.Voting) (revision : Nat) (hphase : l.standing.phase = some .releaseCandidateDraft) :
    Life.Voting { l with
      standing := l.standing.startVote revision
      history := l.history ++ [.started (allocate l.standing.voteCounter)] } := by
  obtain ⟨hstarted, hlt⟩ := h.started_append
  have hresolved : resolvedSeqs (l.history ++ [.started (allocate l.standing.voteCounter)]) = resolvedSeqs l.history := by
    simp
  refine ⟨h.toRounds.startVote revision hphase, hstarted, ?_, hlt, ?_, fun _ n hn => ?_⟩
  · rw [hresolved]
    exact h.resolved
  · rw [hresolved]
    exact fun n hn => Nat.lt_succ_of_lt (h.resolved_lt n hn)
  · obtain rfl : allocate l.standing.voteCounter = n := Option.some.inj hn
    refine ⟨by simp, fun hmem => ?_⟩
    rw [hresolved] at hmem
    exact Nat.lt_irrefl _ (h.resolved_lt _ hmem)

theorem notPassed (h : l.Voting) {round : Option Nat} {result : VoteResult}
    (hphase : l.standing.phase = some .releaseCandidate)
    (hrounds : Life.Rounds { l with
      standing := l.standing.toDraft
      history := l.history ++ l.resolution round result }) :
    Life.Voting { l with
      standing := l.standing.toDraft
      history := l.history ++ l.resolution round result } := by
  obtain ⟨n, -, hresolved, hstarted, hnodup, hlt⟩ := h.resolved_append hphase round result
  exact ⟨hrounds, hstarted ▸ h.started, hresolved ▸ hnodup, hstarted ▸ h.started_lt, hresolved ▸ hlt, nofun⟩

theorem passed (h : l.Voting) (hphase : l.standing.phase = some .releaseCandidate)
    (hround : l.standing.votingRound ≠ some 1) :
    Life.Voting { l with
      standing := l.standing.toPreview
      history := l.history ++ l.resolution l.standing.votingRound .passed } := by
  obtain ⟨n, -, hresolved, hstarted, hnodup, hlt⟩ := h.resolved_append hphase l.standing.votingRound .passed
  exact ⟨h.toRounds.passed hphase hround, hstarted ▸ h.started, hresolved ▸ hnodup, hstarted ▸ h.started_lt,
    hresolved ▸ hlt, nofun⟩

theorem firstRoundPassed (h : l.Voting) (threadId : Str) (hphase : l.standing.phase = some .releaseCandidate) :
    Life.Voting { l with
      standing := l.standing.secondRound threadId
      history := l.history ++ l.resolution (some 1) .passed ++ [.started (allocate l.standing.voteCounter)] } := by
  obtain ⟨n, hcounter, hresolved, hstarted, hnodup, hlt⟩ := h.resolved_append hphase (some 1) .passed
  obtain ⟨hpairwise, hbound⟩ := h.started_append
  have hresolved' : resolvedSeqs (l.history ++ l.resolution (some 1) .passed ++
      [.started (allocate l.standing.voteCounter)]) = resolvedSeqs l.history ++ [n] := by
    rw [resolvedSeqs_append, hresolved, resolvedSeqs_started, List.append_nil]
  have hstarted' : startedSeqs (l.history ++ l.resolution (some 1) .passed ++
      [.started (allocate l.standing.voteCounter)]) =
        startedSeqs (l.history ++ [.started (allocate l.standing.voteCounter)]) := by
    rw [startedSeqs_append, hstarted, startedSeqs_append]
  refine ⟨h.toRounds.firstRoundPassed threadId hphase, hstarted' ▸ hpairwise, hresolved' ▸ hnodup, hstarted' ▸ hbound,
    hresolved' ▸ fun m hm => Nat.lt_succ_of_lt (hlt m hm), fun _ m hm => ?_⟩
  obtain rfl : allocate l.standing.voteCounter = m := Option.some.inj hm
  refine ⟨by simp, fun hmem => ?_⟩
  rw [hresolved'] at hmem
  exact Nat.lt_irrefl _ (hlt _ hmem)

/-- The steps that do not delete the counters keep the numbers. -/
theorem step (h : l.Voting) {op : Op} (hstep : Life.Step l op l') (hcond : Kept l.standing op) : l'.Voting := by
  have hcommittees : KeepsCommittees op := by
    cases op with
    | setCommittees => exact hcond.elim
    | _ => trivial
  have hrounds := h.toRounds.step hstep hcommittees
  cases hstep with
  | stay => exact h
  | setCommittees => exact hcond.elim
  | startRelease => exact h.of_draft hrounds rfl rfl nofun
  | deleteRelease =>
    refine h.of_draft hrounds rfl ?_ nofun
    show (if _ then none else l.standing.voteCounter) = l.standing.voteCounter
    rw [show (_ && _) = false from hcond]
    rfl
  | announce => exact h.of_draft hrounds rfl rfl nofun
  | startVote revision hphase => exact h.startVote revision hphase
  | notPassed cs hcs hphase => exact h.notPassed hphase hrounds
  | passed cs hcs hphase hresult hround =>
    obtain rfl := h.known_eq hcs
    exact h.passed hphase hround
  | firstRoundPassed cs hcs threadId hphase => exact h.firstRoundPassed threadId hphase
  | _ => exact ⟨hrounds, h.started, h.resolved, h.started_lt, h.resolved_lt, h.pending⟩

end Life.Voting

/-! ### What a step does -/

/-- A vote is started, a ballot cast or a vote resolved. -/
def Op.isVoteRequest : Op → Bool
  | .startVote _ _ _ _ => true
  | .castTrusted _ _ _ => true
  | .resolve _ _ _ _ => true
  | _ => false

/-- The number of the vote that a request expects to be the current one. -/
def Op.expectedVoteSeq : Op → Option Nat
  | .castTrusted _ _ c => c.expectedVoteSeq
  | .resolve _ _ _ a => a.expectedVoteSeq
  | _ => none

/-- A draft becomes a candidate, and a candidate a draft or a preview. -/
def PhaseMoves (p q : Option ReleasePhase) : Prop :=
  p = q ∨ (p = some .releaseCandidateDraft ∧ q = some .releaseCandidate) ∨
    (p = some .releaseCandidate ∧ (q = some .releaseCandidateDraft ∨ q = some .releasePreview))

private theorem Life.Step.phaseMoves {l l' : Life} {op : Op} (hstep : Life.Step l op l')
    (hop : op.isVoteRequest = true) :
    PhaseMoves l.standing.phase l'.standing.phase := by
  cases hstep with
  | startVote revision hphase => exact .inr (.inl ⟨hphase, rfl⟩)
  | notPassed cs hcs hphase => exact .inr (.inr ⟨hphase, .inl rfl⟩)
  | passed cs hcs hphase => exact .inr (.inr ⟨hphase, .inr rfl⟩)
  | startRelease => cases hop
  | deleteRelease => cases hop
  | announce => cases hop
  | _ => exact .inl rfl

/-- A vote that is resolved takes no ballot. -/
private theorem Life.Voting.ballots_closed {l l' : Life} (h : l.Voting) {op : Op} (hstep : Life.Step l op l') :
    ∀ b ∈ l'.standing.ballots, b.voteSeq ∈ resolvedSeqs l.history → b ∈ l.standing.ballots := by
  cases hstep with
  | deleteRelease => exact nofun
  | castTrusted b hphase hseq =>
    intro c hc hresolved
    rcases List.mem_append.1 hc with hc | hc
    · exact hc
    · rw [List.mem_singleton.1 hc] at hresolved
      exact absurd hresolved (h.pending hphase _ hseq).2
  | _ => exact fun b hb _ => hb

namespace System

variable {s : System}

/-- A request that expects another vote than the current one changes nothing. -/
private theorem step_stale (h : s.life.Rounds) {op : Op} {n : Nat} (hexpected : op.expectedVoteSeq = some n)
    (hcurrent : s.tables.currentVoteSeq ≠ some n) : s.step op = s := by
  cases op with
  | castTrusted env actor c =>
    refine commit_of (P := fun s' => s' = s) rfl fun t ht => ?_
    obtain ⟨b, -, hseq, -, -, -, -, hn, -⟩ := castTrusted_ok ht
    rw [← hn n hexpected] at hseq
    exact absurd hseq hcurrent
  | resolve env actor i a =>
    refine onView_of (P := fun s' => s' = s) rfl fun v _ => ?_
    unfold resolve
    split
    · rename_i res hres
      obtain ⟨cs, -, ⟨hphase, -⟩, hn⟩ := resolve_ok hres
      rcases hn n hexpected with hnone | hn
      · obtain ⟨m, -, hm, -, -⟩ := h.current hphase
        rw [show s.tables.standing.voteSeq = some m from hm] at hnone
        cases hnone
      · exact absurd hn hcurrent
    · rfl
  | _ => cases hexpected

/-- A start or a resolution that fails, with the release as the request has read it. -/
def Fails (s : System) : Op → Prop
  | .startVote env actor i a => ∀ v, s.seen[i]? = some v → ∃ e, start env actor s.tables v true a = .error e
  | .resolve env actor i a => ∀ v, s.seen[i]? = some v → ∃ e, TrustedReleases.resolve env actor s.tables v a = .error e
  | _ => False

private theorem step_fails {op : Op} (h : s.Fails op) : s.step op = s := by
  cases op with
  | startVote env actor i a =>
    simp only [step, onView]
    split
    · rename_i v hv
      obtain ⟨e, he⟩ := h v hv
      simp only [startVote, he]
    · rfl
  | resolve env actor i a =>
    simp only [step, onView]
    split
    · rename_i v hv
      obtain ⟨e, he⟩ := h v hv
      simp only [resolve, he]
    · rfl
  | _ => exact h.elim

end System

/-! ### The theorem -/

/-- The safety of the vote protocol.  In every run a request that expects another vote than the current one changes
nothing; the phases move as they should; a podling's preview has passed two rounds in a row on the revision that is voted
on; and a start or a resolution that fails changes nothing.  In a run that does not delete the counters, votes get
increasing numbers as well; the current vote of a candidate was started and is not resolved; none is resolved twice; and
a resolved vote takes no ballot. -/
theorem vote_safety {cs : Committees} {revisionCounter voteCounter : Option Nat} {s : System}
    (hrun : Reaches (StepWhen System.step fun _ op => KeepsCommittees op)
      (System.init cs revisionCounter voteCounter) s) :
    ((∀ op n, op.expectedVoteSeq = some n → s.tables.currentVoteSeq ≠ some n → s.step op = s) ∧
      (∀ op : Op, op.isVoteRequest = true →
        PhaseMoves (s.tables.release.map (·.phase)) ((s.step op).tables.release.map (·.phase))) ∧
      (∀ r, s.tables.release = some r → r.phase = .releasePreview → s.tables.committees.IsPodling →
        ∃ revision, r.votedRevisionNumber = some revision ∧ PassedTwice s.history revision) ∧
      ∀ op, s.Fails op → s.step op = s) ∧
    (Reaches (StepWhen System.step fun s op => Kept s.tables.standing op) (System.init cs revisionCounter voteCounter) s →
      (startedSeqs s.history).Pairwise (· < ·) ∧
      (∀ r, s.tables.release = some r → r.phase = .releaseCandidate →
        ∃ n, r.currentVoteSeq = some n ∧ n ∈ startedSeqs s.history ∧ n ∉ resolvedSeqs s.history) ∧
      (resolvedSeqs s.history).Nodup ∧
      ∀ op, ∀ b ∈ (s.step op).tables.ballots, b.voteSeq ∈ resolvedSeqs s.history → b ∈ s.tables.ballots) := by
  have hrounds : s.life.Rounds :=
    Reaches.keeps (I := fun s : System => s.life.Rounds) (fun s op h hcond => h.step (System.step_life s op) hcond) hrun
      (.init cs revisionCounter voteCounter)
  refine ⟨⟨fun op n hn hcurrent => System.step_stale hrounds hn hcurrent,
    fun op hop => (s.step_life op).phaseMoves hop, fun r hr hphase hpodling => ?_, fun op => System.step_fails⟩,
    fun hkept => ?_⟩
  · obtain ⟨hstanding, -, hvoted, -⟩ := standing_of_release hr
    rw [hphase] at hstanding
    obtain ⟨revision, hrevision, htwice⟩ := hrounds.preview hstanding hpodling
    exact ⟨revision, hvoted.symm.trans hrevision, htwice⟩
  · have hvoting : s.life.Voting :=
      Reaches.keeps (I := fun s : System => s.life.Voting) (fun s op h hcond => h.step (System.step_life s op) hcond)
        hkept (.init cs revisionCounter voteCounter)
    refine ⟨hvoting.started, fun r hr hphase => ?_, hvoting.resolved, fun op => hvoting.ballots_closed (s.step_life op)⟩
    obtain ⟨hstanding, hseq, -, -⟩ := standing_of_release hr
    rw [hphase] at hstanding
    obtain ⟨n, revision, hn, -, -⟩ := hvoting.current hstanding
    exact ⟨n, hseq.symm.trans hn, hvoting.pending hstanding n hn⟩

/-- A resolution, forced by the security team or not. -/
def resolveAs (result : VoteResult) (securityOverride : Bool) : ResolveVote where
  voteResult := result
  asfFullname := []
  resolutionBody := []
  expectedVoteSeq := none
  expectedVoteMode := none
  automaticResolveWhenFinished := false
  notifyWhenFinished := false
  additionalCc := []
  additionalBcc := []
  earlyReason := []
  securityOverride := securityOverride

/-- A podling's release passes both rounds. -/
def twoRounds : List Op :=
  firstVote ++ [.castTrusted (clear 11) manager inFavour, .read, .resolve (clear 30) manager 2 (resolveAs .passed true),
    .setTasks [announced 2], .read, .resolve (clear 40) manager 3 (resolveAs .passed true)]

/-- The state after that. -/
def passedBoth : System := twoRounds.foldl System.step (System.init (committees true) none none)

theorem vote_safety_passedBoth : (∃ r revision, passedBoth.tables.release = some r ∧ r.phase = .releasePreview ∧
      r.votedRevisionNumber = some revision ∧ PassedTwice passedBoth.history revision) ∧
    startedSeqs passedBoth.history = [1, 2] ∧ (resolvedSeqs passedBoth.history).Nodup := by
  have hrelease : passedBoth.tables.release.map (·.phase) = some .releasePreview := by decide
  obtain ⟨r, hr, hphase⟩ := Option.map_eq_some_iff.1 hrelease
  have hcommittees : Throughout System.step (fun _ op => KeepsCommittees op) (System.init (committees true) none none)
      twoRounds := by decide
  have hkept : Throughout System.step (fun s op => Kept s.tables.standing op) (System.init (committees true) none none)
      twoRounds := by decide
  obtain ⟨⟨-, -, hpreview, -⟩, hnumbers⟩ := vote_safety (.foldl hcommittees)
  obtain ⟨-, -, hresolved, -⟩ := hnumbers (.foldl hkept)
  obtain ⟨revision, hvoted, htwice⟩ := hpreview r hr hphase ⟨_, rfl, rfl⟩
  exact ⟨⟨r, revision, hr, hphase, hvoted, htwice⟩, by decide, hresolved⟩

/-! ### A test release -/

/-- The committee of the test releases. -/
def testCommittees : Committees := ⟨some ⟨"test".toList, false, ["rm".toList]⟩, none⟩

/-- A test release is deleted during its first vote, and started and voted on again. -/
def testReleaseAgain : List Op :=
  firstVote ++ [.deleteRelease { clear 20 with testMode := true } manager none,
    .startRelease (clear 21) manager false none (.ok ()), .read,
    .createRevision (clear 22) manager 2 upload (.ok false) 0, .read, .startVote (clear 23) manager 3 plainVote]

/-- Both votes have the number 1. -/
theorem testRelease_reusesNumber : ¬ ∀ s, Reaches (StepWhen System.step fun _ _ => True)
    (System.init testCommittees none none) s → (startedSeqs s.history).Pairwise (· < ·) := by
  intro h
  have hpairwise := h (testReleaseAgain.foldl System.step (System.init testCommittees none none))
    (.foldl (.of_forall (fun _ _ => trivial) _ _))
  have hseqs : startedSeqs (testReleaseAgain.foldl System.step (System.init testCommittees none none)).history =
      [1, 1] := by decide
  rw [hseqs] at hpairwise
  exact absurd hpairwise (by decide)

end TrustedReleases
