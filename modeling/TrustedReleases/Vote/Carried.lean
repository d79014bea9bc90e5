import TrustedReleases.Vote.Protocol

/-!
# The ballots of the candidate

Only ballots count that were cast on the revision that is voted on, and a second round carries those of the first round
right before it (`counted_ofCandidate`).  The round that is carried is found by its ballots, so a first round without
any must not be passed while there are ballots of an earlier one: those are carried then (`carriedOver`).
-/

namespace TrustedReleases

open Lib

/-- A first round that is passed has ballots, or there are no earlier ones of a first round.  Revisions are added between
votes. -/
def Backed (t : Standing) : Op → Prop
  | .resolve _ _ _ a => a.voteResult = .passed → t.votingRound = some 1 →
      (∃ b ∈ t.ballots, t.voteSeq = some b.voteSeq ∧ b.voteRound = some 1) ∨ ∀ b ∈ t.ballots, b.voteRound ≠ some 1
  | .promote _ _ => t.phase = some .releaseCandidateDraft
  | _ => True

instance (t : Standing) (op : Op) : Decidable (Backed t op) := by
  unfold Backed
  split <;> infer_instance

/-! ### The invariant -/

/-- A candidate's ballots.  It is at the revision that is voted on, the ballots of the current vote are on it, and in the
second round so are those of the vote before. -/
structure Life.Carries (l : Life) : Prop where
  voting : l.Voting
  counted : ∀ b ∈ l.standing.ballots, b.voteSeq < allocate l.standing.voteCounter
  latest : l.standing.phase = some .releaseCandidate → l.standing.latest = l.standing.voted
  current : l.standing.phase = some .releaseCandidate → ∀ b ∈ l.standing.ballots, l.standing.voteSeq = some b.voteSeq →
    l.standing.voted = some b.revisionNumberAtCast
  second : l.standing.phase = some .releaseCandidate → l.standing.thread ≠ none → ∀ m, l.standing.voteSeq = some (m + 1) →
    (∀ b ∈ l.standing.ballots, b.voteSeq = m → l.standing.voted = some b.revisionNumberAtCast) ∧
    ((∃ b ∈ l.standing.ballots, b.voteSeq = m ∧ b.voteRound = some 1) ∨
      ∀ b ∈ l.standing.ballots, b.voteRound ≠ some 1)

namespace Life.Carries

variable {l l' : Life}

theorem init (cs : Committees) (revisionCounter voteCounter : Option Nat) :
    (System.init cs revisionCounter voteCounter).life.Carries where
  voting := .init cs revisionCounter voteCounter
  counted := by intro b h; cases h
  latest := by intro h; cases h
  current := by intro h; cases h
  second := by intro h; cases h

/-- Outside of a vote there is little to show. -/
private theorem of_not_candidate (hvoting : l'.Voting)
    (hcounted : ∀ b ∈ l'.standing.ballots, b.voteSeq < allocate l'.standing.voteCounter)
    (hphase : l'.standing.phase ≠ some .releaseCandidate) : l'.Carries where
  voting := hvoting
  counted := hcounted
  latest := fun h => absurd h hphase
  current := fun h => absurd h hphase
  second := fun h => absurd h hphase

theorem castTrusted (h : l.Carries) {b : BallotPaper} (hphase : l.standing.phase = some .releaseCandidate)
    (hseq : l.standing.voteSeq = some b.voteSeq) (hround : b.voteRound = l.standing.votingRound)
    (hlatest : l.standing.latest = some b.revisionNumberAtCast)
    (hvoting : Life.Voting { l with standing := { l.standing with ballots := l.standing.ballots ++ [b] } }) :
    Life.Carries { l with standing := { l.standing with ballots := l.standing.ballots ++ [b] } } := by
  obtain ⟨n, revision, hn, hcounter, -⟩ := h.voting.current hphase
  have hb : b.voteSeq = n := by
    rw [hn] at hseq
    exact (Option.some.inj hseq).symm
  refine ⟨hvoting, fun c hc => ?_, h.latest, fun _ c hc hcn => ?_, fun _ hthread m hm => ?_⟩
  · rcases List.mem_append.1 hc with hc | hc
    · exact h.counted c hc
    · rw [List.mem_singleton.1 hc, hb]
      show n < allocate l.standing.voteCounter
      rw [hcounter]
      exact Nat.lt_succ_self n
  · rcases List.mem_append.1 hc with hc | hc
    · exact h.current hphase c hc hcn
    · rw [List.mem_singleton.1 hc]
      exact (h.latest hphase).symm.trans hlatest
  · obtain ⟨hfirst, hbacked⟩ := h.second hphase hthread m hm
    have hne : b.voteRound ≠ some 1 := fun heq => hthread (votingRound_one (hround.symm.trans heq))
    refine ⟨fun c hc hcm => ?_, ?_⟩
    · rcases List.mem_append.1 hc with hc | hc
      · exact hfirst c hc hcm
      · rw [List.mem_singleton.1 hc] at hcm
        rw [hseq] at hm
        have := Option.some.inj hm
        omega
    · refine hbacked.imp (fun ⟨c, hc, hcm⟩ => ⟨c, List.mem_append_left _ hc, hcm⟩) fun hnone c hc => ?_
      rcases List.mem_append.1 hc with hc | hc
      · exact hnone c hc
      · rwa [List.mem_singleton.1 hc]

theorem firstRoundPassed (h : l.Carries) {threadId : Str} {history : List VoteEvent}
    (hphase : l.standing.phase = some .releaseCandidate)
    (hbacked : (∃ b ∈ l.standing.ballots, l.standing.voteSeq = some b.voteSeq ∧ b.voteRound = some 1) ∨
      ∀ b ∈ l.standing.ballots, b.voteRound ≠ some 1)
    (hvoting : Life.Voting { l with standing := l.standing.secondRound threadId, history := history }) :
    Life.Carries { l with standing := l.standing.secondRound threadId, history := history } := by
  obtain ⟨n, revision, hn, hcounter, -⟩ := h.voting.current hphase
  have hnext : allocate l.standing.voteCounter = n + 1 := by rw [hcounter]; rfl
  refine ⟨hvoting, fun b hb => Nat.lt_succ_of_lt (h.counted b hb), fun _ => h.latest hphase, fun _ b hb hseq => ?_,
    fun _ _ m hm => ?_⟩
  · -- no ballot has the new number yet
    have hlt := h.counted b hb
    have := Option.some.inj (show some (allocate l.standing.voteCounter) = some b.voteSeq from hseq)
    omega
  · have hnm : n = m := by
      have := Option.some.inj (show some (allocate l.standing.voteCounter) = some (m + 1) from hm)
      omega
    subst hnm
    refine ⟨fun b hb hbn => h.current hphase b hb (by rw [hn, hbn]), ?_⟩
    refine hbacked.imp_left fun ⟨b, hb, hseq, hround⟩ => ⟨b, hb, ?_, hround⟩
    rw [hn] at hseq
    exact (Option.some.inj hseq).symm

/-- The steps keep the invariant. -/
theorem step (h : l.Carries) {op : Op} (hstep : Life.Step l op l') (hkept : Kept l.standing op)
    (hbacked : Backed l.standing op) : l'.Carries := by
  have hvoting := h.voting.step hstep hkept
  cases hstep with
  | stay => exact h
  | startRelease => exact of_not_candidate hvoting h.counted nofun
  | deleteRelease => exact of_not_candidate hvoting nofun nofun
  | announce => exact of_not_candidate hvoting h.counted nofun
  | addRevision hphase =>
    refine of_not_candidate hvoting h.counted fun heq => ?_
    rw [show l.standing.addRevision.phase = _ from hphase] at heq
    cases heq
  | promote v q hv hstage hphase =>
    refine of_not_candidate hvoting h.counted fun heq => ?_
    rw [show l.standing.addRevision.phase = _ from hbacked] at heq
    cases heq
  | startVote revision hphase hlatest =>
    refine ⟨hvoting, fun b hb => Nat.lt_succ_of_lt (h.counted b hb), fun _ => hlatest, fun _ b hb hseq => ?_,
      fun _ hthread => absurd (h.voting.thread (.inr hphase)) hthread⟩
    have hlt := h.counted b hb
    have := Option.some.inj (show some (allocate l.standing.voteCounter) = some b.voteSeq from hseq)
    omega
  | castTrusted b hphase hseq hround hlatest => exact h.castTrusted hphase hseq hround hlatest hvoting
  | notPassed => exact of_not_candidate hvoting h.counted nofun
  | passed => exact of_not_candidate hvoting h.counted nofun
  | firstRoundPassed cs hcs threadId hphase hresult hround =>
    rw [h.voting.known_eq hcs] at hround
    exact h.firstRoundPassed hphase (hbacked hresult hround) hvoting
  | _ => exact ⟨hvoting, h.counted, h.latest, h.current, h.second⟩

end Life.Carries

/-! ### The theorem -/

private theorem mem_of_ballotsForResolution {ballots : List BallotPaper} {voteSeq : Nat} {b : BallotPaper}
    (h : b ∈ ballotsForResolution ballots voteSeq) : b ∈ ballots ∧ b.voteSeq = voteSeq := by
  simp only [ballotsForResolution, mem_orderBy, mem_firstPer] at h
  have := List.mem_of_find?_eq_some h.2
  rwa [mem_orderBy, List.mem_filter, decide_eq_true_eq] at this

/-- Every counted ballot is of the vote, or of the last one before it with ballots of a first round. -/
private theorem effectiveTrustedBallots_mem (cs : Committees) (r : Release) (ballots : List BallotPaper)
    (voteSeq : Nat) :
    ∃ counted, effectiveTrustedBallots cs r ballots voteSeq = .ok counted ∧ ∀ b ∈ counted, b ∈ ballots ∧
      (b.voteSeq = voteSeq ∨ r.podlingThreadId ≠ none ∧ previousRoundOneVoteSeq ballots voteSeq = some b.voteSeq) := by
  cases hsecond : cs.secondRound r with
  | none =>
    refine ⟨ballotsForResolution ballots voteSeq, by simp only [effectiveTrustedBallots, hsecond], fun b hb => ?_⟩
    exact ⟨(mem_of_ballotsForResolution hb).1, .inl (mem_of_ballotsForResolution hb).2⟩
  | some c =>
    cases hr1 : previousRoundOneVoteSeq ballots voteSeq with
    | none =>
      refine ⟨ballotsForResolution ballots voteSeq, by simp only [effectiveTrustedBallots, hsecond, hr1], fun b hb => ?_⟩
      exact ⟨(mem_of_ballotsForResolution hb).1, .inl (mem_of_ballotsForResolution hb).2⟩
    | some r1Seq =>
      refine ⟨_, effectiveTrustedBallots_carried hsecond hr1, fun b hb => ?_⟩
      rcases List.mem_append.1 hb with hb | hb
      · exact ⟨(mem_of_ballotsForResolution hb).1, .inl (mem_of_ballotsForResolution hb).2⟩
      · obtain ⟨hmem, hseq⟩ := mem_of_ballotsForResolution (List.mem_filter.1 hb).1
        refine ⟨hmem, .inr ⟨fun hnone => ?_, by rw [hseq]⟩⟩
        have hround := (secondRound_isPodling hsecond).2.2
        have hpodling := (secondRound_isPodling hsecond).2.1
        simp [trustedVoteRound, hpodling, hnone] at hround

/-- Every ballot that counts was cast on the revision that is voted on, and those that are not of the current vote are
of the first round right before it, in every run in which a first round that is passed has ballots, or no earlier one
has. -/
theorem counted_ofCandidate {cs : Committees} {revisionCounter voteCounter : Option Nat} {s : System}
    (hrun : Reaches (StepWhen System.step fun s op => Kept s.tables.standing op ∧ Backed s.tables.standing op)
      (System.init cs revisionCounter voteCounter) s) {r : Release} (hr : s.tables.release = some r)
    (hphase : r.phase = .releaseCandidate) :
    ∃ voteSeq revision counted, r.currentVoteSeq = some voteSeq ∧ r.votedRevisionNumber = some revision ∧
      effectiveTrustedBallots s.tables.committees r s.tables.ballots voteSeq = .ok counted ∧
      ∀ b ∈ counted, b.revisionNumberAtCast = revision ∧
        (b.voteSeq = voteSeq ∨ voteSeq = b.voteSeq + 1 ∧ InSecondRound s.history b.voteSeq revision) := by
  have hcarries : s.life.Carries :=
    Reaches.keeps (I := fun s : System => s.life.Carries)
      (fun s op h hcond => h.step (System.step_life s op) hcond.1 hcond.2) hrun (.init cs revisionCounter voteCounter)
  obtain ⟨hstanding, hseq, hvoted', hthread⟩ := standing_of_release hr
  rw [hphase] at hstanding
  obtain ⟨n, revision, hn, -, hvoted⟩ := hcarries.voting.current hstanding
  have hrevision : ∀ b : BallotPaper, s.life.standing.voted = some b.revisionNumberAtCast →
      b.revisionNumberAtCast = revision := fun b hb => (Option.some.inj (hvoted.symm.trans hb)).symm
  obtain ⟨counted, hcounted, hmem⟩ := effectiveTrustedBallots_mem s.tables.committees r s.tables.ballots n
  refine ⟨n, revision, counted, hseq.symm.trans hn, hvoted'.symm.trans hvoted, hcounted, fun b hb => ?_⟩
  obtain ⟨hb, hown | ⟨hsecond, hprevious⟩⟩ := hmem b hb
  · exact ⟨hrevision b (hcarries.current hstanding b hb (hn.trans (congrArg some hown.symm))), .inl hown⟩
  · rw [← hthread] at hsecond
    obtain ⟨m, revision', hm, hvoted'', hfollows⟩ := hcarries.voting.second hstanding hsecond
    obtain ⟨hfirst, hbacked⟩ := hcarries.second hstanding hsecond m hm
    obtain ⟨hlt, ⟨c, hc, hround, hcseq⟩, hmax⟩ := previousRoundOneVoteSeq_eq_some hprevious
    have hnm : n = m + 1 := Option.some.inj (hn.symm.trans hm)
    obtain rfl : revision = revision' := Option.some.inj (hvoted.symm.trans hvoted'')
    -- the first round right before has ballots, so it is the one that is carried
    have hbm : b.voteSeq = m := by
      rcases hbacked with ⟨d, hd, hdm, hdround⟩ | hnone
      · have := hmax d hd hdround (by omega)
        omega
      · exact absurd hround (hnone c hc)
    refine ⟨hrevision b (hfirst b hb hbm), .inr ⟨by rw [hnm, hbm], ?_⟩⟩
    rw [hbm]
    exact hfollows

/-! ### A first round without ballots -/

/-- A podling's first round with a ballot. -/
def firstRound : List Op := firstVote ++ [.castTrusted (clear 11) manager inFavour, .read]

/-- The first round is passed. -/
def secondRoundRun : List Op := firstRound ++ [.resolve (clear 30) manager 2 (resolveAs .passed true)]

/-- The state after that. -/
def inSecondRound : System := secondRoundRun.foldl System.step (System.init (committees true) none none)

theorem counted_ofCandidate_inSecondRound : ∃ voteSeq revision counted,
    inSecondRound.tables.currentVoteSeq = some voteSeq ∧ inSecondRound.tables.votedRevisionNumber = some revision ∧
      (∃ r, inSecondRound.tables.release = some r ∧
        effectiveTrustedBallots inSecondRound.tables.committees r inSecondRound.tables.ballots voteSeq = .ok counted) ∧
      ∀ b ∈ counted, b.revisionNumberAtCast = revision := by
  have hrelease : inSecondRound.tables.release.map (·.phase) = some .releaseCandidate := by decide
  obtain ⟨r, hr, hphase⟩ := Option.map_eq_some_iff.1 hrelease
  have hrun : Throughout System.step (fun s op => Kept s.tables.standing op ∧ Backed s.tables.standing op)
      (System.init (committees true) none none) secondRoundRun := by decide
  obtain ⟨voteSeq, revision, counted, hseq, hvoted, hcounted, hmem⟩ := counted_ofCandidate (.foldl hrun) hr hphase
  obtain ⟨-, hseq', hvoted', -⟩ := standing_of_release hr
  exact ⟨voteSeq, revision, counted, hseq'.trans hseq, hvoted'.trans hvoted, ⟨r, hr, hcounted⟩,
    fun b hb => (hmem b hb).1⟩

/-- The first round is failed, and a new revision is voted on; its first round is passed without ballots. -/
def carriedOverRun : List Op :=
  firstRound ++ [.resolve (clear 30) manager 2 (resolveAs .failed false), .read,
    .createRevision (clear 31) manager 3 upload (.ok false) 0, .read, .startVote (clear 32) manager 4 plainVote,
    .setTasks [announced 2], .read, .resolve (clear 40) manager 5 (resolveAs .passed true)]

/-- The state after that. -/
def carriedOver : System := carriedOverRun.foldl System.step (System.init (committees true) none none)

/-- The ballot that was cast on the first revision counts for the second one. -/
theorem carriedOver_countsOld : ¬ ∀ s, Reaches (StepWhen System.step fun _ _ => True)
    (System.init (committees true) none none) s → ∀ r, s.tables.release = some r → r.phase = .releaseCandidate →
      ∀ n, r.currentVoteSeq = some n → ∀ counted,
        effectiveTrustedBallots s.tables.committees r s.tables.ballots n = .ok counted →
          ∀ b ∈ counted, r.votedRevisionNumber = some b.revisionNumberAtCast := by
  intro h
  have hrun : Reaches (StepWhen System.step fun _ _ => True) (System.init (committees true) none none) carriedOver :=
    .foldl (.of_forall (fun _ _ => trivial) _ _)
  have hrelease : carriedOver.tables.release.map (fun r => (r.phase, r.currentVoteSeq, r.votedRevisionNumber,
      (effectiveTrustedBallots carriedOver.tables.committees r carriedOver.tables.ballots 3).toOption.map
        (·.map (·.revisionNumberAtCast)))) = some (.releaseCandidate, some 3, some 2, some [1]) := by decide
  obtain ⟨r, hr, heq⟩ := Option.map_eq_some_iff.1 hrelease
  obtain ⟨hphase, heq⟩ := Prod.mk.inj heq
  obtain ⟨hseq, heq⟩ := Prod.mk.inj heq
  obtain ⟨hvoted, hcounted⟩ := Prod.mk.inj heq
  obtain ⟨counted, hcounted, hold⟩ := Option.map_eq_some_iff.1 hcounted
  obtain ⟨b, rfl, hb⟩ := List.map_eq_singleton_iff.1 hold
  have := h carriedOver hrun r hr hphase 3 hseq [b] (toOption_eq_some.1 hcounted) b (List.mem_singleton_self b)
  rw [hvoted, hb] at this
  cases this

end TrustedReleases
