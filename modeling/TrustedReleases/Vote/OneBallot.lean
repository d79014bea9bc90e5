import TrustedReleases.Vote.Frozen

/-!
# One ballot for each voter

A voter can vote any number of times, in two rounds, and still one ballot at most counts: the one that the voter is
shown (`oneBallot_perVoter`).  The two selections of ballots differ in what they do with rounds, so this needs that the
ballots of a voter in one vote are of one round.  The committee can become a podling while a vote is open, and then they
are not (`becamePodling`).
-/

namespace TrustedReleases

open Lib

/-- A ballot is cast in the round of the earlier ballots of its voter in the vote. -/
def SameRound (t : Standing) : Op → Prop
  | .castTrusted _ actor _ => ∀ b ∈ t.ballots, t.voteSeq = some b.voteSeq → b.voterAsfUid = actor.asfUid →
      b.voteRound = t.votingRound
  | _ => True

instance (t : Standing) (op : Op) : Decidable (SameRound t op) := by
  unfold SameRound
  split <;> infer_instance

/-! ### The invariant -/

private theorem id_lt_nextBallotId {ballots : List BallotPaper} {b : BallotPaper} (hb : b ∈ ballots) :
    b.id < nextBallotId ballots := by
  have hmem : b.id ∈ ballots.map (·.id) := List.mem_map_of_mem hb
  unfold nextBallotId
  cases hmax : (ballots.map (·.id)).max? with
  | none =>
    rw [List.max?_eq_none_iff] at hmax
    rw [hmax] at hmem
    cases hmem
  | some m =>
    have := (List.max?_eq_some_iff.1 hmax).2 _ hmem
    exact Nat.lt_succ_of_le this

theorem DistinctIds.append {ballots : List BallotPaper} (h : DistinctIds ballots) {b : BallotPaper}
    (hb : b.id = nextBallotId ballots) : DistinctIds (ballots ++ [b]) := by
  unfold DistinctIds at h ⊢
  rw [List.map_append, List.nodup_append]
  refine ⟨h, List.nodup_singleton _, fun i hi j hj heq => ?_⟩
  obtain ⟨c, hc, rfl⟩ := List.mem_map.1 hi
  have := id_lt_nextBallotId hc
  have hbj : j = b.id := List.mem_singleton.1 hj
  omega

theorem OneRound.append {ballots : List BallotPaper} (h : OneRound ballots) {b : BallotPaper}
    (hb : ∀ c ∈ ballots, c.voteSeq = b.voteSeq → c.voterAsfUid = b.voterAsfUid → c.voteRound = b.voteRound) :
    OneRound (ballots ++ [b]) := by
  intro c hc d hd hseq hvoter
  rw [List.mem_append, List.mem_singleton] at hc hd
  rcases hc with hc | rfl <;> rcases hd with hd | rfl
  · exact h c hc d hd hseq hvoter
  · exact hb c hc hseq hvoter
  · exact (hb d hd hseq.symm hvoter.symm).symm
  · rfl

/-- The ballots of a release: each has an id of its own, and those of a voter in a vote are of one round. -/
structure WellCast (ballots : List BallotPaper) : Prop where
  ids : DistinctIds ballots
  round : OneRound ballots

theorem WellCast.nil : WellCast [] := ⟨List.nodup_nil, fun _ ha => by cases ha⟩

/-- The steps keep the invariant. -/
theorem WellCast.step {l l' : Life} (h : WellCast l.standing.ballots) {op : Op} (hstep : Life.Step l op l')
    (hcond : SameRound l.standing op) : WellCast l'.standing.ballots := by
  cases hstep with
  | castTrusted b hphase hseq hround hlatest hvoter hid =>
    refine ⟨h.ids.append hid, h.round.append fun c hc hcseq hcvoter => ?_⟩
    rw [hround]
    exact hcond c hc (by rw [hseq, hcseq]) (hcvoter.trans hvoter)
  | deleteRelease => exact .nil
  | _ => exact h

/-! ### The theorem -/

/-- Of each voter that ballot is counted which `effective_latest_ballot_for_voter` returns, and no other, in every run
in which the ballots of a voter in one vote are of one round. -/
theorem oneBallot_perVoter {cs : Committees} {revisionCounter voteCounter : Option Nat} {s : System}
    (hrun : Reaches (StepWhen System.step fun s op => SameRound s.tables.standing op)
      (System.init cs revisionCounter voteCounter) s) (r : Release) (voteSeq : Nat) :
    ∃ counted, effectiveTrustedBallots s.tables.committees r s.tables.ballots voteSeq = .ok counted ∧
      ∀ uid, ∃ latest,
        effectiveLatestBallotForVoter s.tables.committees r s.tables.ballots voteSeq uid = .ok latest ∧
          counted.filter (fun b => decide (b.voterAsfUid = uid)) = latest.toList := by
  have hcast : WellCast s.life.standing.ballots :=
    Reaches.keeps (I := fun s : System => WellCast s.life.standing.ballots) (fun s op h hcond => h.step (System.step_life s op) hcond)
      hrun .nil
  exact effective_agree s.tables.committees r hcast.ids hcast.round voteSeq

/-! ### A committee that becomes a podling -/

/-- The announcement of a vote, which has been sent. -/
def announced (voteSeq : Nat) : VoteTask where
  args := .initiate (plainVote.initiate manager voteSeq)
  status := .completed
  added := 10
  completed := some 10
  error := none
  result := some (.voteInitiate [] (some "mid".toList) (some 20))

/-- A vote in favour. -/
def inFavour : CastVote := ⟨.yes, [], [], none, none, "receipt".toList⟩

/-- The first revision of a release is voted on. -/
def firstVote : List Op :=
  [.startRelease (clear 1) manager false none (.ok ()), .read, .createRevision (clear 2) manager 0 upload (.ok false) 0,
    .read, .startVote (clear 3) manager 1 plainVote, .setTasks [announced 1]]

/-- A voter votes twice. -/
def votedTwice : System :=
  (firstVote ++ [Op.castTrusted (clear 11) manager inFavour, .castTrusted (clear 12) manager inFavour]).foldl
    System.step (System.init (committees false) none none)

theorem oneBallot_perVoter_votedTwice : ∃ counted,
    effectiveTrustedBallots votedTwice.tables.committees (Release.draft 1 false none) votedTwice.tables.ballots 1 =
      .ok counted ∧ (counted.filter fun b => decide (b.voterAsfUid = manager.asfUid)).length ≤ 1 := by
  have hrun : Throughout System.step (fun s op => SameRound s.tables.standing op)
      (System.init (committees false) none none)
      (firstVote ++ [Op.castTrusted (clear 11) manager inFavour, .castTrusted (clear 12) manager inFavour]) := by decide
  obtain ⟨counted, hcounted, hvoter⟩ := oneBallot_perVoter (.foldl hrun) (Release.draft 1 false none) 1
  obtain ⟨latest, -, heq⟩ := hvoter manager.asfUid
  refine ⟨counted, hcounted, ?_⟩
  rw [heq]
  cases latest <;> simp

/-- The committee becomes a podling between the two ballots of a voter. -/
def becamePodling : System :=
  (firstVote ++ [Op.castTrusted (clear 11) manager inFavour, .setCommittees (committees true),
    .castTrusted (clear 12) manager inFavour]).foldl System.step (System.init (committees false) none none)

/-- Both ballots count. -/
theorem becamePodling_countsTwice : ¬ ∀ s, Reaches (StepWhen System.step fun _ _ => True)
    (System.init (committees false) none none) s → ∀ r, s.tables.release = some r → r.phase = .releaseCandidate →
      ∀ n, r.currentVoteSeq = some n → ∀ counted,
        effectiveTrustedBallots s.tables.committees r s.tables.ballots n = .ok counted →
          ∀ uid, (counted.filter fun b => decide (b.voterAsfUid = uid)).length ≤ 1 := by
  intro h
  have hrun : Reaches (StepWhen System.step fun _ _ => True) (System.init (committees false) none none) becamePodling :=
    .foldl (.of_forall (fun _ _ => trivial) _ _)
  have hrelease : becamePodling.tables.release.map (fun r => (r.phase, r.currentVoteSeq,
      (effectiveTrustedBallots becamePodling.tables.committees r becamePodling.tables.ballots 1).toOption.map fun counted =>
        (counted.filter fun b => decide (b.voterAsfUid = manager.asfUid)).length)) =
      some (.releaseCandidate, some 1, some 2) := by decide
  obtain ⟨r, hr, heq⟩ := Option.map_eq_some_iff.1 hrelease
  obtain ⟨hphase, heq⟩ := Prod.mk.inj heq
  obtain ⟨hseq, hcounted⟩ := Prod.mk.inj heq
  obtain ⟨counted, hcounted, htwo⟩ := Option.map_eq_some_iff.1 hcounted
  have hone := h becamePodling hrun r hr hphase 1 hseq counted (toOption_eq_some.1 hcounted) manager.asfUid
  omega

end TrustedReleases
