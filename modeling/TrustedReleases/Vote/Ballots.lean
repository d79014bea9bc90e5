import TrustedReleases.Lib.Except
import TrustedReleases.Lib.Query
import TrustedReleases.Vote.Rows

/-!
# Which ballots count

The two selections of ballots (`atr/db/interaction.py`): `effectiveTrustedBallots` lists the ballots that a resolution
counts, and `effectiveLatestBallotForVoter` finds the one of a voter.  In the second round of a podling both carry the
binding ballots of the first round for those who have not voted again.  They agree where the ballots that a voter has
cast in a vote are of one round (`effective_agree`).
-/

namespace TrustedReleases

open Lib

/-! ### Queries -/

/-- The order of the ballots of a resolution: by round, without one first, and by voter. -/
def BallotPaper.resolutionOrder (b : BallotPaper) : WithBot Nat ×ₗ Str :=
  toLex (match b.voteRound with | none => ⊥ | some n => (n : WithBot Nat), b.voterAsfUid)

/-- `ballots_for_resolution`. -/
def ballotsForResolution (ballots : List BallotPaper) (voteSeq : Nat) : List BallotPaper :=
  let rows := orderBy (fun b => OrderDual.toDual b.id) (ballots.filter fun b => decide (b.voteSeq = voteSeq))
  let latest := firstPer (fun b => (b.voteRound, b.voterAsfUid)) [] rows
  orderBy BallotPaper.resolutionOrder latest

/-- `latest_ballot_for_voter`. -/
def latestBallotForVoter (ballots : List BallotPaper) (voteSeq : Nat) (voterAsfUid : Str) : Option BallotPaper :=
  latestBy (·.id) (ballots.filter fun b => decide (b.voteSeq = voteSeq) && decide (b.voterAsfUid = voterAsfUid))

/-- `previous_round_one_vote_seq`. -/
def previousRoundOneVoteSeq (ballots : List BallotPaper) (currentVoteSeq : Nat) : Option Nat :=
  ((ballots.filter fun b => decide (b.voteRound = some 1) && decide (b.voteSeq < currentVoteSeq)).map (·.voteSeq)).max?

/-- The committees that decide who is binding, and whose vote it is: the rows of the project's committee and of the
incubator. -/
structure Committees where
  committee : Option Committee
  incubator : Option Committee
  deriving DecidableEq, Repr

/-- The vote is the second round of a podling's. -/
def Committees.secondRound (cs : Committees) (r : Release) : Option Committee :=
  match cs.committee with
  | some c => if c.isPodling = true ∧ trustedVoteRound (some c) r = some 2 then some c else none
  | none => none

/-- `effective_trusted_ballots`. -/
def effectiveTrustedBallots (cs : Committees) (r : Release) (ballots : List BallotPaper) (voteSeq : Nat) :
    Except VoteError (List BallotPaper) :=
  let currentBallots := ballotsForResolution ballots voteSeq
  match cs.secondRound r with
  | none => .ok currentBallots
  | some committee =>
    match previousRoundOneVoteSeq ballots voteSeq with
    | none => .ok currentBallots
    | some r1Seq => do
      let currentVotedUids := currentBallots.map (·.voterAsfUid)
      let carried ← (ballotsForResolution ballots r1Seq).foldlM (fun carried b =>
        if b.voterAsfUid ∈ currentVotedUids then .ok carried
        else do
          let isBinding ← isBindingForRelease cs.incubator committee b.voterAsfUid (some 2)
          return if isBinding then carried ++ [b] else carried) []
      return currentBallots ++ carried

/-- `effective_latest_ballot_for_voter`. -/
def effectiveLatestBallotForVoter (cs : Committees) (r : Release) (ballots : List BallotPaper) (voteSeq : Nat)
    (voterAsfUid : Str) : Except VoteError (Option BallotPaper) :=
  match latestBallotForVoter ballots voteSeq voterAsfUid with
  | some b => .ok (some b)
  | none =>
    match cs.secondRound r with
    | none => .ok none
    | some committee =>
      match previousRoundOneVoteSeq ballots voteSeq with
      | none => .ok none
      | some r1Seq =>
        match latestBallotForVoter ballots r1Seq voterAsfUid with
        | none => .ok none
        | some b => do
          let isBinding ← isBindingForRelease cs.incubator committee voterAsfUid (some 2)
          return if isBinding then some b else none

/-- `TrustedVoteSummary`. -/
structure TrustedVoteSummary where
  bindingVotesYes : Nat
  bindingVotesNo : Nat
  bindingVotesAbstain : Nat
  nonBindingVotesYes : Nat
  nonBindingVotesNo : Nat
  nonBindingVotesAbstain : Nat
  deriving DecidableEq, Repr

/-- `_trusted_summary_add`. -/
def TrustedVoteSummary.add (summary : TrustedVoteSummary) (isBinding : Bool) : VoteChoice → TrustedVoteSummary
  | .yes => if isBinding then { summary with bindingVotesYes := summary.bindingVotesYes + 1 }
    else { summary with nonBindingVotesYes := summary.nonBindingVotesYes + 1 }
  | .abstain => if isBinding then { summary with bindingVotesAbstain := summary.bindingVotesAbstain + 1 }
    else { summary with nonBindingVotesAbstain := summary.nonBindingVotesAbstain + 1 }
  | .no => if isBinding then { summary with bindingVotesNo := summary.bindingVotesNo + 1 }
    else { summary with nonBindingVotesNo := summary.nonBindingVotesNo + 1 }

/-- `trusted_ballot_summary`. -/
def trustedBallotSummary (cs : Committees) (r : Release) (ballots : List BallotPaper) :
    Except VoteError TrustedVoteSummary :=
  match cs.committee with
  | none => .error (.raised "Release has no committee")
  | some committee =>
    ballots.foldlM (fun summary b => do
      let isBinding ← isBindingForRelease cs.incubator committee b.voterAsfUid (trustedVoteRound cs.committee r)
      return summary.add isBinding b.choice) ⟨0, 0, 0, 0, 0, 0⟩

/-- `binding_vote_passes`. -/
def bindingVotePasses (bindingPlusOne bindingMinusOne : Nat) : Bool :=
  decide (3 ≤ bindingPlusOne) && decide (bindingMinusOne < bindingPlusOne)

/-! ### What the queries return -/

variable {ballots : List BallotPaper}

/-- No two ballots have the same id. -/
def DistinctIds (ballots : List BallotPaper) : Prop := (ballots.map (·.id)).Nodup

private theorem DistinctIds.eq (h : DistinctIds ballots) {a b : BallotPaper} (ha : a ∈ ballots) (hb : b ∈ ballots)
    (hid : a.id = b.id) : a = b := List.inj_on_of_nodup_map h ha hb hid

/-- A ballot counts if it is the latest of its voter in its round of the vote. -/
private theorem mem_ballotsForResolution (h : DistinctIds ballots) {voteSeq : Nat} {b : BallotPaper} :
    b ∈ ballotsForResolution ballots voteSeq ↔ b ∈ ballots ∧ b.voteSeq = voteSeq ∧
      ∀ c ∈ ballots, c.voteSeq = voteSeq → c.voteRound = b.voteRound → c.voterAsfUid = b.voterAsfUid → c.id ≤ b.id := by
  unfold ballotsForResolution
  have hmem : ∀ c, c ∈ orderBy (fun b => OrderDual.toDual b.id) (ballots.filter fun b => decide (b.voteSeq = voteSeq)) ↔
      c ∈ ballots ∧ c.voteSeq = voteSeq := by
    intro c
    rw [mem_orderBy, List.mem_filter, decide_eq_true_eq]
  rw [mem_orderBy, mem_firstPer_latest (t := fun b : BallotPaper => b.id), hmem, and_assoc]
  · refine and_congr_right fun _ => and_congr_right fun _ => ⟨fun hlatest c hc hs hr hv => ?_, fun hlatest c hc hk => ?_⟩
    · exact hlatest c ((hmem c).2 ⟨hc, hs⟩) (by rw [hr, hv])
    · obtain ⟨hr, hv⟩ := Prod.mk.inj hk
      exact hlatest c ((hmem c).1 hc).1 ((hmem c).1 hc).2 hr hv
  · refine (orderBy_pairwise (fun b : BallotPaper => OrderDual.toDual b.id) _).imp ?_
    intro a b hle _
    exact OrderDual.toDual_le_toDual.1 hle
  · exact fun a ha b hb _ hid => h.eq ((hmem a).1 ha).1 ((hmem b).1 hb).1 hid

private theorem ballotsForResolution_nodup (ballots : List BallotPaper) (voteSeq : Nat) :
    (ballotsForResolution ballots voteSeq).Nodup :=
  (orderBy_perm _ _).nodup_iff.2 (List.Nodup.of_map _ (firstPer_nodup _ _ _))

private theorem latestBallotForVoter_eq_some (h : DistinctIds ballots) {voteSeq : Nat} {uid : Str} {b : BallotPaper} :
    latestBallotForVoter ballots voteSeq uid = some b ↔ b ∈ ballots ∧ b.voteSeq = voteSeq ∧ b.voterAsfUid = uid ∧
      ∀ c ∈ ballots, c.voteSeq = voteSeq → c.voterAsfUid = uid → c.id ≤ b.id := by
  have hmem : ∀ c, c ∈ ballots.filter (fun b => decide (b.voteSeq = voteSeq) && decide (b.voterAsfUid = uid)) ↔
      c ∈ ballots ∧ c.voteSeq = voteSeq ∧ c.voterAsfUid = uid := by
    intro c
    rw [List.mem_filter, Bool.and_eq_true, decide_eq_true_eq, decide_eq_true_eq]
  unfold latestBallotForVoter
  constructor
  · intro hb
    obtain ⟨hin, hlatest⟩ := latestBy_eq_some hb
    obtain ⟨hb', hs, hv⟩ := (hmem b).1 hin
    exact ⟨hb', hs, hv, fun c hc hcs hcv => hlatest c ((hmem c).2 ⟨hc, hcs, hcv⟩)⟩
  · rintro ⟨hb, hs, hv, hlatest⟩
    refine latestBy_eq ((hmem b).2 ⟨hb, hs, hv⟩) fun c hc hne => ?_
    obtain ⟨hc, hcs, hcv⟩ := (hmem c).1 hc
    exact lt_of_le_of_ne (hlatest c hc hcs hcv) fun hid => hne (h.eq hc hb hid)

private theorem latestBallotForVoter_eq_none {voteSeq : Nat} {uid : Str} :
    latestBallotForVoter ballots voteSeq uid = none ↔ ∀ b ∈ ballots, b.voteSeq = voteSeq → b.voterAsfUid ≠ uid := by
  unfold latestBallotForVoter
  rw [latestBy_eq_none, List.filter_eq_nil_iff]
  refine forall₂_congr fun b _ => ?_
  rw [Bool.and_eq_true, decide_eq_true_eq, decide_eq_true_eq, not_and]

/-- The vote that the ballots are carried from: the last one with ballots of the first round. -/
theorem previousRoundOneVoteSeq_eq_some {cur n : Nat} (h : previousRoundOneVoteSeq ballots cur = some n) :
    n < cur ∧ (∃ b ∈ ballots, b.voteRound = some 1 ∧ b.voteSeq = n) ∧
      ∀ b ∈ ballots, b.voteRound = some 1 → b.voteSeq < cur → b.voteSeq ≤ n := by
  unfold previousRoundOneVoteSeq at h
  obtain ⟨hmem, hmax⟩ := List.max?_eq_some_iff.1 h
  obtain ⟨b, hb, rfl⟩ := List.mem_map.1 hmem
  rw [List.mem_filter, Bool.and_eq_true, decide_eq_true_eq, decide_eq_true_eq] at hb
  refine ⟨hb.2.2, ⟨b, hb.1, hb.2.1, rfl⟩, fun c hc hr hlt => hmax _ (List.mem_map_of_mem ?_)⟩
  rw [List.mem_filter, Bool.and_eq_true, decide_eq_true_eq, decide_eq_true_eq]
  exact ⟨hc, hr, hlt⟩

/-! ### The two selections agree -/

/-- The ballots that a voter has cast in a vote are of one round. -/
def OneRound (ballots : List BallotPaper) : Prop :=
  ∀ a ∈ ballots, ∀ b ∈ ballots, a.voteSeq = b.voteSeq → a.voterAsfUid = b.voterAsfUid → a.voteRound = b.voteRound

/-- Of each voter the latest ballot counts. -/
private theorem ballotsForResolution_filter (hids : DistinctIds ballots) (hround : OneRound ballots) (voteSeq : Nat)
    (uid : Str) :
    (ballotsForResolution ballots voteSeq).filter (fun b => decide (b.voterAsfUid = uid)) =
      (latestBallotForVoter ballots voteSeq uid).toList := by
  refine filter_eq_toList (ballotsForResolution_nodup _ _) fun b => ?_
  rw [decide_eq_true_eq, mem_ballotsForResolution hids, latestBallotForVoter_eq_some hids]
  constructor
  · rintro ⟨⟨hb, hs, hlatest⟩, hv⟩
    refine ⟨hb, hs, hv, fun c hc hcs hcv => hlatest c hc hcs ?_ (hcv.trans hv.symm)⟩
    exact hround c hc b hb (hcs.trans hs.symm) (hcv.trans hv.symm)
  · rintro ⟨hb, hs, hv, hlatest⟩
    exact ⟨⟨hb, hs, fun c hc hcs _ hcv => hlatest c hc hcs (hcv.trans hv)⟩, hv⟩

theorem secondRound_isPodling {cs : Committees} {r : Release} {c : Committee} (h : cs.secondRound r = some c) :
    cs.committee = some c ∧ c.isPodling = true ∧ trustedVoteRound (some c) r = some 2 := by
  unfold Committees.secondRound at h
  split at h
  · rename_i c' hc
    split at h
    · rename_i hround
      obtain rfl := Option.some.inj h
      exact ⟨hc, hround⟩
    · cases h
  · cases h

/-- In a second round that follows a first one with ballots, those of its voters count who are in the incubator's
committee and have not voted again. -/
theorem effectiveTrustedBallots_carried {cs : Committees} {r : Release} {c : Committee} {voteSeq r1Seq : Nat}
    (hsecond : cs.secondRound r = some c) (hr1 : previousRoundOneVoteSeq ballots voteSeq = some r1Seq) :
    effectiveTrustedBallots cs r ballots voteSeq = .ok (ballotsForResolution ballots voteSeq ++
      (ballotsForResolution ballots r1Seq).filter fun b =>
        decide (b.voterAsfUid ∉ (ballotsForResolution ballots voteSeq).map (·.voterAsfUid)) &&
          isCommitteeMember cs.incubator b.voterAsfUid) := by
  have hpodling := (secondRound_isPodling hsecond).2.1
  simp only [effectiveTrustedBallots, hsecond, hr1]
  rw [foldlM_filter (q := fun b =>
    decide (b.voterAsfUid ∉ (ballotsForResolution ballots voteSeq).map (·.voterAsfUid)) &&
      isCommitteeMember cs.incubator b.voterAsfUid) fun acc b _ => ?_]
  · rfl
  · rw [isBindingForRelease_two hpodling, ok_bind]
    by_cases hvoted : b.voterAsfUid ∈ (ballotsForResolution ballots voteSeq).map (·.voterAsfUid)
    · simp only [hvoted, if_true, not_true_eq_false, decide_false, Bool.false_and, Bool.false_eq_true, if_false]
    · simp only [hvoted, if_false, not_false_eq_true, decide_true, Bool.true_and]
      rfl

/-- Of each voter, the ballot counts that `effective_latest_ballot_for_voter` returns, and no other. -/
theorem effective_agree (cs : Committees) (r : Release) (hids : DistinctIds ballots) (hround : OneRound ballots)
    (voteSeq : Nat) :
    ∃ counted, effectiveTrustedBallots cs r ballots voteSeq = .ok counted ∧ ∀ uid, ∃ latest,
      effectiveLatestBallotForVoter cs r ballots voteSeq uid = .ok latest ∧
        counted.filter (fun b => decide (b.voterAsfUid = uid)) = latest.toList := by
  have hcurrent := ballotsForResolution_filter hids hround voteSeq
  have hplain : effectiveTrustedBallots cs r ballots voteSeq = .ok (ballotsForResolution ballots voteSeq) →
      (∀ uid, latestBallotForVoter ballots voteSeq uid = none →
        effectiveLatestBallotForVoter cs r ballots voteSeq uid = .ok none) →
      ∃ counted, effectiveTrustedBallots cs r ballots voteSeq = .ok counted ∧ ∀ uid, ∃ latest,
        effectiveLatestBallotForVoter cs r ballots voteSeq uid = .ok latest ∧
          counted.filter (fun b => decide (b.voterAsfUid = uid)) = latest.toList := by
    intro hcounted hnone
    refine ⟨_, hcounted, fun uid => ⟨latestBallotForVoter ballots voteSeq uid, ?_, hcurrent uid⟩⟩
    cases hl : latestBallotForVoter ballots voteSeq uid with
    | none => exact hnone uid hl
    | some b => simp only [effectiveLatestBallotForVoter, hl]
  cases hsecond : cs.secondRound r with
  | none =>
    refine hplain (by simp only [effectiveTrustedBallots, hsecond]) fun uid hl => ?_
    simp only [effectiveLatestBallotForVoter, hl, hsecond]
  | some c =>
    cases hr1 : previousRoundOneVoteSeq ballots voteSeq with
    | none =>
      refine hplain (by simp only [effectiveTrustedBallots, hsecond, hr1]) fun uid hl => ?_
      simp only [effectiveLatestBallotForVoter, hl, hsecond, hr1]
    | some r1Seq =>
      refine ⟨_, effectiveTrustedBallots_carried hsecond hr1, fun uid => ?_⟩
      have hpodling := (secondRound_isPodling hsecond).2.1
      have hr1filter := ballotsForResolution_filter hids hround r1Seq uid
      rw [List.filter_append, hcurrent uid, List.filter_filter]
      cases hl : latestBallotForVoter ballots voteSeq uid with
      | some b =>
        -- a voter of the second round has no ballot carried
        refine ⟨some b, by simp only [effectiveLatestBallotForVoter, hl], ?_⟩
        have hb : b ∈ ballotsForResolution ballots voteSeq ∧ b.voterAsfUid = uid := by
          have hmem : b ∈ (ballotsForResolution ballots voteSeq).filter fun b => decide (b.voterAsfUid = uid) := by
            rw [hcurrent uid, hl]
            exact List.mem_singleton_self b
          rw [List.mem_filter, decide_eq_true_eq] at hmem
          exact hmem
        rw [List.filter_eq_nil_iff.2 fun a _ => ?_, List.append_nil]
        simp only [Bool.and_eq_true, decide_eq_true_eq, not_and]
        intro hav hnot _
        exact hnot (List.mem_map.2 ⟨b, hb.1, hb.2.trans hav.symm⟩)
      | none =>
        have hnot : uid ∉ (ballotsForResolution ballots voteSeq).map (·.voterAsfUid) := by
          intro hmem
          obtain ⟨b, hb, hv⟩ := List.mem_map.1 hmem
          obtain ⟨hb, hs, -⟩ := (mem_ballotsForResolution hids).1 hb
          exact latestBallotForVoter_eq_none.1 hl b hb hs hv
        have hcarried : ∀ a ∈ ballotsForResolution ballots r1Seq,
            (decide (a.voterAsfUid = uid) && (decide (a.voterAsfUid ∉
              (ballotsForResolution ballots voteSeq).map (·.voterAsfUid)) && isCommitteeMember cs.incubator a.voterAsfUid)) =
            (decide (a.voterAsfUid = uid) && isCommitteeMember cs.incubator uid) := by
          intro a _
          by_cases hav : a.voterAsfUid = uid
          · simp only [hav, hnot, decide_true, not_false_eq_true, Bool.true_and]
          · simp only [hav, decide_false, Bool.false_and]
        rw [List.filter_congr hcarried, Option.toList_none, List.nil_append]
        cases hbinding : isCommitteeMember cs.incubator uid with
        | true =>
          simp only [Bool.and_true, hr1filter]
          refine ⟨latestBallotForVoter ballots r1Seq uid, ?_, rfl⟩
          cases hl1 : latestBallotForVoter ballots r1Seq uid with
          | none => simp only [effectiveLatestBallotForVoter, hl, hsecond, hr1, hl1]
          | some b =>
            simp only [effectiveLatestBallotForVoter, hl, hsecond, hr1, hl1, isBindingForRelease_two hpodling, ok_bind,
              hbinding, if_true, pure_eq_ok]
        | false =>
          refine ⟨none, ?_, by simp⟩
          cases hl1 : latestBallotForVoter ballots r1Seq uid with
          | none => simp only [effectiveLatestBallotForVoter, hl, hsecond, hr1, hl1]
          | some b =>
            simp only [effectiveLatestBallotForVoter, hl, hsecond, hr1, hl1, isBindingForRelease_two hpodling, ok_bind,
              hbinding, Bool.false_eq_true, if_false, pure_eq_ok]

end TrustedReleases
