import TrustedReleases.Tabulate.Votes

/-!
# Who can change the binding tally

The tabulation ends at the first message with `[RESULT]` in its subject, whoever sent it.  Up to there the binding votes
are those of the members' messages alone (`bindingVotes_tally`), as long as nobody else's vote is filed under the key of
a member: the key is the ASF account of the sender, or the address where there is no account.
-/

namespace TrustedReleases

open Lib

namespace Tabulate

variable {env : Lookups} {request : Request}

/-! ### What is read -/

/-- The sender is a member of the voting committee. -/
def Member (env : Lookups) (request : Request) (m : Message) : Prop :=
  ∃ i ∈ m.identity env, i.status env request m = .binding

instance memberDecidable (env : Lookups) (request : Request) (m : Message) : Decidable (Member env request m) :=
  match h : m.identity env with
  | none => .isFalse fun ⟨i, hi, _⟩ => by rw [h] at hi; cases hi
  | some i => decidable_of_iff (i.status env request m = .binding)
      ⟨fun hi => ⟨i, h, hi⟩, fun ⟨j, hj, hstatus⟩ => by rw [h] at hj; rwa [Option.some.inj hj]⟩

/-- The message ends the tabulation. -/
def EndsVote (env : Lookups) (request : Request) (m : Message) : Prop :=
  ¬ request.excludes m ∧ (m.identity env).isSome ∧ contains "[RESULT]".toList m.subject = true

instance endsVoteDecidable (env : Lookups) (request : Request) (m : Message) : Decidable (EndsVote env request m) :=
  inferInstanceAs (Decidable (¬ _ ∧ _ ∧ _))

/-- The messages before the one that ends the tabulation. -/
def beforeResult (env : Lookups) (request : Request) (thread : List Message) : List Message :=
  thread.takeWhile fun m => decide ¬ EndsVote env request m

/-- The messages that are read: those before the one that ends the tabulation, and that one. -/
def upToResult (env : Lookups) (request : Request) (thread : List Message) : List Message :=
  thread.take ((beforeResult env request thread).length + 1)

/-- The sender of a message that casts a vote. -/
def voter (env : Lookups) (request : Request) (m : Message) : Option Identity :=
  if request.excludes m ∨ m.body = [] ∨ voteCastings m.body = [] then none else m.identity env

/-- The votes after one message that does not end the tabulation. -/
def tallyOne (env : Lookups) (request : Request) (votes : OrdDict Str VoteEmail) (m : Message) : OrdDict Str VoteEmail :=
  match voter env request m with
  | none => votes
  | some i => votes.set i.key (castVote env request m i (voteCastings m.body) (decide (i.key ∈ votes.keys)))

/-- The votes after the messages, none of which ends the tabulation. -/
def tally (env : Lookups) (request : Request) (votes : OrdDict Str VoteEmail) (thread : List Message) :
    OrdDict Str VoteEmail := thread.foldl (tallyOne env request) votes

@[simp] theorem started_votes (s : Tabulated) (m : Message) : (s.started m).votes = s.votes := by
  unfold Tabulated.started
  split <;> rfl

theorem record_votes {s : Tabulated} {m : Message} {i : Identity} (hexcluded : ¬ request.excludes m)
    (hi : m.identity env = some i) : (s.record env request m i).votes = tallyOne env request s.votes m := by
  unfold Tabulated.record tallyOne voter
  by_cases hcasts : m.body = [] ∨ voteCastings m.body = []
  · rw [if_pos hcasts, if_pos (Or.inr hcasts)]
  · rw [if_neg hcasts, if_neg (not_or.2 ⟨hexcluded, hcasts⟩), hi]

private theorem upToResult_cons {m : Message} (ms : List Message) (hgoes : ¬ EndsVote env request m) :
    upToResult env request (m :: ms) = m :: upToResult env request ms := by
  unfold upToResult beforeResult
  rw [List.takeWhile_cons_of_pos (by simpa using hgoes), List.length_cons, List.take_succ_cons]

/-- A thread that is not too long is read up to the message that ends it. -/
theorem votesFrom_eq (thread : List Message) (messageCount : Nat) (s : Tabulated)
    (hsize : messageCount + (upToResult env request thread).length ≤ MAX_THREAD_MESSAGES) :
    ∃ s', votesFrom env request messageCount s thread = .ok s' ∧
      s'.votes = tally env request s.votes (beforeResult env request thread) := by
  induction thread generalizing messageCount s with
  | nil => exact ⟨s, rfl, rfl⟩
  | cons m ms ih =>
    have hfirst : 1 ≤ (upToResult env request (m :: ms)).length := by
      unfold upToResult
      rw [List.take_succ_cons, List.length_cons]
      omega
    have hcount : ¬ MAX_THREAD_MESSAGES < messageCount + 1 := by omega
    have hrest (hgoes : ¬ EndsVote env request m) :
        messageCount + 1 + (upToResult env request ms).length ≤ MAX_THREAD_MESSAGES := by
      rw [upToResult_cons ms hgoes, List.length_cons] at hsize
      omega
    unfold votesFrom beforeResult
    rw [if_neg hcount]
    by_cases hexcluded : request.excludes m
    · have hgoes : ¬ EndsVote env request m := fun h => h.1 hexcluded
      have hone : tallyOne env request s.votes m = s.votes := by
        simp [tallyOne, voter, hexcluded]
      rw [if_pos hexcluded, List.takeWhile_cons_of_pos (by simpa using hgoes), tally, List.foldl_cons, hone]
      exact ih (messageCount + 1) s (hrest hgoes)
    · rw [if_neg hexcluded]
      cases hi : m.identity env with
      | none =>
        have hgoes : ¬ EndsVote env request m := fun h => by simpa [hi] using h.2.1
        have hone : tallyOne env request s.votes m = s.votes := by
          simp [tallyOne, voter, hi]
        rw [List.takeWhile_cons_of_pos (by simpa using hgoes), tally, List.foldl_cons, hone]
        exact ih (messageCount + 1) s (hrest hgoes)
      | some i =>
        dsimp only
        by_cases hresult : contains "[RESULT]".toList m.subject = true
        · have hends : EndsVote env request m := ⟨hexcluded, by rw [hi]; rfl, hresult⟩
          rw [if_pos hresult, List.takeWhile_cons_of_neg (by simpa using hends)]
          exact ⟨s.started m, rfl, started_votes s m⟩
        · have hgoes : ¬ EndsVote env request m := fun h => hresult h.2.2
          rw [if_neg hresult, List.takeWhile_cons_of_pos (by simpa using hgoes), tally, List.foldl_cons]
          obtain ⟨s', hok, hvotes⟩ := ih (messageCount + 1) ((s.started m).record env request m i) (hrest hgoes)
          refine ⟨s', hok, ?_⟩
          rw [hvotes, record_votes hexcluded hi, started_votes]
          rfl

/-! ### The members' votes -/

/-- The binding votes among the votes. -/
def bindingVotes (votes : OrdDict Str VoteEmail) : OrdDict Str VoteEmail :=
  votes.filter fun _ v => decide (v.status = .binding)

/-- Nobody else's vote is filed under the key of a member who votes. -/
def KeysApart (env : Lookups) (request : Request) (thread : List Message) : Prop :=
  ∀ m ∈ thread, ¬ Member env request m → ∀ i ∈ voter env request m,
    ∀ m' ∈ thread, Member env request m' → ∀ j ∈ voter env request m', i.key ≠ j.key

instance keysApartDecidable (env : Lookups) (request : Request) (thread : List Message) :
    Decidable (KeysApart env request thread) :=
  inferInstanceAs (Decidable (∀ m ∈ thread, ¬ Member env request m → ∀ i ∈ voter env request m,
    ∀ m' ∈ thread, Member env request m' → ∀ j ∈ voter env request m', i.key ≠ j.key))

private theorem identity_of_voter {m : Message} {i : Identity} (h : voter env request m = some i) :
    m.identity env = some i := by
  unfold voter at h
  split_ifs at h
  exact h

private theorem member_iff {m : Message} {i : Identity} (h : voter env request m = some i) :
    Member env request m ↔ i.status env request m = .binding := by
  unfold Member
  rw [identity_of_voter h]
  simp

theorem tallyOne_none {votes : OrdDict Str VoteEmail} {m : Message} (h : voter env request m = none) :
    tallyOne env request votes m = votes := by
  unfold tallyOne
  rw [h]

theorem tallyOne_some {votes : OrdDict Str VoteEmail} {m : Message} {i : Identity} (h : voter env request m = some i) :
    tallyOne env request votes m =
      votes.set i.key (castVote env request m i (voteCastings m.body) (decide (i.key ∈ votes.keys))) := by
  unfold tallyOne
  rw [h]

@[simp] theorem castVote_status (env : Lookups) (request : Request) (m : Message) (i : Identity)
    (castings : List (Vote × Str)) (updated : Bool) :
    (castVote env request m i castings updated).status = i.status env request m := rfl

/-- The votes of all messages and those of the members alone, after the same part of a thread.  Under the keys of
members there are binding votes only. -/
structure Agree (keys : Str → Prop) (all members : OrdDict Str VoteEmail) : Prop where
  get : ∀ k, members.get k = (all.get k).filter fun v => decide (v.status = .binding)
  own : ∀ k v, keys k → all.get k = some v → v.status = .binding
  keys : ∀ k, k ∈ members.keys → keys k

theorem Agree.mem_keys {keys : Str → Prop} {all members : OrdDict Str VoteEmail} (h : Agree keys all members) {k : Str}
    (hk : keys k) : k ∈ all.keys ↔ k ∈ members.keys := by
  rw [OrdDict.mem_keys, OrdDict.mem_keys, h.get]
  cases hget : all.get k with
  | none => simp
  | some v => simp [h.own k v hk hget]

/-- The vote of a member is recorded on both sides alike. -/
theorem Agree.member {keys : Str → Prop} {all members : OrdDict Str VoteEmail} (h : Agree keys all members) {m : Message}
    {i : Identity} (hi : voter env request m = some i) (hmember : Member env request m) (hkey : keys i.key) :
    Agree keys (tallyOne env request all m) (tallyOne env request members m) := by
  have hstatus := (member_iff hi).1 hmember
  have hupdated : decide (i.key ∈ all.keys) = decide (i.key ∈ members.keys) := decide_eq_decide.2 (h.mem_keys hkey)
  rw [tallyOne_some hi, tallyOne_some hi, hupdated]
  constructor
  · intro k
    rw [OrdDict.get_set, OrdDict.get_set]
    by_cases hk : k = i.key
    · rw [if_pos hk, if_pos hk, Option.filter_some, castVote_status, if_pos (by simpa using hstatus)]
    · rw [if_neg hk, if_neg hk, h.get]
  · intro k v hk hget
    rw [OrdDict.get_set] at hget
    split_ifs at hget with heq
    · rw [← Option.some.inj hget]
      exact hstatus
    · exact h.own k v hk hget
  · intro k hk
    rw [OrdDict.mem_keys, OrdDict.get_set] at hk
    by_cases heq : k = i.key
    · rw [heq]
      exact hkey
    · rw [if_neg heq] at hk
      exact h.keys k (OrdDict.mem_keys.2 hk)

/-- Another vote changes nothing under the keys of members. -/
theorem Agree.other {keys : Str → Prop} {all members : OrdDict Str VoteEmail} (h : Agree keys all members) {m : Message}
    (hmember : ¬ Member env request m) (hkey : ∀ i, voter env request m = some i → ¬ keys i.key) :
    Agree keys (tallyOne env request all m) members := by
  cases hi : voter env request m with
  | none => rwa [tallyOne_none hi]
  | some i =>
    have hstatus : i.status env request m ≠ .binding := fun hbinding => hmember ((member_iff hi).2 hbinding)
    rw [tallyOne_some hi]
    constructor
    · intro k
      rw [OrdDict.get_set]
      by_cases hk : k = i.key
      · have hnone : members.get k = none := by
          rw [OrdDict.get_eq_none, hk]
          exact fun hmem => hkey i hi (h.keys _ hmem)
        rw [if_pos hk, hnone, Option.filter_some, castVote_status, if_neg (by simpa using hstatus)]
      · rw [if_neg hk, h.get]
    · intro k v hk hget
      rw [OrdDict.get_set] at hget
      split_ifs at hget with heq
      · rw [heq] at hk
        exact absurd hk (hkey i hi)
      · exact h.own k v hk hget
    · exact h.keys

/-- All messages and those of the members leave the same binding votes. -/
theorem Agree.tally {keys : Str → Prop} (thread : List Message)
    (hkeys : ∀ m ∈ thread, ∀ i ∈ voter env request m, keys i.key ↔ Member env request m)
    {all members : OrdDict Str VoteEmail} (h : Agree keys all members) :
    Agree keys (tally env request all thread)
      (tally env request members (thread.filter fun m => decide (Member env request m))) := by
  induction thread generalizing all members with
  | nil => exact h
  | cons m ms ih =>
    rw [List.forall_mem_cons] at hkeys
    unfold Tabulate.tally
    rw [List.foldl_cons]
    by_cases hmember : Member env request m
    · rw [List.filter_cons_of_pos (by simpa using hmember), List.foldl_cons]
      cases hi : voter env request m with
      | none =>
        rw [tallyOne_none hi, tallyOne_none hi]
        exact ih hkeys.2 h
      | some i => exact ih hkeys.2 (h.member hi hmember ((hkeys.1 i hi).2 hmember))
    · rw [List.filter_cons_of_neg (by simpa using hmember)]
      exact ih hkeys.2 (h.other hmember fun i hi hkey => hmember ((hkeys.1 i hi).1 hkey))

/-- The binding votes are those of the members' messages alone. -/
private theorem bindingVotes_tally {thread : List Message} (hapart : KeysApart env request thread) (k : Str) :
    (bindingVotes (tally env request .empty thread)).get k =
      (tally env request .empty (thread.filter fun m => decide (Member env request m))).get k := by
  have hagree : Agree (fun k => ∃ m ∈ thread, Member env request m ∧ ∃ j ∈ voter env request m, k = j.key)
      (tally env request .empty thread)
      (tally env request .empty (thread.filter fun m => decide (Member env request m))) := by
    refine Agree.tally thread (fun m hm i hi => ⟨?_, fun hmember => ⟨m, hm, hmember, i, hi, rfl⟩⟩)
      ⟨fun k => by simp, fun k v _ hget => by simp at hget, fun k hk => absurd hk List.not_mem_nil⟩
    rintro ⟨m', hm', hmember', j, hj, hkey⟩
    by_contra hmember
    exact hapart m hm hmember i hi m' hm' hmember' j hj hkey
  unfold bindingVotes
  rw [hagree.get, OrdDict.get_filter]

/-! ### The tally -/

def countsOf (votes : List VoteEmail) : Counts where
  votes := votes.length
  yes := votes.countP fun v => decide (v.vote = .yes)
  no := votes.countP fun v => decide (v.vote = .no)
  abstain := votes.countP fun v => decide (v.vote = .abstain)

/-- What is reported of the binding votes: by `votes` and by `vote_summary`, and by `vote_outcome` if they pass. -/
structure BindingTally where
  votes : Counts
  summary : Counts
  passes : Bool
  deriving DecidableEq

def bindingTally (s : Tabulated) : BindingTally where
  votes := countsOf (s.votes.values.filter fun v => decide (v.status = .binding))
  summary := (voteSummary s.votes).binding
  passes := voteOutcome s.votes

private theorem add_binding (s : VoteSummary) (v : VoteEmail) :
    (s.add v).binding = if v.status = .binding then s.binding.add v.vote else s.binding := by
  unfold VoteSummary.add
  cases v.status <;> rfl

private theorem foldl_add_binding (vs : List VoteEmail) (s : VoteSummary) :
    (vs.foldl VoteSummary.add s).binding =
      let counts := countsOf (vs.filter fun v => decide (v.status = .binding))
      ⟨s.binding.votes + counts.votes, s.binding.yes + counts.yes, s.binding.no + counts.no,
        s.binding.abstain + counts.abstain⟩ := by
  induction vs generalizing s with
  | nil => rfl
  | cons v vs ih =>
    rw [List.foldl_cons, ih, add_binding]
    by_cases hbinding : v.status = .binding
    · rw [if_pos hbinding, List.filter_cons_of_pos (by simpa using hbinding)]
      simp only [countsOf, Counts.add, List.length_cons, List.countP_cons, decide_eq_true_eq, Counts.mk.injEq]
      refine ⟨?_, ?_, ?_, ?_⟩ <;> omega
    · rw [if_neg hbinding, List.filter_cons_of_neg (by simpa using hbinding)]

theorem voteSummary_binding (votes : OrdDict Str VoteEmail) :
    (voteSummary votes).binding = countsOf (votes.values.filter fun v => decide (v.status = .binding)) := by
  unfold voteSummary
  rw [foldl_add_binding]
  simp

private theorem voteOutcome_eq (votes : OrdDict Str VoteEmail) :
    voteOutcome votes =
      let counts := countsOf (votes.values.filter fun v => decide (v.status = .binding))
      bindingVotePasses counts.yes counts.no := rfl

private theorem values_bindingVotes (votes : OrdDict Str VoteEmail) :
    (bindingVotes votes).values = votes.values.filter fun v => decide (v.status = .binding) := by
  unfold OrdDict.values bindingVotes OrdDict.filter
  rw [List.filter_map]
  rfl

private theorem countsOf_perm {vs vs' : List VoteEmail} (h : vs.Perm vs') : countsOf vs = countsOf vs' := by
  unfold countsOf
  rw [h.length_eq, h.countP_eq, h.countP_eq, h.countP_eq]

/-- The tally depends on the binding votes only. -/
private theorem bindingTally_congr {s s' : Tabulated}
    (h : ∀ k, (bindingVotes s.votes).get k = (bindingVotes s'.votes).get k) : bindingTally s = bindingTally s' := by
  have hcounts := countsOf_perm (OrdDict.values_perm h)
  rw [values_bindingVotes, values_bindingVotes] at hcounts
  unfold bindingTally
  rw [voteSummary_binding, voteSummary_binding, voteOutcome_eq, voteOutcome_eq, hcounts]

/-- Threads with the same messages of members up to the result have the same binding tally, if they are not too long up
to there and nobody else's vote is filed under the key of a member. -/
theorem votes_noninterference (env : Lookups) (request : Request) (thread thread' : List Message)
    (hsize : (upToResult env request thread).length ≤ MAX_THREAD_MESSAGES)
    (hsize' : (upToResult env request thread').length ≤ MAX_THREAD_MESSAGES)
    (hmembers : ((beforeResult env request thread).filter fun m => decide (Member env request m)) =
      (beforeResult env request thread').filter fun m => decide (Member env request m))
    (hapart : KeysApart env request (beforeResult env request thread))
    (hapart' : KeysApart env request (beforeResult env request thread')) :
    (votes env request thread).map bindingTally = (votes env request thread').map bindingTally := by
  obtain ⟨s, hok, hs⟩ := @votesFrom_eq env request thread 0 ⟨none, .empty⟩ (by omega)
  obtain ⟨s', hok', hs'⟩ := @votesFrom_eq env request thread' 0 ⟨none, .empty⟩ (by omega)
  unfold votes
  rw [hok, hok']
  refine congrArg Except.ok (bindingTally_congr fun k => ?_)
  rw [hs, hs', bindingVotes_tally hapart, bindingVotes_tally hapart', hmembers]

/-! ### Three members -/

/-- Lookups where addresses outside of `apache.org` are of no account. -/
def plainLookups : Lookups where
  lower s := s.map Char.toLower
  emailToUid _ := none
  isDevEnvironment := false
  committeeByKey _ := none

/-- A vote of the committee with the members a, b and c. -/
def threeMembers : Request where
  committee := some ⟨[['a'], ['b'], ['c']], []⟩
  excludedMessageIds := []

def reply (fromRaw subject body : String) : Message where
  fromRaw := fromRaw.toList
  listRaw := "dev.x.apache.org".toList
  cc := []
  epoch := 1
  subject := subject.toList
  body := body.toList
  messageId := []
  mid := []
  date := []
  receivedSpf := []

def threeVotes : List Message :=
  [reply "<a@apache.org>" "Re" "+1", reply "<b@apache.org>" "Re" "+1", reply "<c@apache.org>" "Re" "+1"]

theorem votes_noninterference_minusOne :
    (votes plainLookups threeMembers (reply "<m@x.org>" "Re" "-1" :: threeVotes)).map bindingTally =
      (votes plainLookups threeMembers threeVotes).map bindingTally :=
  votes_noninterference plainLookups threeMembers _ _ (by decide) (by decide) (by decide +kernel) (by decide +kernel)
    (by decide +kernel)

/-- A message from outside with `[RESULT]` in its subject: the vote passes without it and fails with it. -/
theorem votes_resultFromOutside :
    ¬ Member plainLookups threeMembers (reply "<m@x.org>" "[RESULT]" "") ∧
      (votes plainLookups threeMembers threeVotes).map (fun s => (bindingTally s).passes) = .ok true ∧
      (votes plainLookups threeMembers (reply "<m@x.org>" "[RESULT]" "" :: threeVotes)).map
        (fun s => (bindingTally s).passes) = .ok false := by
  refine ⟨by decide +kernel, ?_, ?_⟩
  · have hpasses : ((votes plainLookups threeMembers threeVotes).map fun s => (bindingTally s).passes).toOption =
        some true := by decide +kernel
    exact toOption_eq_some.1 hpasses
  · have hfails : ((votes plainLookups threeMembers (reply "<m@x.org>" "[RESULT]" "" :: threeVotes)).map
        fun s => (bindingTally s).passes).toOption = some false := by decide +kernel
    exact toOption_eq_some.1 hfails

end Tabulate

end TrustedReleases
