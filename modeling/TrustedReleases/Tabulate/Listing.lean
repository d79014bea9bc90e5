import TrustedReleases.Tabulate.Noninterference

/-!
# The text of a tally

The tabulated votes as the text of a result lists them.  The tabulation, the outcome, the summary and the text count the
same votes (`votes_consistent`).
-/

namespace TrustedReleases

open Lib

namespace Tabulate

variable {env : Lookups} {request : Request}

/-! ### The text -/

def VoteStatus.value : VoteStatus → Str
  | .binding => "Binding".toList
  | .committer => "Committer".toList
  | .contributor => "Contributor".toList
  | .unknown => "Unknown".toList

def Vote.symbol : Vote → Str
  | .yes => "+1".toList
  | .no => "-1".toList
  | .abstain => "0".toList
  | .unknown => "?".toList

/-- How a text is written: the labels, and the order in which the set of the last statuses is gone through. -/
structure Wording where
  lower : Str → Str
  bindingLabel : Str
  nonBindingLabel : Str
  others : List VoteStatus
  others_perm : others.Perm [.contributor, .unknown]

namespace Wording

variable (w : Wording)

/-- `user.binding_label_inline` -/
def bindingLabelInline : Str :=
  if "IPMC".toList <+: w.bindingLabel ∨ "PPMC".toList <+: w.bindingLabel then w.bindingLabel
  else w.lower w.bindingLabel

def statusLabel (status : VoteStatus) : Str :=
  match status with
  | .binding => w.bindingLabelInline
  | .committer | .contributor => w.lower status.value
  | .unknown => w.lower w.nonBindingLabel

def header (statuses : List VoteStatus) : Str :=
  "The ".toList ++ " and ".toList.intercalate (statuses.map w.statusLabel) ++ " votes were cast as follows:".toList

/-- The line of one vote. -/
def voteLine (v : VoteEmail) : Str :=
  let status := if v.status = .binding then w.bindingLabelInline else w.lower v.status.value
  let status := if v.updated then status ++ ", updated".toList else status
  v.vote.symbol ++ ' ' :: v.asfUidOrEmail ++ " (".toList ++ status ++ [')']

/-- The loop of `_vote_resolution_votes`, with the header as long as it is not written. -/
def voteLines (statuses : List VoteStatus) : Option Str → List VoteEmail → List Str
  | none, [] => [[]]
  | some _, [] => []
  | header, v :: vs =>
    if v.status ∉ statuses then voteLines statuses header vs
    else (header.toList.flatMap fun header => [header, []]) ++ w.voteLine v :: voteLines statuses none vs

/-- `_vote_resolution_votes` -/
def voteResolutionVotes (votes : OrdDict Str VoteEmail) (statuses : List VoteStatus) : List Str :=
  w.voteLines statuses (some (w.header statuses)) votes.values

/-- `_vote_resolution_count` -/
def voteResolutionCount (count : Nat) (symbol : String) : Str :=
  let wereWord := if count = 1 then "was" else "were"
  s!"{count} {wereWord} {symbol}".toList

/-- The lines that state the binding counts. -/
def countLines (binding : Counts) : List Str :=
  let wereWord := if binding.votes = 1 then "was" else "were"
  let votesWord := if binding.votes = 1 then "vote" else "votes"
  [s!"There {wereWord} {binding.votes} ".toList ++ w.bindingLabelInline ++ ' ' :: votesWord.toList ++ ['.'], [],
    "Of these ".toList ++ w.bindingLabelInline ++ " votes, ".toList ++ voteResolutionCount binding.yes "+1" ++
      ", ".toList ++ voteResolutionCount binding.no "-1" ++ ", and ".toList ++
      voteResolutionCount binding.abstain "0" ++ ['.'], []]

/-- `_vote_resolution_body_votes` -/
def voteResolutionBodyVotes (votes : OrdDict Str VoteEmail) (summary : VoteSummary) : List Str :=
  w.voteResolutionVotes votes [.binding] ++ w.countLines summary.binding ++
    w.voteResolutionVotes votes [.committer] ++ w.voteResolutionVotes votes w.others

def threadUrl (threadId : Str) : Str := "https://lists.apache.org/thread/".toList ++ threadId

/-- The lines that say where the votes are archived. -/
def archiveLines (threadId : Str) (podlingThreadId : Option Str) : List Str :=
  (match podlingThreadId.filter (· ≠ []) with
    | some podlingThreadId => ["The previous round of voting is archived at the following URL:".toList, [],
      threadUrl podlingThreadId, [], "The current vote thread is archived at the following URL:".toList]
    | none => ["The vote thread is archived at the following URL:".toList]) ++ [[], threadUrl threadId, []]

/-- `_email_tally_block` -/
def emailTallyLines (votes : OrdDict Str VoteEmail) (summary : VoteSummary) (threadId : Str)
    (podlingThreadId : Option Str) : List Str :=
  archiveLines threadId podlingThreadId ++ w.voteResolutionBodyVotes votes summary

/-- `email_tally_block` -/
def emailTallyBlock (votes : OrdDict Str VoteEmail) (summary : VoteSummary) (threadId : Str)
    (podlingThreadId : Option Str) : Str :=
  ['\n'].intercalate (w.emailTallyLines votes summary threadId podlingThreadId)

end Wording

/-! ### What is listed -/

/-- The votes with one of the statuses, in their order. -/
def listed (votes : OrdDict Str VoteEmail) (statuses : List VoteStatus) : List VoteEmail :=
  votes.values.filter fun v => decide (v.status ∈ statuses)

/-- A heading with the votes under it, if there are any. -/
def Wording.block (w : Wording) (votes : OrdDict Str VoteEmail) (statuses : List VoteStatus) : List Str :=
  if listed votes statuses = [] then []
  else w.header statuses :: [] :: (listed votes statuses).map w.voteLine ++ [[]]

private theorem voteLines_none (w : Wording) (statuses : List VoteStatus) (vs : List VoteEmail) :
    w.voteLines statuses none vs = (vs.filter fun v => decide (v.status ∈ statuses)).map w.voteLine ++ [[]] := by
  induction vs with
  | nil => rfl
  | cons v vs ih =>
    unfold Wording.voteLines
    by_cases hstatus : v.status ∈ statuses
    · rw [if_neg (not_not.2 hstatus), List.filter_cons_of_pos (by simpa using hstatus), ih]
      rfl
    · rw [if_pos hstatus, List.filter_cons_of_neg (by simpa using hstatus), ih]

private theorem voteLines_some (w : Wording) (statuses : List VoteStatus) (header : Str) (vs : List VoteEmail) :
    w.voteLines statuses (some header) vs =
      let found := vs.filter fun v => decide (v.status ∈ statuses)
      if found = [] then [] else header :: [] :: found.map w.voteLine ++ [[]] := by
  induction vs with
  | nil => rfl
  | cons v vs ih =>
    unfold Wording.voteLines
    by_cases hstatus : v.status ∈ statuses
    · rw [if_neg (not_not.2 hstatus), List.filter_cons_of_pos (by simpa using hstatus), voteLines_none]
      simp only
      rw [if_neg (List.cons_ne_nil _ _)]
      rfl
    · rw [if_pos hstatus, List.filter_cons_of_neg (by simpa using hstatus), ih]

private theorem voteResolutionVotes_eq (w : Wording) (votes : OrdDict Str VoteEmail) (statuses : List VoteStatus) :
    w.voteResolutionVotes votes statuses = w.block votes statuses := voteLines_some w statuses _ votes.values

/-- Every vote has a status of exactly one heading. -/
private theorem listed_perm (w : Wording) (votes : OrdDict Str VoteEmail) :
    (listed votes [.binding] ++ listed votes [.committer] ++ listed votes w.others).Perm votes.values := by
  unfold listed
  induction votes.values with
  | nil => exact List.Perm.refl _
  | cons v vs ih =>
    have hothers : v.status ∈ w.others ↔ v.status = .contributor ∨ v.status = .unknown := by
      rw [w.others_perm.mem_iff]
      simp
    rw [List.filter_cons, List.filter_cons, List.filter_cons]
    simp only [hothers]
    simp only [List.mem_singleton] at ih ⊢
    cases v.status with
    | binding => exact ih.cons v
    | committer => exact (List.perm_middle.append_right _).trans (ih.cons v)
    | contributor | unknown => exact List.perm_middle.trans (ih.cons v)

/-! ### The castings -/

/-- The messages that cast a vote, with their senders. -/
def castings (env : Lookups) (request : Request) (ms : List Message) : List (Message × Identity) :=
  ms.filterMap fun m => (voter env request m).map (m, ·)

/-- The castings that are filed under a key. -/
def filedUnder (env : Lookups) (request : Request) (ms : List Message) (k : Str) : List (Message × Identity) :=
  (castings env request ms).filter fun casting => decide (casting.2.key = k)

/-- The vote that the last casting leaves, updated if it is not the only one. -/
def lastVote (env : Lookups) (request : Request) (cast : List (Message × Identity)) : Option VoteEmail :=
  cast.getLast?.map fun (m, i) => castVote env request m i (voteCastings m.body) (decide (1 < cast.length))

/-- Who a message is of: an ASF account, or an address that is not known to be of one. -/
inductive Sender where
  | account (asfUid : Str)
  | address (email : Str)
  deriving DecidableEq

def Sender.key : Sender → Str
  | .account asfUid => asfUid
  | .address email => email

def Identity.sender (i : Identity) : Sender :=
  match i.asfUid with
  | some asfUid => .account asfUid
  | none => .address i.email

private theorem sender_key (i : Identity) : i.sender.key = i.key := by
  unfold Identity.sender Identity.key
  cases i.asfUid <;> rfl

/-- The castings of one sender. -/
def castingsOf (env : Lookups) (request : Request) (ms : List Message) (sender : Sender) : List (Message × Identity) :=
  (castings env request ms).filter fun casting => decide (casting.2.sender = sender)

/-- Senders whose votes are filed under the same key are the same: no address reads as an account that votes. -/
def SendersApart (env : Lookups) (request : Request) (ms : List Message) : Prop :=
  ∀ c ∈ castings env request ms, ∀ c' ∈ castings env request ms, c.2.key = c'.2.key → c.2.sender = c'.2.sender

instance sendersApartDecidable (env : Lookups) (request : Request) (ms : List Message) :
    Decidable (SendersApart env request ms) :=
  inferInstanceAs (Decidable (∀ c ∈ castings env request ms, ∀ c' ∈ castings env request ms, _ → _))

/-- What is filed under the key of a sender who votes are the castings of that sender. -/
private theorem filedUnder_eq {ms : List Message} (hapart : SendersApart env request ms) {c : Message × Identity}
    (hc : c ∈ castings env request ms) :
    filedUnder env request ms c.2.key = castingsOf env request ms c.2.sender := by
  unfold filedUnder castingsOf
  refine List.filter_congr fun c' hc' => decide_eq_decide.2 ⟨fun hkey => hapart c' hc' c hc hkey, fun hsender => ?_⟩
  rw [← sender_key, ← sender_key, hsender]

/-- The castings that leave a vote have one of the sender among them. -/
private theorem mem_of_lastVote {cast : List (Message × Identity)} {v : VoteEmail}
    (h : lastVote env request cast = some v) :
    ∃ c, c ∈ cast := by
  obtain ⟨c, hc, -⟩ := Option.map_eq_some_iff.1 h
  exact ⟨c, List.mem_of_getLast? hc⟩

/-- If senders have keys of their own, the last votes under the keys are the last votes of the senders. -/
private theorem lastVote_filedUnder {ms : List Message} (hapart : SendersApart env request ms) (k : Str)
    (v : VoteEmail) :
    lastVote env request (filedUnder env request ms k) = some v ↔
      ∃! sender : Sender, sender.key = k ∧ lastVote env request (castingsOf env request ms sender) = some v := by
  constructor
  · intro h
    obtain ⟨c, hc⟩ := mem_of_lastVote h
    obtain ⟨hcast, hkey⟩ := List.mem_filter.1 hc
    have hkey : c.2.key = k := of_decide_eq_true hkey
    refine ⟨c.2.sender, ⟨(sender_key _).trans hkey, ?_⟩, ?_⟩
    · rw [← filedUnder_eq hapart hcast, hkey]
      exact h
    · rintro sender ⟨hsender, hlast⟩
      obtain ⟨c', hc'⟩ := mem_of_lastVote hlast
      obtain ⟨hcast', hof⟩ := List.mem_filter.1 hc'
      have hof : c'.2.sender = sender := of_decide_eq_true hof
      rw [← hof]
      exact hapart c' hcast' c hcast (by rw [hkey, ← sender_key, hof, hsender])
  · rintro ⟨sender, ⟨hsender, hlast⟩, -⟩
    obtain ⟨c, hc⟩ := mem_of_lastVote hlast
    obtain ⟨hcast, hof⟩ := List.mem_filter.1 hc
    have hof : c.2.sender = sender := of_decide_eq_true hof
    rw [← hof] at hsender hlast
    rw [← hsender, sender_key, filedUnder_eq hapart hcast]
    exact hlast

/-- A tabulation that succeeds has read the thread up to the message that ends it. -/
private theorem votes_of_votesFrom {thread : List Message} {messageCount : Nat} {s s' : Tabulated}
    (h : votesFrom env request messageCount s thread = .ok s') :
    s'.votes = tally env request s.votes (beforeResult env request thread) := by
  induction thread generalizing messageCount s with
  | nil =>
    cases h
    rfl
  | cons m ms ih =>
    unfold votesFrom at h
    unfold beforeResult
    split at h
    · cases h
    · by_cases hexcluded : request.excludes m
      · have hgoes : ¬ EndsVote env request m := fun h => h.1 hexcluded
        have hone : tallyOne env request s.votes m = s.votes := by
          simp [tallyOne, voter, hexcluded]
        rw [if_pos hexcluded] at h
        rw [List.takeWhile_cons_of_pos (by simpa using hgoes), tally, List.foldl_cons, hone]
        exact ih h
      · rw [if_neg hexcluded] at h
        cases hi : m.identity env with
        | none =>
          have hgoes : ¬ EndsVote env request m := fun h => by simpa [hi] using h.2.1
          have hone : tallyOne env request s.votes m = s.votes := by
            simp [tallyOne, voter, hi]
          rw [hi] at h
          rw [List.takeWhile_cons_of_pos (by simpa using hgoes), tally, List.foldl_cons, hone]
          exact ih h
        | some i =>
          rw [hi] at h
          dsimp only at h
          by_cases hresult : contains "[RESULT]".toList m.subject = true
          · have hends : EndsVote env request m := ⟨hexcluded, by rw [hi]; rfl, hresult⟩
            rw [if_pos hresult] at h
            rw [List.takeWhile_cons_of_neg (by simpa using hends)]
            cases h
            exact started_votes s m
          · have hgoes : ¬ EndsVote env request m := fun h => hresult h.2.2
            rw [if_neg hresult] at h
            rw [List.takeWhile_cons_of_pos (by simpa using hgoes), tally, List.foldl_cons, ih h,
              record_votes hexcluded hi, started_votes]
            rfl

private theorem filedUnder_concat_none {ms : List Message} {m : Message} {k : Str} (h : voter env request m = none) :
    filedUnder env request (ms ++ [m]) k = filedUnder env request ms k := by
  simp [filedUnder, castings, h]

private theorem filedUnder_concat_some {ms : List Message} {m : Message} {i : Identity} {k : Str}
    (h : voter env request m = some i) :
    filedUnder env request (ms ++ [m]) k = filedUnder env request ms k ++ if i.key = k then [(m, i)] else [] := by
  by_cases hk : i.key = k
  · simp [filedUnder, castings, h, hk]
  · simp [filedUnder, castings, h, hk]

private theorem tally_concat (ms : List Message) (m : Message) :
    tally env request .empty (ms ++ [m]) = tallyOne env request (tally env request .empty ms) m := List.foldl_concat ..

/-- Under every key there is the last vote cast for it, updated if it is not the only one. -/
private theorem get_tally (ms : List Message) (k : Str) :
    (tally env request .empty ms).get k = lastVote env request (filedUnder env request ms k) := by
  unfold lastVote
  induction ms using List.reverseRecOn with
  | nil => rfl
  | append_singleton ms m ih =>
    rw [tally_concat]
    cases hi : voter env request m with
    | none => rw [tallyOne_none hi, ih, filedUnder_concat_none hi]
    | some i =>
      rw [tallyOne_some hi, OrdDict.get_set, filedUnder_concat_some hi]
      by_cases hk : i.key = k
      · have hupdated : i.key ∈ (tally env request .empty ms).keys ↔ 1 < (filedUnder env request ms k ++ [(m, i)]).length := by
          rw [OrdDict.mem_keys, hk, ih, Option.isSome_map, List.length_append, List.length_singleton]
          cases filedUnder env request ms k with
          | nil => simp
          | cons c cs => simp
        rw [if_pos hk.symm, if_pos hk, List.getLast?_concat, Option.map_some]
        simp only [hupdated]
      · rw [if_neg fun h => hk h.symm, if_neg hk, List.append_nil, ih]

/-! ### Consistency -/

/-- The counts that `vote_outcome` goes by: of yes and of no among the binding votes. -/
def outcomeCounts (votes : OrdDict Str VoteEmail) : Nat × Nat :=
  let binding := votes.values.filter fun v => decide (v.status = .binding)
  (binding.countP fun v => decide (v.vote = .yes), binding.countP fun v => decide (v.vote = .no))

/-- What the tabulated votes of a thread, the outcome, the summary and the text say of each other. -/
structure Consistent (env : Lookups) (request : Request) (thread : List Message) (w : Wording) (threadId : Str)
    (podlingThreadId : Option Str) (votes : OrdDict Str VoteEmail) : Prop where
  entries : ∀ k, votes.get k = lastVote env request (filedUnder env request (beforeResult env request thread) k)
  senders : SendersApart env request (beforeResult env request thread) → ∀ k v, votes.get k = some v ↔
    ∃! sender : Sender, sender.key = k ∧
      lastVote env request (castingsOf env request (beforeResult env request thread) sender) = some v
  outcome : voteOutcome votes = bindingVotePasses (outcomeCounts votes).1 (outcomeCounts votes).2
  outcomeCounts : outcomeCounts votes = ((voteSummary votes).binding.yes, (voteSummary votes).binding.no)
  text : w.emailTallyLines votes (voteSummary votes) threadId podlingThreadId =
    Wording.archiveLines threadId podlingThreadId ++ w.block votes [.binding] ++
      w.countLines (voteSummary votes).binding ++ w.block votes [.committer] ++ w.block votes w.others
  listed : (listed votes [.binding] ++ listed votes [.committer] ++ listed votes w.others).Perm votes.values
  bindingVotes : (Tabulate.listed votes [.binding]).length = (voteSummary votes).binding.votes
  total : let binding := (voteSummary votes).binding
    binding.yes + binding.no + binding.abstain +
      (Tabulate.listed votes [.binding]).countP (fun v => decide (v.vote = .unknown)) = binding.votes

private theorem listed_binding (votes : OrdDict Str VoteEmail) :
    listed votes [.binding] = votes.values.filter fun v => decide (v.status = .binding) := by
  unfold listed
  simp only [List.mem_singleton]

/-- Each vote is counted under its value. -/
private theorem countsOf_total (vs : List VoteEmail) :
    (countsOf vs).yes + (countsOf vs).no + (countsOf vs).abstain +
      vs.countP (fun v => decide (v.vote = .unknown)) = (countsOf vs).votes := by
  unfold countsOf
  dsimp only
  induction vs with
  | nil => rfl
  | cons v vs ih =>
    simp only [List.countP_cons, List.length_cons]
    cases v.vote <;> simp <;> omega

/-- The tabulated votes are the last ones cast under their keys, and those of the senders where no two of these share a
key; the outcome goes by the counts of the summary, and the text lists each vote once under the heading of its status, as
many binding ones as it states. -/
theorem votes_consistent (env : Lookups) (request : Request) (thread : List Message) (w : Wording) (threadId : Str)
    (podlingThreadId : Option Str) (s : Tabulated) (h : votes env request thread = .ok s) :
    Consistent env request thread w threadId podlingThreadId s.votes := by
  have hvotes : s.votes = tally env request .empty (beforeResult env request thread) := votes_of_votesFrom h
  have hbinding := voteSummary_binding s.votes
  constructor
  · intro k
    rw [hvotes]
    exact get_tally _ k
  · intro hapart k v
    rw [hvotes, get_tally]
    exact lastVote_filedUnder hapart k v
  · rfl
  · rw [hbinding]
    rfl
  · unfold Wording.emailTallyLines Wording.voteResolutionBodyVotes
    rw [voteResolutionVotes_eq, voteResolutionVotes_eq, voteResolutionVotes_eq]
    simp only [List.append_assoc]
  · exact listed_perm w s.votes
  · rw [hbinding, listed_binding]
    rfl
  · rw [hbinding, listed_binding]
    exact countsOf_total _

/-- The wording for a vote of a committee. -/
def plainWording : Wording where
  lower s := s.map Char.toLower
  bindingLabel := "Binding".toList
  nonBindingLabel := "Non-binding".toList
  others := [.contributor, .unknown]
  others_perm := List.Perm.refl _

/-- Three members vote, and one of them once more. -/
def changedVotes : List Message := threeVotes ++ [reply "<a@apache.org>" "Re" "-1"]

theorem votes_consistent_changed :
    SendersApart plainLookups threeMembers (beforeResult plainLookups threeMembers changedVotes) ∧
      Consistent plainLookups threeMembers changedVotes plainWording [] none
        (tally plainLookups threeMembers .empty (beforeResult plainLookups threeMembers changedVotes)) := by
  refine ⟨by decide +kernel, ?_⟩
  obtain ⟨s, hok, hvotes⟩ := @votesFrom_eq plainLookups threeMembers changedVotes 0 ⟨none, .empty⟩ (by decide)
  have hconsistent := votes_consistent plainLookups threeMembers changedVotes plainWording [] none s hok
  rw [hvotes] at hconsistent
  exact hconsistent

/-- A member's message with both a yes and a no is a binding vote that is none of yes, no and abstain. -/
theorem not_votes_total : ¬ ∀ env request thread s, votes env request thread = .ok s →
    let binding := (voteSummary s.votes).binding
    binding.yes + binding.no + binding.abstain = binding.votes := by
  intro h
  obtain ⟨s, hok, hvotes⟩ := @votesFrom_eq plainLookups threeMembers [reply "<a@apache.org>" "Re" "+1
-1"] 0
    ⟨none, .empty⟩ (by decide)
  have htotal := h _ _ _ s hok
  rw [hvotes] at htotal
  exact absurd htotal (by decide +kernel)

end Tabulate

end TrustedReleases
