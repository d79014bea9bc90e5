import TrustedReleases.Gates.System

/-!
# The rule of two persons

Every gate that is approved follows the one that was approved just before it, and everything that is approved was
approved by two members of the release team, whatever the order in which requests read and write
(`gates_two_person`).
-/

namespace TrustedReleases

open Lib

namespace Gates

/-! ### One ballot -/

section Vote

variable {row row' : Ballot} {uid : Str} {approve : Bool} {eligible : Finset Str} {now : Nat}

private theorem vote_ok (h : vote row uid approve eligible now = .ok row') :
    row.status = .pending ∧ row.decisions.get uid = none ∧ row'.decisions = row.decisions.set uid approve ∧
      row'.status = tally row'.decisions eligible ∧
      row'.decided = if row'.status ≠ .pending then some now else row.decided := by
  unfold vote at h
  split at h
  · cases h
  · rename_i hopen
    rw [not_or, not_not] at hopen
    obtain rfl := Except.ok.inj h
    exact ⟨hopen.1, OrdDict.get_eq_none.2 hopen.2, rfl, rfl, rfl⟩

private theorem vote_isOk : (∃ b, vote row uid approve eligible now = .ok b) ↔
    row.status = .pending ∧ uid ∉ row.decisions.keys := by
  constructor
  · rintro ⟨b, h⟩
    exact ⟨(vote_ok h).1, OrdDict.get_eq_none.1 (vote_ok h).2.1⟩
  · rintro ⟨hpending, hnew⟩
    rw [vote, if_neg (not_or.2 ⟨not_not.2 hpending, hnew⟩)]
    exact ⟨_, rfl⟩

/-- What is approved was refused by no one and approved by two users. -/
private theorem tally_approved {decisions : OrdDict Str Bool} (h : tally decisions eligible = .approved) :
    (∀ u a, decisions.get u = some a → a = true) ∧
      ∃ u v, u ≠ v ∧ decisions.get u = some true ∧ decisions.get v = some true := by
  unfold tally at h
  split_ifs at h with hall hcount
  have htrue : ∀ u a, decisions.get u = some a → a = true := by
    intro u a hu
    exact List.all_eq_true.1 hall a (OrdDict.mem_values.2 ⟨u, hu⟩)
  have happroved : ∀ u ∈ decisions.keys, decisions.get u = some true := by
    intro u hu
    obtain ⟨a, ha⟩ := Option.isSome_iff_exists.1 (OrdDict.mem_keys.1 hu)
    rw [ha, htrue u a ha]
  have hnodup : (decisions.keys.filter fun u => decide (u ∈ eligible)).Nodup := decisions.nodup.filter _
  refine ⟨htrue, ?_⟩
  match hkeys : decisions.keys.filter fun u => decide (u ∈ eligible) with
  | [] => simp [hkeys, THRESHOLD] at hcount
  | [u] => simp [hkeys, THRESHOLD] at hcount
  | u :: v :: rest =>
    rw [hkeys] at hnodup
    have hmem : ∀ w ∈ u :: v :: rest, w ∈ decisions.keys := by
      intro w hw
      rw [← hkeys] at hw
      exact (List.mem_filter.1 hw).1
    refine ⟨u, v, ?_, happroved u (hmem u (by simp)), happroved v (hmem v (by simp))⟩
    intro heq
    rw [heq] at hnodup
    simp at hnodup

end Vote

/-! ### What has happened -/

/-- An event of a run, with the state in which it happens. -/
abbrev Moment := System × Event

/-- The row that a request decides on, but for a proposal, whose row is not there yet. -/
def Request.row : Request → Option RowId
  | .decide requestId _ => some (.request requestId)
  | .decideConfig configId _ => some (.config configId)
  | .propose _ _ => none

def Request.approves : Request → Bool
  | .decide _ approve => approve
  | .decideConfig _ approve => approve
  | .propose _ _ => true

/-- The request can write its decision: its row is pending and has no decision of the user, and a gate has not changed
since it was proposed. -/
def System.Open (s : System) (asfUid : Str) : Request → Prop
  | .decide requestId _ => ∃ r, s.requests.get requestId = some r ∧ r.ballot.status = .pending ∧
      asfUid ∉ r.ballot.decisions.keys
  | .decideConfig configId _ => ∃ c, s.configs.get configId = some c ∧
      c.previousId = (active s.configs c.repositoryId).map GateConfig.id ∧ c.ballot.status = .pending ∧
        asfUid ∉ c.ballot.decisions.keys
  | .propose _ _ => True

/-- The request reads the team, of which its user is a member. -/
def Reads (m : Moment) (f : Flight) : Prop :=
  ∃ i, m.2 = .readTeam i ∧ m.1.flights[i]? = some { f with eligible := none } ∧
    f.eligible = some (m.1.teams f.committeeKey) ∧ f.asfUid ∈ m.1.teams f.committeeKey

/-- The request, which has read the team, writes its decision on the row. -/
def Writes (m : Moment) (f : Flight) (row : RowId) : Prop :=
  ∃ i now, m.2 = .write i now ∧ m.1.flights[i]? = some f ∧ f.eligible.isSome ∧ m.1.Open f.asfUid f.request ∧
    row = f.request.row.getD (.config m.1.nextConfig)

/-- The user decided on the row by a request, at the beginning of which the user was a member of the team. -/
def Made (past : List Moment) (committeeKey : Str) (row : RowId) (uid : Str) (approve : Bool) : Prop :=
  ∃ f before m after, past = before ++ m :: after ∧ Writes m f row ∧ f.committeeKey = committeeKey ∧ f.asfUid = uid ∧
    f.request.approves = approve ∧ ∃ r ∈ before, Reads r f

/-- The row is one that the team of the committee decides on. -/
def System.decides (s : System) (committeeKey : Str) : RowId → Prop
  | .config id => ∃ c ∈ s.configs.rows, c.id = id ∧ c.committeeKey = committeeKey
  | .request id => ∃ r ∈ s.requests.rows, r.id = id ∧
      ∃ gate ∈ s.configs.rows, gate.isApproved r.repositoryId = true ∧ gate.committeeKey = committeeKey

theorem Made.append {past : List Moment} {committeeKey : Str} {row : RowId} {uid : Str} {approve : Bool}
    (h : Made past committeeKey row uid approve) (more : List Moment) :
    Made (past ++ more) committeeKey row uid approve := by
  obtain ⟨f, before, m, after, rfl, hmade⟩ := h
  exact ⟨f, before, m, after ++ more, by rw [List.append_assoc, List.cons_append], hmade⟩

/-- One request writes at a time. -/
theorem Writes.unique {m : Moment} {f f' : Flight} {row row' : RowId} (h : Writes m f row) (h' : Writes m f' row') :
    f' = f ∧ row' = row := by
  obtain ⟨i, now, hevent, hflight, -, -, rfl⟩ := h
  obtain ⟨i', now', hevent', hflight', -, -, rfl⟩ := h'
  obtain ⟨rfl, rfl⟩ := Event.write.inj (hevent.symm.trans hevent')
  obtain rfl := Option.some.inj (hflight.symm.trans hflight')
  exact ⟨rfl, rfl⟩

private theorem not_writes {m : Moment} (h : ∀ i now, m.2 ≠ .write i now) (f : Flight) (row : RowId) :
    ¬ Writes m f row := by
  rintro ⟨i, now, hevent, -⟩
  exact h i now hevent

/-! ### All ballots -/

structure Ballots (decides : Str → RowId → Prop) (ballot : RowId → Option Ballot) (past : List Moment) : Prop where
  made : ∀ row b, ballot row = some b → ∀ uid approve, b.decisions.get uid = some approve →
    ∃ committeeKey, decides committeeKey row ∧ Made past committeeKey row uid approve
  approved : ∀ row b, ballot row = some b → b.status = .approved →
    (∀ u a, b.decisions.get u = some a → a = true) ∧
      ∃ u v, u ≠ v ∧ b.decisions.get u = some true ∧ b.decisions.get v = some true
  kept : ∀ m ∈ past, ∀ f row, Writes m f row →
    ∃ b, ballot row = some b ∧ b.decisions.get f.asfUid = some f.request.approves

section

variable {decides decides' : Str → RowId → Prop} {ballot : RowId → Option Ballot} {past : List Moment} {row : RowId}
  {b b' : Ballot} {m : Moment} {f : Flight} {uid : Str} {approve : Bool} {eligible : Finset Str} {now : Nat}

theorem Ballots.grow (h : Ballots decides ballot past) (hgrows : ∀ k row, decides k row → decides' k row) :
    Ballots decides' ballot past where
  made := by
    intro row b hrow u a hu
    obtain ⟨k, hk, hmade⟩ := h.made row b hrow u a hu
    exact ⟨k, hgrows k row hk, hmade⟩
  approved := h.approved
  kept := h.kept

/-- Nothing is decided. -/
theorem Ballots.pass (h : Ballots decides ballot past) (hgrows : ∀ k row, decides k row → decides' k row)
    (hnobody : ∀ f row, ¬ Writes m f row) : Ballots decides' ballot (past ++ [m]) where
  made := by
    intro row b hrow u a hu
    obtain ⟨k, hk, hmade⟩ := h.made row b hrow u a hu
    exact ⟨k, hgrows k row hk, hmade.append _⟩
  approved := h.approved
  kept := by
    intro m' hm' f row hwrites
    rcases List.mem_append.1 hm' with hm' | hm'
    · exact h.kept m' hm' f row hwrites
    · rw [List.mem_singleton.1 hm'] at hwrites
      exact absurd hwrites (hnobody f row)

/-- A ballot with one more decision, by a member of the team. -/
theorem Ballots.cast (h : Ballots decides ballot past) (hgrows : ∀ k row, decides k row → decides' k row)
    (hwrites : Writes m f row) (hreads : ∃ r ∈ past, Reads r f) (hdecides : decides' f.committeeKey row)
    (hget : ∀ u, b'.decisions.get u =
      if u = f.asfUid then some f.request.approves else (ballot row).bind (·.decisions.get u))
    (hfresh : (ballot row).bind (·.decisions.get f.asfUid) = none)
    (happroved : b'.status = .approved → (∀ u a, b'.decisions.get u = some a → a = true) ∧
      ∃ u v, u ≠ v ∧ b'.decisions.get u = some true ∧ b'.decisions.get v = some true) :
    Ballots decides' (Function.update ballot row (some b')) (past ++ [m]) where
  made := by
    intro row' c hrow' u a hu
    by_cases hrow : row' = row
    · rw [hrow, Function.update_self, Option.some.injEq] at hrow'
      rw [← hrow', hget] at hu
      rw [hrow]
      by_cases huser : u = f.asfUid
      · rw [if_pos huser, Option.some.injEq] at hu
        exact ⟨_, hdecides, f, past, m, [], rfl, hwrites, rfl, huser.symm, hu, hreads⟩
      · rw [if_neg huser] at hu
        obtain ⟨old, hold, hu⟩ := Option.bind_eq_some_iff.1 hu
        obtain ⟨k, hk, hmade⟩ := h.made row old hold u a hu
        exact ⟨k, hgrows k row hk, hmade.append _⟩
    · rw [Function.update_of_ne hrow] at hrow'
      obtain ⟨k, hk, hmade⟩ := h.made row' c hrow' u a hu
      exact ⟨k, hgrows k row' hk, hmade.append _⟩
  approved := by
    intro row' c hrow'
    by_cases hrow : row' = row
    · rw [hrow, Function.update_self, Option.some.injEq] at hrow'
      rw [← hrow']
      exact happroved
    · rw [Function.update_of_ne hrow] at hrow'
      exact h.approved row' c hrow'
  kept := by
    intro m' hm' f' row' hwrites'
    rcases List.mem_append.1 hm' with hold | hnew
    · obtain ⟨c, hc, hdecision⟩ := h.kept m' hold f' row' hwrites'
      by_cases hrow : row' = row
      · rw [hrow] at hc ⊢
        refine ⟨b', Function.update_self _ _ _, ?_⟩
        have huser : f'.asfUid ≠ f.asfUid := by
          intro huser
          rw [hc, Option.bind_some, ← huser, hdecision] at hfresh
          cases hfresh
        rw [hget, if_neg huser, hc, Option.bind_some, hdecision]
      · exact ⟨c, by rw [Function.update_of_ne hrow, hc], hdecision⟩
    · rw [List.mem_singleton.1 hnew] at hwrites'
      obtain ⟨rfl, rfl⟩ := hwrites.unique hwrites'
      exact ⟨b', Function.update_self _ _ _, by rw [hget, if_pos rfl]⟩

/-- A decision on a row that is there. -/
theorem Ballots.vote (h : Ballots decides ballot past) (hgrows : ∀ k row, decides k row → decides' k row)
    (hwrites : Writes m f row) (hreads : ∃ r ∈ past, Reads r f) (hdecides : decides' f.committeeKey row)
    (hrow : ballot row = some b) (hvote : Gates.vote b f.asfUid f.request.approves eligible now = .ok b') :
    Ballots decides' (Function.update ballot row (some b')) (past ++ [m]) := by
  obtain ⟨-, hfresh, hdecisions, hstatus, -⟩ := vote_ok hvote
  refine h.cast hgrows hwrites hreads hdecides (fun u => ?_) (by rw [hrow, Option.bind_some, hfresh]) fun happroved => ?_
  · rw [hdecisions, OrdDict.get_set, hrow, Option.bind_some]
  · exact tally_approved (hstatus ▸ happroved)

/-- A new row that its proposer approves of. -/
theorem Ballots.propose (h : Ballots decides ballot past) (hgrows : ∀ k row, decides k row → decides' k row)
    (hwrites : Writes m f row) (hreads : ∃ r ∈ past, Reads r f) (hdecides : decides' f.committeeKey row)
    (hrow : ballot row = none) (happroves : f.request.approves = true) :
    Ballots decides' (Function.update ballot row (some ⟨.pending, OrdDict.empty.set f.asfUid true, none⟩))
      (past ++ [m]) := by
  refine h.cast hgrows hwrites hreads hdecides (fun u => ?_) (by rw [hrow, Option.bind_none])
    fun happroved => by cases happroved
  rw [OrdDict.get_set, hrow, Option.bind_none, OrdDict.get_empty, happroves]

/-- A new row without decisions. -/
theorem Ballots.record (h : Ballots decides ballot past) (hrow : ballot row = none) (hempty : b.decisions = .empty)
    (hstatus : b.status ≠ .approved) : Ballots decides (Function.update ballot row (some b)) past where
  made := by
    intro row' c hrow' u a hu
    by_cases heq : row' = row
    · rw [heq, Function.update_self, Option.some.injEq] at hrow'
      rw [← hrow', hempty] at hu
      cases hu
    · rw [Function.update_of_ne heq] at hrow'
      exact h.made row' c hrow' u a hu
  approved := by
    intro row' c hrow' happroved
    by_cases heq : row' = row
    · rw [heq, Function.update_self, Option.some.injEq] at hrow'
      rw [← hrow'] at happroved
      exact absurd happroved hstatus
    · rw [Function.update_of_ne heq] at hrow'
      exact h.approved row' c hrow' happroved
  kept := by
    intro m hm f row' hwrites
    obtain ⟨c, hc, hdecision⟩ := h.kept m hm f row' hwrites
    have hne : row' ≠ row := by
      intro heq
      rw [heq, hrow] at hc
      cases hc
    exact ⟨c, by rw [Function.update_of_ne hne, hc], hdecision⟩

end

/-! ### The gates of a repository -/

/-- The gate that was approved just before. -/
def justBefore (configs : Table GateConfig.id) (c : GateConfig) : Option GateConfig :=
  latestBy GateConfig.rank (configs.rows.filter fun d => d.isApproved c.repositoryId && decide (d.rank < c.rank))

structure Chain (configs : Table GateConfig.id) (clock : Nat) : Prop where
  rank_le : ∀ c ∈ configs.rows, c.rank ≤ clock + 1
  previous : ∀ c ∈ configs.rows, c.ballot.status = .approved →
    c.previousId = (justBefore configs c).map GateConfig.id

section

variable {configs : Table GateConfig.id} {clock now : Nat} {c d : GateConfig} {b : Ballot} {uid : Str} {approve : Bool}
  {eligible : Finset Str}

private theorem isApproved_of_pending {repositoryId : Nat} (h : c.ballot.status ≠ .approved) :
    c.isApproved repositoryId = false := by
  unfold GateConfig.isApproved
  simp [h]

/-- A gate that is approved is the latest, and follows the one that was active. -/
theorem Chain.vote (h : Chain configs clock) (hc : c ∈ configs.rows)
    (hprevious : c.previousId = (active configs c.repositoryId).map GateConfig.id)
    (hvote : Gates.vote c.ballot uid approve eligible now = .ok b) (hnow : clock < now) :
    Chain (configs.replace { c with ballot := b }) (if b.status ≠ .pending then now else clock) := by
  obtain ⟨hpending, -, -, -, hdecided⟩ := vote_ok hvote
  have hold : ∀ d ∈ configs.rows, d.id = c.id → d.ballot.status ≠ .approved := by
    intro d hd hid
    rw [configs.eq_of_key_eq hd hc hid, hpending]
    decide
  constructor
  · intro d hd
    rcases Table.mem_replace hd with rfl | ⟨hd, -⟩
    · change timeRank b.decided ≤ _
      rw [hdecided]
      split
      · exact le_rfl
      · exact h.rank_le c hc
    · have hle := h.rank_le d hd
      split <;> omega
  · intro d hd happroved
    rcases Table.mem_replace hd with rfl | ⟨hd, hid⟩
    · have hrank : GateConfig.rank { c with ballot := b } = now + 1 := by
        change timeRank b.decided = now + 1
        change b.status = .approved at happroved
        rw [hdecided, happroved, if_pos (by decide)]
        rfl
      have hsame : justBefore (configs.replace { c with ballot := b }) { c with ballot := b } =
          active configs c.repositoryId := by
        unfold justBefore active
        rw [Table.filter_replace (q := (·.isApproved c.repositoryId))]
        · simp
        · intro d hd hid
          exact isApproved_of_pending (hold d hd hid)
        · intro d hd _
          have hle := h.rank_le d hd
          rw [hrank, decide_eq_true (show d.rank < now + 1 by omega), Bool.and_true]
      rw [hsame]
      exact hprevious
    · have hsame : justBefore (configs.replace { c with ballot := b }) d = justBefore configs d := by
        unfold justBefore
        rw [Table.filter_replace]
        · by_cases hnew : b.status = .approved
          · have hrank : GateConfig.rank { c with ballot := b } = now + 1 := by
              change timeRank b.decided = now + 1
              rw [hdecided, hnew, if_pos (by decide)]
              rfl
            have hle := h.rank_le d hd
            rw [hrank, decide_eq_false (show ¬ now + 1 < d.rank by omega), Bool.and_false]
          · rw [isApproved_of_pending hnew, Bool.false_and]
        · intro a ha ha'
          rw [isApproved_of_pending (hold a ha ha'), Bool.false_and]
        · intro a _ _
          rfl
      rw [hsame]
      exact h.previous d hd happroved

/-- A proposal changes nothing about the gates that are approved. -/
theorem Chain.insert (h : Chain configs clock) (hfresh : ∀ d ∈ configs.rows, d.id ≠ c.id)
    (hpending : c.ballot.status = .pending) (hdecided : c.ballot.decided = none) : Chain (configs.insert c) clock := by
  have hnew : c.ballot.status ≠ .approved := by
    rw [hpending]
    decide
  constructor
  · intro d hd
    rcases Table.mem_insert hd with hd | rfl
    · exact h.rank_le d hd
    · rw [GateConfig.rank, hdecided]
      exact Nat.zero_le _
  · intro d hd happroved
    rcases Table.mem_insert hd with hd | rfl
    · rw [h.previous d hd happroved, justBefore, justBefore, Table.rows_insert hfresh, List.filter_append,
        List.filter_cons_of_neg (by simp [isApproved_of_pending hnew]), List.filter_nil, List.append_nil]
    · exact absurd happroved hnew

end

/-! ### The invariant -/

/-- The ballot of a row. -/
def ballotOf (configs : Table GateConfig.id) (requests : Table GateRequest.id) : RowId → Option Ballot
  | .config id => (configs.get id).map GateConfig.ballot
  | .request id => (requests.get id).map GateRequest.ballot

def System.ballot (s : System) : RowId → Option Ballot := ballotOf s.configs s.requests

structure Invariant (past : List Moment) (s : System) : Prop where
  config_id : ∀ c ∈ s.configs.rows, c.id < s.nextConfig
  request_id : ∀ r ∈ s.requests.rows, r.id < s.nextRequest
  chain : Chain s.configs s.clock
  ballots : Ballots s.decides s.ballot past
  members : ∀ f ∈ s.flights, f.eligible.isSome → ∃ r ∈ past, Reads r f
  committees : ∀ f ∈ s.flights, ∀ row, f.request.row = some row → s.decides f.committeeKey row
  tasks : s.decisionTasks.Nodup
  decided : ∀ id ∈ s.decisionTasks, ∃ b, s.ballot (.request id) = some b ∧ b.status ≠ .pending

/-- Decisions are made later than all before. -/
def Timely (s : System) : Event → Prop
  | .write _ now => s.clock < now
  | _ => True

/-- Rows that are no longer pending stay as they are. -/
structure Unchanged (s t : System) : Prop where
  configs : ∀ c ∈ s.configs.rows, c.ballot.status ≠ .pending → c ∈ t.configs.rows
  requests : ∀ r ∈ s.requests.rows, r.ballot.status ≠ .pending → r ∈ t.requests.rows

/-- Rows stay those of their repository and their committee. -/
structure Grows (s t : System) : Prop extends Unchanged s t where
  config : ∀ c ∈ s.configs.rows, ∃ c' ∈ t.configs.rows, c'.id = c.id ∧ c'.committeeKey = c.committeeKey
  request : ∀ r ∈ s.requests.rows, ∃ r' ∈ t.requests.rows, r'.id = r.id ∧ r'.repositoryId = r.repositoryId

theorem Unchanged.refl (s : System) : Unchanged s s := ⟨fun _ h _ => h, fun _ h _ => h⟩

theorem Unchanged.trans {s t u : System} (h : Unchanged s t) (h' : Unchanged t u) : Unchanged s u :=
  ⟨fun c hc hstatus => h'.configs c (h.configs c hc hstatus) hstatus,
    fun r hr hstatus => h'.requests r (h.requests r hr hstatus) hstatus⟩

section

variable {past : List Moment} {s s' t : System}

theorem Grows.of_eq (hconfigs : t.configs = s.configs) (hrequests : t.requests = s.requests) : Grows s t where
  configs := fun c hc _ => by rw [hconfigs]; exact hc
  requests := fun r hr _ => by rw [hrequests]; exact hr
  config := fun c hc => ⟨c, by rw [hconfigs]; exact hc, rfl, rfl⟩
  request := fun r hr => ⟨r, by rw [hrequests]; exact hr, rfl, rfl⟩

private theorem GateConfig.isApproved_iff {repositoryId : Nat} {c : GateConfig} :
    c.isApproved repositoryId = true ↔ c.repositoryId = repositoryId ∧ c.ballot.status = .approved := decide_eq_true_iff

theorem Grows.decides (h : Grows s t) (committeeKey : Str) (row : RowId) (hdecides : s.decides committeeKey row) :
    t.decides committeeKey row := by
  cases row with
  | config id =>
    obtain ⟨c, hc, rfl, rfl⟩ := hdecides
    obtain ⟨c', hc', hid, hcommittee⟩ := h.config c hc
    exact ⟨c', hc', hid, hcommittee⟩
  | request id =>
    obtain ⟨r, hr, rfl, gate, hgate, happroved, rfl⟩ := hdecides
    obtain ⟨r', hr', hid, hrepository⟩ := h.request r hr
    have hstatus : gate.ballot.status ≠ .pending := by
      rw [(GateConfig.isApproved_iff.1 happroved).2]
      decide
    exact ⟨r', hr', hid, gate, h.configs gate hgate hstatus, by rwa [hrepository], rfl⟩

/-- The flights and the teams may change, as long as those who go on are members, and their committee is that of their
row. -/
theorem Invariant.flights {m : Moment} (h : Invariant past s) (hconfigs : t.configs = s.configs)
    (hrequests : t.requests = s.requests) (hnextConfig : t.nextConfig = s.nextConfig)
    (hnextRequest : t.nextRequest = s.nextRequest) (htasks : t.decisionTasks = s.decisionTasks)
    (hclock : t.clock = s.clock) (hnobody : ∀ f row, ¬ Writes m f row)
    (hmembers : ∀ f ∈ t.flights, f.eligible.isSome → ∃ r ∈ past ++ [m], Reads r f)
    (hcommittees : ∀ f ∈ t.flights, ∀ row, f.request.row = some row → s.decides f.committeeKey row) :
    Invariant (past ++ [m]) t := by
  have hballot : t.ballot = s.ballot := by rw [System.ballot, System.ballot, hconfigs, hrequests]
  have hgrows : Grows s t := .of_eq hconfigs hrequests
  refine ⟨?_, ?_, ?_, ?_, hmembers, fun f hf row hrow => hgrows.decides _ _ (hcommittees f hf row hrow), ?_, ?_⟩
  · rw [hconfigs, hnextConfig]
    exact h.config_id
  · rw [hrequests, hnextRequest]
    exact h.request_id
  · rw [hconfigs, hclock]
    exact h.chain
  · rw [hballot]
    exact h.ballots.pass hgrows.decides hnobody
  · rw [htasks]
    exact h.tasks
  · rw [htasks, hballot]
    exact h.decided

/-! ### What one row changes -/

section

variable {configs : Table GateConfig.id} {requests : Table GateRequest.id}

/-- A table of rows with ballots, in which one key gets another row. -/
private theorem map_update {α : Type} {get get' : Nat → Option α} {ballot : α → Ballot} {row : α} {id : Nat}
    (h : ∀ k, get' k = if k = id then some row else get k) (k : Nat) :
    (get' k).map ballot = if k = id then some (ballot row) else (get k).map ballot := by
  rw [h]
  split <;> rfl

private theorem ballotOf_config {configs' : Table GateConfig.id} {row : GateConfig}
    (h : ∀ k, configs'.get k = if k = row.id then some row else configs.get k) :
    ballotOf configs' requests = Function.update (ballotOf configs requests) (.config row.id) (some row.ballot) := by
  funext id
  cases id with
  | config k =>
    rw [Function.update_apply]
    simp only [ballotOf, RowId.config.injEq]
    exact map_update h k
  | request k => rfl

private theorem ballotOf_request {requests' : Table GateRequest.id} {row : GateRequest}
    (h : ∀ k, requests'.get k = if k = row.id then some row else requests.get k) :
    ballotOf configs requests' = Function.update (ballotOf configs requests) (.request row.id) (some row.ballot) := by
  funext id
  cases id with
  | config k => rfl
  | request k =>
    rw [Function.update_apply]
    simp only [ballotOf, RowId.request.injEq]
    exact map_update h k

end

/-! ### What one transaction does -/

/-- A transaction goes through where its request can write its decision. -/
private theorem writeFlight_isOk {f : Flight} {eligible : Finset Str} {now : Nat} :
    (∃ t, s.writeFlight f eligible now = .ok t) ↔ s.Open f.asfUid f.request := by
  unfold System.writeFlight System.Open
  cases f.request with
  | decide id approve =>
    dsimp only
    constructor
    · rintro ⟨t, hwrite⟩
      obtain ⟨r, hget, hwrite⟩ := demand_bind_eq_ok.1 hwrite
      obtain ⟨b, hvote, -⟩ := bind_eq_ok hwrite
      exact ⟨r, hget, vote_isOk.1 ⟨b, hvote⟩⟩
    · rintro ⟨r, hget, hopen⟩
      obtain ⟨b, hvote⟩ := vote_isOk.2 hopen
      rw [System.writeDecision, hget, demand, ok_bind, hvote]
      exact ⟨_, rfl⟩
  | decideConfig id approve =>
    dsimp only
    constructor
    · rintro ⟨t, hwrite⟩
      obtain ⟨c, hget, hwrite⟩ := demand_bind_eq_ok.1 hwrite
      obtain ⟨hprevious, hwrite⟩ := raiseIf_bind_eq_ok.1 hwrite
      obtain ⟨b, hvote, -⟩ := bind_eq_ok hwrite
      exact ⟨c, hget, not_not.1 hprevious, vote_isOk.1 ⟨b, hvote⟩⟩
    · rintro ⟨c, hget, hprevious, hopen⟩
      obtain ⟨b, hvote⟩ := vote_isOk.2 hopen
      rw [System.writeConfigDecision, hget, demand, ok_bind, raiseIf, if_neg (not_not.2 hprevious), ok_bind, hvote]
      exact ⟨_, rfl⟩
  | propose => exact ⟨fun _ => trivial, fun _ => ⟨_, rfl⟩⟩

private theorem Grows.replaceRequest {r : GateRequest} {b : Ballot} (hr : r ∈ s.requests.rows)
    (hpending : r.ballot.status = .pending) (hconfigs : t.configs = s.configs)
    (hrequests : t.requests = s.requests.replace { r with ballot := b }) : Grows s t := by
  refine ⟨⟨fun c hc _ => by rwa [hconfigs], fun r' hr' hstatus => ?_⟩, fun c hc => ⟨c, by rwa [hconfigs], rfl, rfl⟩,
    fun r' hr' => ?_⟩
  · rw [hrequests]
    refine Table.mem_replace_of_ne hr' fun hid => ?_
    rw [s.requests.eq_of_key_eq hr' hr hid] at hstatus
    exact hstatus hpending
  · rw [hrequests]
    by_cases hid : r'.id = r.id
    · obtain rfl := s.requests.eq_of_key_eq hr' hr hid
      exact ⟨_, Table.mem_replace_self hr' rfl, rfl, rfl⟩
    · exact ⟨r', Table.mem_replace_of_ne hr' hid, rfl, rfl⟩

private theorem Grows.replaceConfig {c : GateConfig} {b : Ballot} (hc : c ∈ s.configs.rows)
    (hpending : c.ballot.status = .pending) (hconfigs : t.configs = s.configs.replace { c with ballot := b })
    (hrequests : t.requests = s.requests) : Grows s t := by
  refine ⟨⟨fun c' hc' hstatus => ?_, fun r hr _ => by rwa [hrequests]⟩, fun c' hc' => ?_,
    fun r hr => ⟨r, by rwa [hrequests], rfl, rfl⟩⟩
  · rw [hconfigs]
    refine Table.mem_replace_of_ne hc' fun hid => ?_
    rw [s.configs.eq_of_key_eq hc' hc hid] at hstatus
    exact hstatus hpending
  · rw [hconfigs]
    by_cases hid : c'.id = c.id
    · obtain rfl := s.configs.eq_of_key_eq hc' hc hid
      exact ⟨_, Table.mem_replace_self hc' rfl, rfl, rfl⟩
    · exact ⟨c', Table.mem_replace_of_ne hc' hid, rfl, rfl⟩

/-- Rows are only added. -/
private theorem Grows.of_subset (hconfigs : ∀ c ∈ s.configs.rows, c ∈ t.configs.rows)
    (hrequests : ∀ r ∈ s.requests.rows, r ∈ t.requests.rows) : Grows s t where
  configs := fun c hc _ => hconfigs c hc
  requests := fun r hr _ => hrequests r hr
  config := fun c hc => ⟨c, hconfigs c hc, rfl, rfl⟩
  request := fun r hr => ⟨r, hrequests r hr, rfl, rfl⟩

section

variable {m : Moment} {f : Flight} {eligible : Finset Str} {now : Nat}

private theorem Invariant.members_append (h : Invariant past s) (f : Flight) (hf : f ∈ s.flights)
    (heligible : f.eligible.isSome) :
    ∃ r ∈ past ++ [m], Reads r f := by
  obtain ⟨r, hr, hreads⟩ := h.members f hf heligible
  exact ⟨r, List.mem_append_left _ hr, hreads⟩

/-- With a decision on a request the task that notifies of it is queued, and the requests with tasks stay decided. -/
private theorem decided_update {ballot : RowId → Option Ballot} {tasks : List Nat} {id : Nat} (b : Ballot)
    (h : ∀ k ∈ tasks, ∃ b, ballot (.request k) = some b ∧ b.status ≠ .pending) (hnew : id ∉ tasks) :
    ∀ k ∈ if b.status ≠ .pending then tasks ++ [id] else tasks,
      ∃ b', Function.update ballot (.request id) (some b) (.request k) = some b' ∧ b'.status ≠ .pending := by
  intro k hk
  rw [Function.update_apply]
  simp only [RowId.request.injEq]
  by_cases heq : k = id
  · rw [if_pos heq]
    split at hk
    · rename_i hdecided
      exact ⟨b, rfl, hdecided⟩
    · exact absurd (heq ▸ hk) hnew
  · rw [if_neg heq]
    split at hk
    · rcases List.mem_append.1 hk with hk | hk
      · exact h k hk
      · exact absurd (List.mem_singleton.1 hk) heq
    · exact h k hk

private theorem Invariant.writeDecision (h : Invariant past s) {id : Nat} {approve : Bool}
    (hrequest : f.request = .decide id approve) (hwrites : Writes m f (.request id)) (hreads : ∃ r ∈ past, Reads r f)
    (hcommittee : s.decides f.committeeKey (.request id)) (hnow : s.clock < now)
    (hwrite : s.writeDecision f.asfUid id approve eligible now = .ok s') :
    Invariant (past ++ [m]) s' ∧ Unchanged s s' := by
  unfold System.writeDecision at hwrite
  obtain ⟨r, hget, hwrite⟩ := demand_bind_eq_ok.1 hwrite
  obtain ⟨b, hvote, hwrite⟩ := bind_eq_ok hwrite
  obtain rfl := Except.ok.inj hwrite
  obtain ⟨hr, rfl⟩ := Table.get_eq_some.1 hget
  have hpending := (vote_ok hvote).1
  have hnew : r.id ∉ s.decisionTasks := by
    intro hid
    obtain ⟨b', hb', hstatus⟩ := h.decided r.id hid
    rw [System.ballot, ballotOf, hget, Option.map_some, Option.some.injEq] at hb'
    rw [← hb'] at hstatus
    exact hstatus hpending
  have hballot : s.ballot (.request r.id) = some r.ballot := by
    rw [System.ballot, ballotOf, hget, Option.map_some]
  have hupdate : ballotOf s.configs (s.requests.replace { r with ballot := b }) =
      Function.update s.ballot (.request r.id) (some b) :=
    @ballotOf_request s.configs s.requests _ { r with ballot := b } (Table.get_replace hget)
  have hgrows : Grows s { s with
      requests := s.requests.replace { r with ballot := b }
      decisionTasks := if b.status ≠ .pending then s.decisionTasks ++ [r.id] else s.decisionTasks
      clock := if b.status ≠ .pending then now else s.clock } := .replaceRequest hr hpending rfl rfl
  refine ⟨⟨h.config_id, ?_, ?_, ?_, h.members_append, fun f hf row hrow => hgrows.decides _ _ (h.committees f hf row hrow),
    ?_, ?_⟩, hgrows.toUnchanged⟩
  · intro r' hr'
    rcases Table.mem_replace hr' with rfl | ⟨hr', -⟩
    · exact h.request_id r hr
    · exact h.request_id r' hr'
  · refine ⟨fun c hc => (h.chain.rank_le c hc).trans ?_, h.chain.previous⟩
    dsimp only
    split <;> omega
  · have happroves : approve = f.request.approves := by rw [hrequest]; rfl
    rw [happroves] at hvote
    rw [System.ballot]
    dsimp only
    rw [hupdate]
    exact h.ballots.vote hgrows.decides hwrites hreads (hgrows.decides _ _ hcommittee) hballot hvote
  · dsimp only
    split
    · exact List.nodup_append_comm.1 (List.nodup_cons.2 ⟨hnew, h.tasks⟩)
    · exact h.tasks
  · rw [System.ballot]
    dsimp only
    rw [hupdate]
    exact decided_update b h.decided hnew

private theorem Invariant.writeConfigDecision (h : Invariant past s) {id : Nat} {approve : Bool}
    (hrequest : f.request = .decideConfig id approve) (hwrites : Writes m f (.config id)) (hreads : ∃ r ∈ past, Reads r f)
    (hcommittee : s.decides f.committeeKey (.config id)) (hnow : s.clock < now)
    (hwrite : s.writeConfigDecision f.asfUid id approve eligible now = .ok s') :
    Invariant (past ++ [m]) s' ∧ Unchanged s s' := by
  unfold System.writeConfigDecision at hwrite
  obtain ⟨c, hget, hwrite⟩ := demand_bind_eq_ok.1 hwrite
  obtain ⟨hprevious, hwrite⟩ := raiseIf_bind_eq_ok.1 hwrite
  obtain ⟨b, hvote, hwrite⟩ := bind_eq_ok hwrite
  obtain rfl := Except.ok.inj hwrite
  obtain ⟨hc, rfl⟩ := Table.get_eq_some.1 hget
  have hpending := (vote_ok hvote).1
  have hballot : s.ballot (.config c.id) = some c.ballot := by
    rw [System.ballot, ballotOf, hget, Option.map_some]
  have hupdate : ballotOf (s.configs.replace { c with ballot := b }) s.requests =
      Function.update s.ballot (.config c.id) (some b) :=
    @ballotOf_config s.configs s.requests _ { c with ballot := b } (Table.get_replace hget)
  have hgrows : Grows s { s with
      configs := s.configs.replace { c with ballot := b }
      clock := if b.status ≠ .pending then now else s.clock } := .replaceConfig hc hpending rfl rfl
  refine ⟨⟨?_, h.request_id, h.chain.vote hc (not_not.1 hprevious) hvote hnow, ?_, h.members_append,
    fun f hf row hrow => hgrows.decides _ _ (h.committees f hf row hrow), h.tasks, h.decided⟩, hgrows.toUnchanged⟩
  · intro c' hc'
    rcases Table.mem_replace hc' with rfl | ⟨hc', -⟩
    · exact h.config_id c hc
    · exact h.config_id c' hc'
  · have happroves : approve = f.request.approves := by rw [hrequest]; rfl
    rw [happroves] at hvote
    rw [System.ballot]
    dsimp only
    rw [hupdate]
    exact h.ballots.vote hgrows.decides hwrites hreads (hgrows.decides _ _ hcommittee) hballot hvote

private theorem Invariant.writeProposal (h : Invariant past s) {p : Proposal} {previousId : Option Nat}
    (hrequest : f.request = .propose p previousId) (hwrites : Writes m f (.config s.nextConfig))
    (hreads : ∃ r ∈ past, Reads r f) :
    Invariant (past ++ [m]) (s.writeProposal f.asfUid p f.committeeKey previousId) ∧
      Unchanged s (s.writeProposal f.asfUid p f.committeeKey previousId) := by
  have hgrows : Grows s (s.writeProposal f.asfUid p f.committeeKey previousId) :=
    .of_subset (fun c hc => Table.mem_insert_of_mem hc) fun r hr => hr
  have hfresh : ∀ c ∈ s.configs.rows, c.id ≠ s.nextConfig := fun c hc => (h.config_id c hc).ne
  have hnone : s.configs.get s.nextConfig = none := Table.get_eq_none.2 hfresh
  have hballot : s.ballot (.config s.nextConfig) = none := by rw [System.ballot, ballotOf, hnone, Option.map_none]
  have hdecides : (s.writeProposal f.asfUid p f.committeeKey previousId).decides f.committeeKey
      (.config s.nextConfig) := by
    unfold System.writeProposal System.decides
    dsimp only
    rw [Table.rows_insert hfresh]
    exact ⟨_, List.mem_append_right _ (List.mem_singleton_self _), rfl, rfl⟩
  refine ⟨⟨?_, h.request_id, h.chain.insert hfresh rfl rfl, ?_, h.members_append,
    fun f hf row hrow => hgrows.decides _ _ (h.committees f hf row hrow), h.tasks, h.decided⟩, hgrows.toUnchanged⟩
  · intro c hc
    rcases Table.mem_insert hc with hc | rfl
    · exact (h.config_id c hc).trans (Nat.lt_succ_self _)
    · exact Nat.lt_succ_self _
  · have happroves : f.request.approves = true := by rw [hrequest]; rfl
    have hpropose := h.ballots.propose hgrows.decides hwrites hreads hdecides hballot happroves
    unfold System.writeProposal at hpropose ⊢
    rw [System.ballot]
    dsimp only
    rw [ballotOf_config (Table.get_insert hnone)]
    exact hpropose

end

theorem Invariant.record (h : Invariant past s) (run : Run) (allowed : Bool) :
    Invariant past (s.record run allowed) ∧ Unchanged s (s.record run allowed) := by
  unfold System.record
  split
  · exact ⟨h, .refl s⟩
  · have hfresh : ∀ r ∈ s.requests.rows, r.id ≠ s.nextRequest := fun r hr => (h.request_id r hr).ne
    have hnone : s.requests.get s.nextRequest = none := Table.get_eq_none.2 hfresh
    have hballot : s.ballot (.request s.nextRequest) = none := by
      rw [System.ballot, ballotOf, hnone, Option.map_none]
    let row : GateRequest := ⟨s.nextRequest, run.repositoryId, run.runId, run.runAttempt, run.headSha, run.ref, run.actor,
      run.actorAsfUid, { undecided with status := if allowed then .pending else .rejected }⟩
    have hupdate : ballotOf s.configs (s.requests.insert row) =
        Function.update s.ballot (.request s.nextRequest) (some row.ballot) := ballotOf_request (Table.get_insert hnone)
    have hgrows : Grows s { s with requests := s.requests.insert row, nextRequest := s.nextRequest + 1 } :=
      .of_subset (fun c hc => hc) fun r hr => Table.mem_insert_of_mem hr
    refine ⟨⟨h.config_id, ?_, h.chain, ?_, h.members,
      fun f hf row hrow => hgrows.decides _ _ (h.committees f hf row hrow), h.tasks, ?_⟩, hgrows.toUnchanged⟩
    · intro r hr
      rcases Table.mem_insert hr with hr | rfl
      · exact (h.request_id r hr).trans (Nat.lt_succ_self _)
      · exact Nat.lt_succ_self _
    · rw [System.ballot]
      dsimp only
      rw [hupdate]
      have hstatus : (if allowed then GateStatus.pending else .rejected) ≠ .approved := by cases allowed <;> decide
      exact (h.ballots.grow hgrows.decides).record hballot rfl hstatus
    · intro id hid
      obtain ⟨b, hb, hstatus⟩ := h.decided id hid
      refine ⟨b, ?_, hstatus⟩
      rw [System.ballot]
      dsimp only
      rw [hupdate, Function.update_of_ne]
      · exact hb
      · intro heq
        rw [heq, hballot] at hb
        cases hb

/-- The transaction of a request that has read the team. -/
private theorem Invariant.writeFlight (h : Invariant past s) {m : Moment} {f : Flight} {eligible : Finset Str}
    {now : Nat}
    (hwrites : Writes m f (f.request.row.getD (.config s.nextConfig))) (hreads : ∃ r ∈ past, Reads r f)
    (hcommittee : ∀ row, f.request.row = some row → s.decides f.committeeKey row) (hnow : s.clock < now)
    (hwrite : s.writeFlight f eligible now = .ok s') : Invariant (past ++ [m]) s' ∧ Unchanged s s' := by
  unfold System.writeFlight at hwrite
  cases hrequest : f.request with
  | decide id approve =>
    rw [hrequest] at hwrite hwrites hcommittee
    exact h.writeDecision hrequest hwrites hreads (hcommittee _ rfl) hnow hwrite
  | decideConfig id approve =>
    rw [hrequest] at hwrite hwrites hcommittee
    exact h.writeConfigDecision hrequest hwrites hreads (hcommittee _ rfl) hnow hwrite
  | propose p previousId =>
    rw [hrequest] at hwrite hwrites
    obtain rfl := Except.ok.inj hwrite
    exact h.writeProposal hrequest hwrites hreads

/-! ### Every step -/

private theorem Invariant.launch (h : Invariant past s) {m : Moment} (hnobody : ∀ f row, ¬ Writes m f row) (uid : Str)
    (request : Request) (committeeKey : Str) (hcommittee : ∀ row, request.row = some row → s.decides committeeKey row) :
    Invariant (past ++ [m]) (s.launch uid request committeeKey) ∧ Unchanged s (s.launch uid request committeeKey) := by
  refine ⟨h.flights rfl rfl rfl rfl rfl rfl hnobody (fun f hf heligible => ?_) fun f hf row hrow => ?_,
    ⟨fun _ hc _ => hc, fun _ hr _ => hr⟩⟩
  · rcases List.mem_append.1 hf with hf | hf
    · exact h.members_append f hf heligible
    · rw [List.mem_singleton.1 hf] at heligible
      cases heligible
  · rcases List.mem_append.1 hf with hf | hf
    · exact h.committees f hf row hrow
    · rw [List.mem_singleton.1 hf] at hrow ⊢
      exact hcommittee row hrow

/-- The flights that are under way change, and nobody writes. -/
theorem Invariant.still (h : Invariant past s) {m : Moment} (hnobody : ∀ f row, ¬ Writes m f row) {flights : List Flight}
    (hsub : ∀ f ∈ flights, f ∈ s.flights) {teams : Str → Finset Str} :
    Invariant (past ++ [m]) { s with flights := flights, teams := teams } ∧
      Unchanged s { s with flights := flights, teams := teams } :=
  ⟨h.flights rfl rfl rfl rfl rfl rfl hnobody (fun f hf => h.members_append f (hsub f hf))
    fun f hf => h.committees f (hsub f hf), ⟨fun _ hc _ => hc, fun _ hr _ => hr⟩⟩

private theorem Invariant.readTeam (h : Invariant past s) {i : Nat} {uid : Str} {request : Request} {committeeKey : Str}
    (hflight : s.flights[i]? = some ⟨uid, request, committeeKey, none⟩)
    (hnobody : ∀ f row, ¬ Writes (s, .readTeam i) f row) :
    Invariant (past ++ [(s, .readTeam i)]) (s.readTeam i ⟨uid, request, committeeKey, none⟩) ∧
      Unchanged s (s.readTeam i ⟨uid, request, committeeKey, none⟩) := by
  unfold System.readTeam
  dsimp only
  split
  · rename_i hmember
    refine ⟨h.flights rfl rfl rfl rfl rfl rfl hnobody (fun f hf heligible => ?_) fun f hf row hrow => ?_,
      ⟨fun _ hc _ => hc, fun _ hr _ => hr⟩⟩
    · rcases List.mem_or_eq_of_mem_set hf with hf | rfl
      · exact h.members_append f hf heligible
      · exact ⟨_, List.mem_append_right _ (List.mem_singleton_self _), i, rfl, hflight, rfl, hmember⟩
    · rcases List.mem_or_eq_of_mem_set hf with hf | rfl
      · exact h.committees f hf row hrow
      · exact h.committees _ (List.mem_of_getElem? hflight) row hrow
  · exact h.still hnobody fun f hf => List.mem_of_mem_eraseIdx hf

theorem Invariant.write (h : Invariant past s) {i now : Nat} (hnow : s.clock < now) {uid : Str} {request : Request}
    {committeeKey : Str} {eligible : Finset Str} (hflight : s.flights[i]? = some ⟨uid, request, committeeKey, some eligible⟩) :
    Invariant (past ++ [(s, .write i now)]) (Gates.step s (.write i now)) ∧
      Unchanged s (Gates.step s (.write i now)) := by
  have hmem := List.mem_of_getElem? hflight
  have hlanded : Invariant past { s with flights := s.flights.eraseIdx i } :=
    ⟨h.config_id, h.request_id, h.chain, h.ballots, fun f hf => h.members f (List.mem_of_mem_eraseIdx hf),
      fun f hf => h.committees f (List.mem_of_mem_eraseIdx hf), h.tasks, h.decided⟩
  simp only [Gates.step, hflight]
  split
  · rename_i s' hwrite
    have hopen : s.Open uid request := (writeFlight_isOk (s := { s with flights := s.flights.eraseIdx i })).1 ⟨s', hwrite⟩
    obtain ⟨hinv, hconfigs, hrequests⟩ := hlanded.writeFlight (m := (s, .write i now))
      ⟨i, now, rfl, hflight, rfl, hopen, rfl⟩ (h.members _ hmem rfl) (h.committees _ hmem) hnow hwrite
    exact ⟨hinv, hconfigs, hrequests⟩
  · rename_i e hwrite
    refine h.still (fun f row hwrites => ?_) fun f hf => List.mem_of_mem_eraseIdx hf
    obtain ⟨j, now', hevent, hflight', -, hopen, -⟩ := hwrites
    obtain ⟨rfl, rfl⟩ := Event.write.inj hevent
    obtain rfl := Option.some.inj (hflight.symm.trans hflight')
    obtain ⟨t, ht⟩ : ∃ t, System.writeFlight { s with flights := s.flights.eraseIdx i }
        ⟨uid, request, committeeKey, some eligible⟩ eligible now = .ok t := writeFlight_isOk.2 hopen
    rw [hwrite] at ht
    cases ht

theorem Invariant.step (h : Invariant past s) (e : Event) (htimely : Timely s e) :
    Invariant (past ++ [(s, e)]) (step s e) ∧ Unchanged s (step s e) := by
  cases e with
  | teamChanges committeeKey members => exact h.still (not_writes (by simp)) fun f hf => hf
  | decide uid requestId approve =>
    have hnobody := @not_writes (s, .decide uid requestId approve) (by simp)
    simp only [Gates.step]
    split
    · exact h.still hnobody fun f hf => hf
    · rename_i r hget
      split
      · exact h.still hnobody fun f hf => hf
      · rename_i gate hactive
        refine h.launch hnobody _ _ _ fun row hrow => ?_
        obtain rfl := Option.some.inj hrow
        obtain ⟨hr, rfl⟩ := Table.get_eq_some.1 hget
        obtain ⟨hgate, happroved⟩ := List.mem_filter.1 (latestBy_eq_some hactive).1
        exact ⟨r, hr, rfl, gate, hgate, happroved, rfl⟩
  | decideConfig uid configId approve =>
    have hnobody := @not_writes (s, .decideConfig uid configId approve) (by simp)
    simp only [Gates.step]
    split
    · exact h.still hnobody fun f hf => hf
    · rename_i c hget
      refine h.launch hnobody _ _ _ fun row hrow => ?_
      obtain rfl := Option.some.inj hrow
      obtain ⟨hc, rfl⟩ := Table.get_eq_some.1 hget
      exact ⟨c, hc, rfl, rfl⟩
  | propose uid proposal => exact h.launch (not_writes (by simp)) _ _ _ fun row hrow => by cases hrow
  | readTeam i =>
    have hnobody := @not_writes (s, .readTeam i) (by simp)
    simp only [Gates.step]
    split
    · exact h.readTeam (by assumption) hnobody
    · exact h.still hnobody fun f hf => hf
  | write i now =>
    cases hflight : s.flights[i]? with
    | none =>
      simp only [Gates.step, hflight]
      refine h.still (fun f row hwrites => ?_) fun f hf => hf
      obtain ⟨j, now', hevent, hflight', -⟩ := hwrites
      obtain ⟨rfl, rfl⟩ := Event.write.inj hevent
      rw [hflight] at hflight'
      cases hflight'
    | some flight =>
      obtain ⟨uid, request, committeeKey, eligible⟩ := flight
      cases eligible with
      | some eligible => exact h.write htimely hflight
      | none =>
        simp only [Gates.step, hflight]
        refine h.still (fun f row hwrites => ?_) fun f hf => hf
        obtain ⟨j, now', hevent, hflight', hread, -⟩ := hwrites
        obtain ⟨rfl, rfl⟩ := Event.write.inj hevent
        obtain rfl := Option.some.inj (hflight.symm.trans hflight')
        cases hread
  | record run allowed =>
    obtain ⟨hinv, hunchanged⟩ := h.record run allowed
    have hnobody := @not_writes (s, .record run allowed) (by simp)
    exact ⟨(hinv.still hnobody fun f hf => hf).1, hunchanged⟩

theorem Invariant.init (teams : Str → Finset Str) : Invariant [] (System.init teams) where
  config_id := fun c hc => by cases hc
  request_id := fun r hr => by cases hr
  chain := ⟨fun c hc => (by cases hc), fun c hc => (by cases hc)⟩
  ballots := by
    refine ⟨fun row b hb => ?_, fun row b hb => ?_, fun m hm => by cases hm⟩ <;> cases row <;> cases hb
  members := fun f hf => by cases hf
  committees := fun f hf => by cases hf
  tasks := List.nodup_nil
  decided := fun id hid => by cases hid

end

/-! ### The rule -/

/-- Two users approved of the row, each as a member of the team that decides on it, and no one refused. -/
def ApprovedByTwo (past : List Moment) (s : System) (row : RowId) (b : Ballot) : Prop :=
  (∀ u a, b.decisions.get u = some a → a = true) ∧
    ∃ u v, u ≠ v ∧ ∀ uid ∈ [u, v], b.decisions.get uid = some true ∧
      ∃ committeeKey, s.decides committeeKey row ∧ Made past committeeKey row uid true

structure TwoPersonRule (past : List Moment) (s : System) : Prop where
  previous : ∀ c ∈ s.configs.rows, c.ballot.status = .approved →
    c.previousId = (justBefore s.configs c).map GateConfig.id
  approved : ∀ row b, s.ballot row = some b → b.status = .approved → ApprovedByTwo past s row b
  once : ∀ row b, s.ballot row = some b → b.decisions.keys.Nodup
  made : ∀ row b, s.ballot row = some b → ∀ uid approve, b.decisions.get uid = some approve →
    ∃ committeeKey, s.decides committeeKey row ∧ Made past committeeKey row uid approve
  kept : ∀ m ∈ past, ∀ f row, Writes m f row →
    ∃ b, s.ballot row = some b ∧ b.decisions.get f.asfUid = some f.request.approves
  tasks : ∀ id, s.decisionTasks.count id ≤ 1

private theorem Invariant.twoPersonRule {past : List Moment} {s : System} (h : Invariant past s) :
    TwoPersonRule past s where
  previous := h.chain.previous
  approved := by
    intro row b hb happroved
    obtain ⟨hall, u, v, hne, hu, hv⟩ := h.ballots.approved row b hb happroved
    refine ⟨hall, u, v, hne, fun uid huid => ?_⟩
    have hdecision : b.decisions.get uid = some true := by
      rcases List.mem_pair.1 huid with rfl | rfl
      · exact hu
      · exact hv
    exact ⟨hdecision, h.ballots.made row b hb uid true hdecision⟩
  once := fun _ b _ => b.decisions.nodup
  made := h.ballots.made
  kept := h.ballots.kept
  tasks := fun id => List.nodup_iff_count_le_one.1 h.tasks id

/-- Whatever requests come, in whatever order they read and write and the teams change: the rule holds, and rows that
are no longer pending stay as they are. -/
theorem gates_two_person (teams : Str → Finset Str) (events later : List Event)
    (htimely : Throughout step Timely (System.init teams) (events ++ later)) :
    TwoPersonRule (moments step (System.init teams) events) (events.foldl step (System.init teams)) ∧
      Unchanged (events.foldl step (System.init teams)) ((events ++ later).foldl step (System.init teams)) := by
  obtain ⟨hfirst, hlater⟩ := Throughout.append.1 htimely
  have hinv := hfirst.remembers (I := Invariant) (fun _ _ e h he => (Invariant.step h e he).1) (Invariant.init teams)
  refine ⟨hinv.twoPersonRule, ?_⟩
  rw [List.foldl_append]
  have hboth := hlater.remembers
    (I := fun past t => Invariant past t ∧ Unchanged (events.foldl step (System.init teams)) t) (fun _ _ e h he => by
      obtain ⟨hstep, hunchanged⟩ := Invariant.step h.1 e he
      exact ⟨hstep, h.2.trans hunchanged⟩) ⟨hinv, .refl _⟩
  exact hboth.2

/-- A gate is proposed, the team changes, and of the three members who decide at once the second is the last that is
needed; then two of them decide on a run. -/
def decideAtOnce : List Event :=
  [.propose "u".toList ⟨7, "r".toList, "c".toList, "e".toList, "w".toList, "push".toList, "branch".toList, [], []⟩,
    .readTeam 0, .write 0 1, .teamChanges "c".toList {"u".toList, "v".toList, "w".toList},
    .decideConfig "v".toList 0 true, .decideConfig "w".toList 0 true, .readTeam 1, .readTeam 0, .write 1 1, .write 0 2,
    .record ⟨7, 1, 1, [], [], [], none⟩ true, .decide "v".toList 0 true, .decide "u".toList 0 true, .readTeam 0,
    .readTeam 1, .write 0 3, .write 0 4]

theorem gates_two_person_decideAtOnce :
    let start := System.init fun _ => {"u".toList, "v".toList}
    let s := decideAtOnce.foldl step start
    s.configs.rows.map (fun c => (c.ballot.status, c.ballot.decisions.keys)) = [(.approved, ["u".toList, "w".toList])] ∧
      s.requests.rows.map (fun r => (r.ballot.status, r.ballot.decisions.keys)) =
        [(.approved, ["v".toList, "u".toList])] ∧
      s.decisionTasks = [0] ∧ TwoPersonRule (moments step start decideAtOnce) s ∧
      Unchanged s ((decideAtOnce ++ [Event.teamChanges "c".toList ∅]).foldl step start) := by
  intro start s
  have htimely : Throughout step Timely start (decideAtOnce ++ [.teamChanges "c".toList ∅]) := by
    refine ⟨trivial, trivial, (by decide : (0 : Nat) < 1), trivial, trivial, trivial, trivial, trivial,
      (by decide : (0 : Nat) < 1), ?_, trivial, trivial, trivial, trivial, trivial, ?_, ?_, trivial, trivial⟩
    · change System.clock _ < 2
      decide +kernel
    · change System.clock _ < 3
      decide +kernel
    · change System.clock _ < 4
      decide +kernel
  exact ⟨by decide +kernel, by decide +kernel, by decide +kernel,
    gates_two_person (fun _ => {"u".toList, "v".toList}) decideAtOnce [.teamChanges "c".toList ∅] htimely⟩

end Gates

end TrustedReleases
