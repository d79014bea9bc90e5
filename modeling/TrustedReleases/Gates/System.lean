import TrustedReleases.Lib.OrdDict
import TrustedReleases.Lib.Run
import TrustedReleases.Lib.Str
import TrustedReleases.Lib.Table

/-!
# Gates

The gates of repositories and the runs that wait for them, both of which the members of a release team decide on.  A
request reads what it needs and the team, each at a moment of its own, and then writes in one transaction that reads
the row again; in between other requests come and go and the team changes.  A proposal that fails one of the checks on
what is proposed ends there, and is not on its way.
-/

namespace TrustedReleases

open Lib

namespace Gates

inductive GateStatus where
  | pending
  | approved
  | rejected
  deriving DecidableEq, Repr

/-- The columns of a row that is decided on. -/
structure Ballot where
  status : GateStatus
  decisions : OrdDict Str Bool
  decided : Option Nat

structure GateConfig where
  id : Nat
  repositoryId : Nat
  repository : Str
  committeeKey : Str
  environment : Str
  workflow : Str
  event : Str
  refType : Str
  refPattern : Str
  notify : Str
  previousId : Option Nat
  ballot : Ballot

structure GateRequest where
  id : Nat
  repositoryId : Nat
  runId : Nat
  runAttempt : Nat
  headSha : Str
  ref : Str
  actor : Str
  actorAsfUid : Option Str
  ballot : Ballot

def THRESHOLD : Nat := 2

/-- `tally` -/
def tally (decisions : OrdDict Str Bool) (eligibleUids : Finset Str) : GateStatus :=
  if ¬ decisions.values.all id then .rejected
  else if THRESHOLD ≤ (decisions.keys.filter fun uid => decide (uid ∈ eligibleUids)).length then .approved
  else .pending

/-- `__vote` -/
def vote (row : Ballot) (asfUid : Str) (approve : Bool) (eligible : Finset Str) (now : Nat) : Except Str Ballot :=
  if row.status ≠ .pending ∨ asfUid ∈ row.decisions.keys then
    .error "This is already decided, or you have already decided it".toList
  else
    let decisions := row.decisions.set asfUid approve
    let status := tally decisions eligible
    .ok ⟨status, decisions, if status ≠ .pending then some now else row.decided⟩

/-! ### Requests in flight -/

/-- What is proposed for a repository. -/
structure Proposal where
  repositoryId : Nat
  repository : Str
  committeeKey : Str
  environment : Str
  workflow : Str
  event : Str
  refType : Str
  refPattern : Str
  notify : Str

inductive Request where
  | decide (requestId : Nat) (approve : Bool)
  | decideConfig (configId : Nat) (approve : Bool)
  | propose (proposal : Proposal) (previousId : Option Nat)

/-- A request on its way, with the committee whose team it needs and the team once it has read it. -/
structure Flight where
  asfUid : Str
  request : Request
  committeeKey : Str
  eligible : Option (Finset Str)

/-- The row that a decision is about. -/
inductive RowId where
  | config (id : Nat)
  | request (id : Nat)
  deriving DecidableEq

structure System where
  configs : Table GateConfig.id
  requests : Table GateRequest.id
  nextConfig : Nat
  nextRequest : Nat
  /-- the requests of the `GATE_DECISION` tasks -/
  decisionTasks : List Nat
  /-- the active members of the release teams -/
  teams : Str → Finset Str
  flights : List Flight
  /-- the time of the last decision -/
  clock : Nat

/-- Ranks times, and no time below all of them. -/
def timeRank (decided : Option Nat) : Nat := decided.elim 0 (· + 1)

def GateConfig.rank (c : GateConfig) : Nat := timeRank c.ballot.decided

def GateConfig.isApproved (repositoryId : Nat) (c : GateConfig) : Bool :=
  decide (c.repositoryId = repositoryId ∧ c.ballot.status = .approved)

/-- `active` -/
def active (configs : Table GateConfig.id) (repositoryId : Nat) : Option GateConfig :=
  latestBy GateConfig.rank (configs.rows.filter (·.isApproved repositoryId))

/-- The columns of a run that `_record` inserts. -/
structure Run where
  repositoryId : Nat
  runId : Nat
  runAttempt : Nat
  headSha : Str
  ref : Str
  actor : Str
  actorAsfUid : Option Str

inductive Event where
  | teamChanges (committeeKey : Str) (members : Finset Str)
  | decide (asfUid : Str) (requestId : Nat) (approve : Bool)
  | decideConfig (asfUid : Str) (configId : Nat) (approve : Bool)
  | propose (asfUid : Str) (proposal : Proposal)
  | readTeam (flight : Nat)
  | write (flight : Nat) (now : Nat)
  | record (run : Run) (allowed : Bool)

def undecided : Ballot := ⟨.pending, .empty, none⟩

namespace System

variable (s : System)

def launch (asfUid : Str) (request : Request) (committeeKey : Str) : System :=
  { s with flights := s.flights ++ [⟨asfUid, request, committeeKey, none⟩] }

/-- `__team_member`: the request goes on with the team if the user is one of its members. -/
def readTeam (i : Nat) (flight : Flight) : System :=
  let eligible := s.teams flight.committeeKey
  if flight.asfUid ∈ eligible then { s with flights := s.flights.set i { flight with eligible := some eligible } }
  else { s with flights := s.flights.eraseIdx i }

/-- The write transaction of `decide`. -/
def writeDecision (asfUid : Str) (requestId : Nat) (approve : Bool) (eligible : Finset Str) (now : Nat) :
    Except Str System := do
  let request ← demand (s.requests.get requestId) "Gate request not found".toList
  let ballot ← vote request.ballot asfUid approve eligible now
  .ok { s with
    requests := s.requests.replace { request with ballot := ballot }
    decisionTasks := if ballot.status ≠ .pending then s.decisionTasks ++ [requestId] else s.decisionTasks
    clock := if ballot.status ≠ .pending then now else s.clock }

/-- The write transaction of `decide_config`. -/
def writeConfigDecision (asfUid : Str) (configId : Nat) (approve : Bool) (eligible : Finset Str) (now : Nat) :
    Except Str System := do
  let proposal ← demand (s.configs.get configId) "Gate proposal not found".toList
  raiseIf (proposal.previousId ≠ (active s.configs proposal.repositoryId).map GateConfig.id)
    "The gate has changed since this was proposed".toList
  let ballot ← vote proposal.ballot asfUid approve eligible now
  .ok { s with
    configs := s.configs.replace { proposal with ballot := ballot }
    clock := if ballot.status ≠ .pending then now else s.clock }

/-- The insertion in `propose`, with the approval of the one who proposes. -/
def writeProposal (asfUid : Str) (p : Proposal) (committeeKey : Str) (previousId : Option Nat) : System :=
  { s with
    configs := s.configs.insert {
      id := s.nextConfig
      repositoryId := p.repositoryId
      repository := p.repository
      committeeKey := committeeKey
      environment := p.environment.map Char.toLower
      workflow := p.workflow
      event := p.event
      refType := p.refType
      refPattern := p.refPattern
      notify := p.notify
      previousId := previousId
      ballot := ⟨.pending, OrdDict.empty.set asfUid true, none⟩ }
    nextConfig := s.nextConfig + 1 }

/-- The transaction of a request that has read the team. -/
def writeFlight (flight : Flight) (eligible : Finset Str) (now : Nat) : Except Str System :=
  match flight.request with
  | .decide requestId approve => s.writeDecision flight.asfUid requestId approve eligible now
  | .decideConfig configId approve => s.writeConfigDecision flight.asfUid configId approve eligible now
  | .propose proposal previousId =>
    .ok (s.writeProposal flight.asfUid proposal flight.committeeKey previousId)

/-- The insertion in `_record`, which does nothing where the run and the attempt are there. -/
def record (run : Run) (allowed : Bool) : System :=
  if s.requests.rows.any fun r =>
      decide (r.repositoryId = run.repositoryId ∧ r.runId = run.runId ∧ r.runAttempt = run.runAttempt) then s
  else
    { s with
      requests := s.requests.insert {
        id := s.nextRequest
        repositoryId := run.repositoryId
        runId := run.runId
        runAttempt := run.runAttempt
        headSha := run.headSha
        ref := run.ref
        actor := run.actor
        actorAsfUid := run.actorAsfUid
        ballot := { undecided with status := if allowed then .pending else .rejected } }
      nextRequest := s.nextRequest + 1 }

end System

def step (s : System) : Event → System
  | .teamChanges committeeKey members => { s with teams := Function.update s.teams committeeKey members }
  | .decide asfUid requestId approve =>
    match s.requests.get requestId with
    | none => s
    | some request =>
      match active s.configs request.repositoryId with
      | none => s
      | some gate => s.launch asfUid (.decide requestId approve) gate.committeeKey
  | .decideConfig asfUid configId approve =>
    match s.configs.get configId with
    | none => s
    | some proposal => s.launch asfUid (.decideConfig configId approve) proposal.committeeKey
  | .propose asfUid proposal =>
    let current := active s.configs proposal.repositoryId
    s.launch asfUid (.propose proposal (current.map GateConfig.id))
      ((current.map GateConfig.committeeKey).getD proposal.committeeKey)
  | .readTeam i =>
    match s.flights[i]? with
    | some ⟨asfUid, request, committeeKey, none⟩ => s.readTeam i ⟨asfUid, request, committeeKey, none⟩
    | _ => s
  | .write i now =>
    match s.flights[i]? with
    | some ⟨asfUid, request, committeeKey, some eligible⟩ =>
      let landed := { s with flights := s.flights.eraseIdx i }
      match landed.writeFlight ⟨asfUid, request, committeeKey, some eligible⟩ eligible now with
      | .ok s' => s'
      | .error _ => landed
    | _ => s
  | .record run allowed => s.record run allowed

def System.init (teams : Str → Finset Str) : System := ⟨.empty, .empty, 0, 0, [], teams, [], 0⟩

end Gates

end TrustedReleases
