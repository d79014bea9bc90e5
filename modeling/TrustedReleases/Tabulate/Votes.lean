import TrustedReleases.Lib.Except
import TrustedReleases.Lib.OrdDict
import TrustedReleases.Lib.Text

/-!
# Tabulating the votes of a thread

The votes that were cast by email, read from the messages of a thread in their order.  `str.lower`, the lookup of email
addresses and the committees are parameters.
-/

namespace TrustedReleases

open Lib

namespace Tabulate

def MAX_THREAD_MESSAGES : Nat := 10000

inductive Vote where
  | yes
  | no
  | abstain
  | unknown
  deriving DecidableEq

inductive VoteStatus where
  | binding
  | committer
  | contributor
  | unknown
  deriving DecidableEq

structure VoteEmail where
  name : Str
  asfUidOrEmail : Str
  fromEmail : Str
  status : VoteStatus
  asfEid : Str
  isoDatetime : Str
  vote : Vote
  quotation : Str
  updated : Bool
  deriving DecidableEq

structure Committee where
  committeeMembers : List Str
  committers : List Str

/-- A message of a thread, as it is read from its source. -/
structure Message where
  fromRaw : Str
  listRaw : Str
  cc : Str
  epoch : Int
  subject : Str
  body : Str
  messageId : Str
  mid : Str
  date : Str
  receivedSpf : List Str
  deriving DecidableEq

/-- What the tabulation looks up elsewhere. -/
structure Lookups where
  lower : Str → Str
  emailToUid : Str → Option Str
  isDevEnvironment : Bool
  committeeByKey : Str → Option Committee

/-! ### Identity -/

/-- The first part between angle brackets that is not empty, as `<([^>]+)>` finds it. -/
def bracketed : Str → Option Str
  | [] => none
  | c :: s =>
    if c = '<' ∧ s.takeWhile (· ≠ '>') ≠ [] ∧ '>' ∈ s then some (s.takeWhile (· ≠ '>')) else bracketed s

/-- `^([^@ ]+)@apache.org$`, where the dot is any character and a line feed may follow. -/
def isBareApacheAddress (s : Str) : Bool :=
  let user := s.takeWhile fun c => c ≠ '@' && c ≠ ' '
  let rest := s.drop user.length
  decide (user ≠ [] ∧ rest.take 7 = "@apache".toList ∧ (rest.drop 7).head?.any (· ≠ '\n') = true ∧
    (rest.drop 8 = "org".toList ∨ rest.drop 8 = "org\n".toList))

/-- `util.email_from_uid` -/
def emailFromUid (lower : Str → Str) (uid : Str) : Option Str :=
  match bracketed uid with
  | some address => some (lower address)
  | none => if isBareApacheAddress uid then some uid else none

/-- `_name_from_raw` -/
def nameFromRaw (fromRaw : Str) : Str :=
  let before := fromRaw.takeWhile (· ≠ '<')
  if '<' ∉ fromRaw ∨ before = [] then []
  else
    let name := stripBy (· == '"') (strip before)
    strip (match cut " via ".toList name with
      | some (name, _) => name
      | none => name)

/-- The value after `envelope-from=`: quoted, in angle brackets, or up to a semicolon or white space. -/
def envelopeValue (s : Str) : Option Str :=
  let quoted (last : Char) (s : Str) : Option Str :=
    if last ∈ s then some (s.takeWhile (· ≠ last) ++ [last]) else none
  let bare := s.takeWhile fun c => c ≠ ';' && !isSpace c
  match s with
  | '"' :: rest => match quoted '"' rest with
    | some value => some ('"' :: value)
    | none => some bare
  | '<' :: rest => match quoted '>' rest with
    | some value => some ('<' :: value)
    | none => some bare
  | _ => if bare = [] then none else some bare

/-- The match of `SPF_ENVELOPE_FROM_RE` after its first group. -/
def envelopeFromHere (s : Str) : Option Str :=
  if (s.take 13).map Char.toLower = "envelope-from".toList then
    match (s.drop 13).dropWhile isSpace with
    | '=' :: rest => envelopeValue (rest.dropWhile isSpace)
    | _ => none
  else none

/-- The first match of `SPF_ENVELOPE_FROM_RE` that starts with a semicolon or white space. -/
def envelopeFromLater : Str → Option Str
  | [] => none
  | c :: s => if c = ';' ∨ isSpace c = true then (envelopeFromHere s).or (envelopeFromLater s) else envelopeFromLater s

def envelopeFrom (s : Str) : Option Str := (envelopeFromHere s).or (envelopeFromLater s)

/-- The string without a character at each of its ends. -/
def unquote (first last : Char) (s : Str) : Str :=
  if 2 ≤ s.length ∧ s.head? = some first ∧ s.getLast? = some last then (s.drop 1).dropLast else s

/-- The address of one `Received-SPF` value, if it is one. -/
def spfCandidate (lower : Str → Str) (value : Str) : Option Str :=
  (envelopeFrom value).bind fun matched =>
    let candidate := unquote '<' '>' (unquote '"' '"' (strip matched))
    let candidate := lower (strip (candidate.reverse.dropWhile (· == ';')).reverse)
    if candidate = [] ∨ candidate = "<>".toList ∨ '@' ∉ candidate ∨ candidate.any isSpace = true then none
    else some candidate

/-- `_received_spf_envelope_from` -/
def receivedSpfEnvelopeFrom (lower : Str → Str) (receivedSpf : List Str) : Option Str :=
  receivedSpf.findSome? (spfCandidate lower)

/-- Who sent a message: the name, the address, and the ASF account if the address is known to be of one. -/
structure Identity where
  name : Str
  email : Str
  asfUid : Option Str
  deriving DecidableEq

/-- `_vote_identity` -/
def voteIdentity (env : Lookups) (fromRaw listEmail : Str) (cc : List Str) (receivedSpf : List Str) : Option Identity :=
  match emailFromUid env.lower fromRaw with
  | none => none
  | some [] => none
  | some address =>
    let name := nameFromRaw fromRaw
    let address := removeSuffix ".invalid".toList address
    if "@apache.org".toList <:+ address then some ⟨name, address, some (address.takeWhile (· ≠ '@'))⟩
    else
      let throughList := contains "via".toList fromRaw &&
        contains (address.map fun c => if c = '@' then '.' else c) listEmail
      let address :=
        if throughList then
          match receivedSpfEnvelopeFrom env.lower receivedSpf with
          | some envelopeFrom => envelopeFrom
          | none => ((cc.getLast?.bind (emailFromUid env.lower)).filter (· ≠ [])).getD address
        else address
      some ⟨name, address, env.emailToUid address⟩

/-- The committee that a list is of. -/
def committeeLabel (listRaw : Str) : Str :=
  let host := match cut ".apache.org".toList listRaw with
    | some (host, _) => host
    | none => listRaw
  match cut ['.'] host with
  | some (_, label) => label
  | none => host

/-- `_vote_status` -/
def voteStatus (env : Lookups) (committee : Option Committee) (asfUid listRaw : Str) : VoteStatus :=
  let committee := if env.isDevEnvironment then env.committeeByKey (committeeLabel listRaw) else committee
  match committee with
  | none => .unknown
  | some committee =>
    if asfUid ∈ committee.committeeMembers then .binding
    else if asfUid ∈ committee.committers then .committer
    else .contributor

/-! ### Castings -/

/-- `_vote_continue` -/
def voteContinue (line : Str) : Bool :=
  ["[ ] +1", "[ ] +0", "[ ] -0", "[ ] -1", "+1 votes", "-1 votes"].any (fun part => contains part.toList line) ||
    decide (['>'] <+: line)

/-- `_vote_break` -/
def voteBreak (line : Str) : Bool :=
  decide (line = "-- ".toList) || decide ("On ".toList <+: line ∧ (line.drop 6).take 2 = ", ".toList) ||
    decide ("From: ".toList <+: line) || decide ("________".toList <+: line)

/-- The vote that one line casts, if it casts one without contradiction. -/
def lineCasting (line : Str) : Option Vote :=
  let plusOne := decide ("+1".toList <+: line) || contains " +1".toList line
  let minusOne := decide ("-1".toList <+: line) || contains " -1".toList line
  let zero := decide (line ∈ ["0".toList, "-0".toList, "+0".toList]) || decide ("0 ".toList <+: line) ||
    decide ("+0 ".toList <+: line) || decide ("-0 ".toList <+: line)
  if (plusOne && minusOne) || (plusOne && zero) || (minusOne && zero) then none
  else if plusOne then some .yes
  else if minusOne then some .no
  else if zero then some .abstain
  else none

def castingsOfLines : List Str → List (Vote × Str)
  | [] => []
  | line :: lines =>
    if voteContinue line then castingsOfLines lines
    else if voteBreak line then []
    else ((lineCasting line).map fun vote => (vote, line)).toList ++ castingsOfLines lines

/-- `_vote_castings` -/
def voteCastings (body : Str) : List (Vote × Str) := castingsOfLines (body.splitOn '\n')

/-! ### The tabulation -/

/-- `_message_id_normalize` -/
def messageIdNormalize (messageId : Str) : Str := removeSuffix ['>'] (removePrefix ['<'] (strip messageId))

/-- What one tabulation is given: the committee of the vote and the messages to leave out. -/
structure Request where
  committee : Option Committee
  excludedMessageIds : List Str

def Request.excludes (request : Request) (m : Message) : Prop :=
  messageIdNormalize m.messageId ∈ (request.excludedMessageIds.filter (· ≠ [])).map messageIdNormalize

instance excludesDecidable (request : Request) (m : Message) : Decidable (request.excludes m) :=
  inferInstanceAs (Decidable (_ ∈ _))

/-- The votes so far, under the ASF account or else the address of their senders, and the time of the first message. -/
structure Tabulated where
  startUnixtime : Option Int
  votes : OrdDict Str VoteEmail

def Message.identity (env : Lookups) (m : Message) : Option Identity :=
  voteIdentity env m.fromRaw m.listRaw (splitStr ",\n".toList m.cc) m.receivedSpf

/-- `asf_uid_or_email` -/
def Identity.key (i : Identity) : Str := i.asfUid.getD i.email

def Identity.status (env : Lookups) (request : Request) (i : Identity) (m : Message) : VoteStatus :=
  match i.asfUid with
  | some asfUid => voteStatus env request.committee asfUid m.listRaw
  | none => .contributor

/-- The start is the time of the first message that has one. -/
def Tabulated.started (s : Tabulated) (m : Message) : Tabulated :=
  if s.startUnixtime = none ∧ m.epoch ≠ 0 then { s with startUnixtime := some m.epoch } else s

/-- The vote that a message casts with these castings, `updated` if there is one under its key already. -/
def castVote (env : Lookups) (request : Request) (m : Message) (i : Identity) (castings : List (Vote × Str))
    (updated : Bool) : VoteEmail where
  name := i.name
  asfUidOrEmail := i.key
  fromEmail := i.email
  status := i.status env request m
  asfEid := m.mid
  isoDatetime := m.date
  vote :=
    match castings with
    | [casting] => casting.1
    | _ => .unknown
  quotation := " // ".toList.intercalate (castings.map Prod.snd)
  updated := updated

/-- The vote of a message is recorded, if it casts one. -/
def Tabulated.record (env : Lookups) (request : Request) (s : Tabulated) (m : Message) (i : Identity) : Tabulated :=
  if m.body = [] ∨ voteCastings m.body = [] then s
  else
    let vote := castVote env request m i (voteCastings m.body) (decide (i.key ∈ s.votes.keys))
    { s with votes := s.votes.set i.key vote }

/-- The loop of `votes`, after a number of messages.  A message with `[RESULT]` in its subject ends it. -/
def votesFrom (env : Lookups) (request : Request) : Nat → Tabulated → List Message → Except String Tabulated
  | _, s, [] => .ok s
  | messageCount, s, m :: ms =>
    if MAX_THREAD_MESSAGES < messageCount + 1 then
      .error s!"Thread exceeds maximum of {MAX_THREAD_MESSAGES} messages"
    else if request.excludes m then votesFrom env request (messageCount + 1) s ms
    else
      match m.identity env with
      | none => votesFrom env request (messageCount + 1) s ms
      | some i =>
        if contains "[RESULT]".toList m.subject then .ok (s.started m)
        else votesFrom env request (messageCount + 1) ((s.started m).record env request m i) ms

/-- `votes` -/
def votes (env : Lookups) (request : Request) (thread : List Message) : Except String Tabulated :=
  votesFrom env request 0 ⟨none, .empty⟩ thread

/-! ### Summaries -/

/-- The counts for one kind of voters. -/
structure Counts where
  votes : Nat
  yes : Nat
  no : Nat
  abstain : Nat
  deriving DecidableEq

def Counts.add (c : Counts) (vote : Vote) : Counts where
  votes := c.votes + 1
  yes := c.yes + if vote = .yes then 1 else 0
  no := c.no + if vote = .no then 1 else 0
  abstain := c.abstain + if vote = .abstain then 1 else 0

structure VoteSummary where
  binding : Counts
  nonBinding : Counts
  unknown : Counts

def VoteSummary.add (s : VoteSummary) (v : VoteEmail) : VoteSummary :=
  match v.status with
  | .binding => { s with binding := s.binding.add v.vote }
  | .committer | .contributor => { s with nonBinding := s.nonBinding.add v.vote }
  | .unknown => { s with unknown := s.unknown.add v.vote }

/-- `vote_summary` -/
def voteSummary (votes : OrdDict Str VoteEmail) : VoteSummary :=
  votes.values.foldl VoteSummary.add ⟨⟨0, 0, 0, 0⟩, ⟨0, 0, 0, 0⟩, ⟨0, 0, 0, 0⟩⟩

/-- `binding_vote_passes` -/
def bindingVotePasses (plusOne minusOne : Nat) : Bool := decide (3 ≤ plusOne ∧ minusOne < plusOne)

/-- Whether the vote passes, as `vote_outcome` has it. -/
def voteOutcome (votes : OrdDict Str VoteEmail) : Bool :=
  let binding := votes.values.filter fun v => decide (v.status = .binding)
  bindingVotePasses (binding.countP fun v => decide (v.vote = .yes)) (binding.countP fun v => decide (v.vote = .no))

end Tabulate

end TrustedReleases
