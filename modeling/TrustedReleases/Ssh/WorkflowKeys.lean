import TrustedReleases.Lib.Except
import TrustedReleases.Lib.Run
import TrustedReleases.Lib.Str
import TrustedReleases.Lib.Table

/-!
# Workflow keys

A workflow registers an SSH key with a token of its host, of which the signature and the expiry are verified first
(`atr/storage/writers/ssh.py`).  The identifier of the token is recorded until the token expires, so that it registers
one key only, and the key is taken for twenty minutes (`atr/ssh.py`); a job forgets what has expired
(`atr/tasks/maintenance.py`).  Requests are verified and served at different times.
-/

namespace TrustedReleases

open Lib

namespace Ssh.Workflow

variable {δ : Type}

/-- `TrustedPublisherPayload`; the claims that are only kept are `claims`. -/
structure Payload (δ : Type) where
  jti : Str
  exp : Option Nat
  claims : δ

/-- `WorkflowJti` -/
structure WorkflowJti where
  jti : Str
  expires : Nat
  consumed : Nat
  deriving DecidableEq

/-- `WorkflowSSHKey`; the payload is kept without its `exp`. -/
structure WorkflowSSHKey (δ : Type) where
  fingerprint : Str
  key : Str
  projectKey : Str
  asfUid : Str
  githubUid : Str
  githubNid : Nat
  githubPayload : Str × δ
  sourceCommit : Option Str
  declareSources : Bool
  expires : Nat
  revoked : Bool

/-- A request of a workflow to register a key. -/
structure Registration (δ : Type) where
  asfUid : Str
  githubUid : Str
  githubNid : Nat
  projectKey : Str
  key : Str
  githubPayload : Payload δ
  sourceCommit : Option Str
  declareSources : Bool

/-- A key that has been registered: its row, the token and the time. -/
structure Minted (δ : Type) where
  row : WorkflowSSHKey δ
  payload : Payload δ
  time : Nat

/-- The rows and the clock, the tokens that have been verified, and the keys registered up to now, newest first. -/
structure State (δ : Type) where
  now : Nat
  jtis : Table WorkflowJti.jti
  keys : Table (WorkflowSSHKey.fingerprint (δ := δ))
  verified : List (Payload δ)
  minted : List (Minted δ)

def State.init (now : Nat) : State δ := ⟨now, .empty, .empty, [], []⟩

/-- `storage.AccessError`, the error of the fingerprint, or the error of the database. -/
inductive Error where
  | accessError (message : Str) (status : Nat)
  | sshFingerprintError
  | integrityError
  deriving DecidableEq

/-- The lifetime of a key: twenty minutes to upload all files. -/
def TTL : Nat := 20 * 60

/-- `GITHUB_TRUSTED_ROLE_NID` -/
def GITHUB_TRUSTED_ROLE_NID : Nat := 254436773

/-- What is checked of a token: its signature and the fixed claims, which are a parameter, and its expiry. -/
def isVerified (genuine : Payload δ → Bool) (now : Nat) (payload : Payload δ) : Bool :=
  genuine payload && payload.exp.any fun exp => decide (now < exp)

/-- `exp or fallback` -/
def expiryOr (exp : Option Nat) (fallback : Nat) : Nat := (exp.filter (· ≠ 0)).getD fallback

/-- `__consume_jti` -/
def consumeJti (s : State δ) (payload : Payload δ) (now fallback : Nat) : Except Error (State δ) :=
  if (s.jtis.get payload.jti).isSome then
    .error (.accessError "Trusted Publisher token has already been used".toList 409)
  else .ok { s with jtis := s.jtis.insert ⟨payload.jti, expiryOr payload.exp fallback, now⟩ }

/-- The row of a registration. -/
def Registration.row (r : Registration δ) (fingerprint : Str) (expires : Nat) : WorkflowSSHKey δ where
  fingerprint := fingerprint
  key := r.key
  projectKey := r.projectKey
  asfUid := r.asfUid
  githubUid := r.githubUid
  githubNid := r.githubNid
  githubPayload := (r.githubPayload.jti, r.githubPayload.claims)
  sourceCommit := r.sourceCommit
  declareSources := r.declareSources
  expires := expires
  revoked := false

/-- `add_workflow_key`, with the fingerprint of a key as a parameter.  An error undoes what has been written. -/
def addWorkflowKey (fingerprintOf : Str → Option Str) (s : State δ) (r : Registration δ) :
    Except Error (State δ) := do
  let now := s.now
  let expires := now + TTL
  let s ← consumeJti s r.githubPayload now (now + TTL)
  let fingerprint ← demand (fingerprintOf r.key) .sshFingerprintError
  raiseIf (s.keys.get fingerprint).isSome .integrityError
  let row := r.row fingerprint expires
  return { s with keys := s.keys.insert row, minted := ⟨row, r.githubPayload, now⟩ :: s.minted }

/-- `_workflow_auth_maintenance` -/
def workflowAuthMaintenance (s : State δ) : State δ :=
  { s with
    keys := s.keys.filter fun row => !decide (row.expires < s.now)
    jtis := s.jtis.filter fun row => !decide (row.expires < s.now) }

/-- The row is revoked if it is a key of the user. -/
def WorkflowSSHKey.revokeFor (uid : Str) (row : WorkflowSSHKey δ) : WorkflowSSHKey δ :=
  if row.asfUid = uid ∧ row.revoked = false then { row with revoked := true } else row

@[simp] theorem WorkflowSSHKey.revokeFor_fingerprint (uid : Str) (row : WorkflowSSHKey δ) :
    (row.revokeFor uid).fingerprint = row.fingerprint := by
  unfold revokeFor
  split <;> rfl

/-- `revoke_all_user_keys`, of the workflow keys. -/
def revokeAllUserKeys (s : State δ) (uid : Str) : State δ :=
  { s with keys := s.keys.mapRows (·.revokeFor uid) fun _ _ _ _ h => by simpa using h }

/-- What the server keeps of the key of a connection. -/
structure Connection (δ : Type) where
  githubAsfUid : Str
  githubPayload : Str × δ
  githubProjectKey : Str
  githubReadOnly : Bool
  githubSourceCommit : Option Str
  githubDeclareSources : Bool

def Connection.of (row : WorkflowSSHKey δ) : Connection δ where
  githubAsfUid := row.asfUid
  githubPayload := row.githubPayload
  githubProjectKey := row.projectKey
  githubReadOnly := decide (row.githubNid = GITHUB_TRUSTED_ROLE_NID)
  githubSourceCommit := row.sourceCommit
  githubDeclareSources := row.declareSources

/-- `validate_public_key` of a connection as `github`, with the accounts, the administrators and the setting. -/
def validatePublicKey (isActive isAdmin : Str → Bool) (adminOnly : Bool) (s : State δ) (fingerprint : Str) :
    Option (Connection δ) :=
  match s.keys.get fingerprint with
  | none => none
  | some row =>
    if row.revoked = true then none
    else if isActive row.asfUid = false then none
    else if adminOnly = true ∧ isAdmin row.asfUid = false then none
    else if row.expires < s.now then none
    else some (.of row)

/-- What happens: time passes, a token is verified, a request whose token has been verified registers a key, the job runs,
and an administrator revokes the keys of a user. -/
inductive Event (δ : Type) where
  | tick (now : Nat)
  | verify (payload : Payload δ)
  | addWorkflowKey (r : Registration δ)
  | workflowAuthMaintenance
  | revokeAllUserKeys (uid : Str)

/-- Time does not go back, tokens are verified as they are, and only verified ones register a key. -/
def Allowed (genuine : Payload δ → Bool) (s : State δ) : Event δ → Prop
  | .tick now => s.now ≤ now
  | .verify payload => isVerified genuine s.now payload = true
  | .addWorkflowKey r => r.githubPayload ∈ s.verified
  | .workflowAuthMaintenance => True
  | .revokeAllUserKeys _ => True

/-- What a request or a job does, or its error. -/
def step (fingerprintOf : Str → Option Str) (s : State δ) : Event δ → Except Error (State δ)
  | .tick now => .ok { s with now }
  | .verify payload => .ok { s with verified := payload :: s.verified }
  | .addWorkflowKey r => addWorkflowKey fingerprintOf s r
  | .workflowAuthMaintenance => .ok (workflowAuthMaintenance s)
  | .revokeAllUserKeys uid => .ok (revokeAllUserKeys s uid)

/-- A step of the server; a request that fails changes nothing. -/
def Step (genuine : Payload δ → Bool) (fingerprintOf : Str → Option Str) (s s' : State δ) : Prop :=
  ∃ e, Allowed genuine s e ∧ step fingerprintOf s e = .ok s'

end Ssh.Workflow

end TrustedReleases
