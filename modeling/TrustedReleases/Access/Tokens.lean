import TrustedReleases.Lib.Except
import TrustedReleases.Lib.Str
import TrustedReleases.Lib.Table

/-!
# Access tokens

Users and administrators make personal access tokens, and exchange them for bearer tokens of half an hour
(`atr/storage/writers/tokens.py`, `atr/jwtoken.py`).  A bearer token names the access token by its hash, and `verify`
looks that up again at every request.  The signatures, the directory of accounts and the networks of addresses are
parameters.
-/

namespace TrustedReleases

open Lib

namespace Access

def SYSTEM_SERVICE_UID : Str := "system".toList

/-- `_ATR_JWT_TTL` -/
def ATR_JWT_TTL : Nat := 30 * 60

def ATR_JWT_LEEWAY_SECONDS : Nat := 2 * 60

/-- `_EXPIRED_TOKEN_RETENTION_DAYS`, in seconds. -/
def EXPIRED_TOKEN_RETENTION : Nat := 30 * 24 * 60 * 60

/-- `PersonalAccessToken`, with times in seconds. -/
structure PersonalAccessToken where
  id : Nat
  asfuid : Option Str
  createdBy : Str
  tokenHash : Str
  created : Nat
  expires : Nat
  lastUsed : Option Nat
  label : Option Str
  isSystem : Bool
  allowedIp : Option Str
  deriving DecidableEq

/-- The claims of a bearer token, each missing where the payload has none. -/
structure Claims where
  sub : Option Str
  iss : Option Str
  aud : Option Str
  iat : Option Nat
  nbf : Option Nat
  exp : Option Nat
  jti : Option Str
  atrTh : Option Str
  atrSys : Bool
  deriving DecidableEq

/-- Signed tokens: the payload of a token and the keys under which its signature verifies. -/
structure Signing (τ κ : Type) where
  encode : Claims → κ → τ
  payload : τ → Claims
  verifies : τ → κ → Bool
  payload_encode : ∀ claims key, payload (encode claims key) = claims
  verifies_encode : ∀ claims key key', verifies (encode claims key) key' = true ↔ key' = key

/-- What the requests rely on: the signatures, the network test of `allows_ip`, which is none where a text is not an
address, the hash of access tokens, the administrators and the settings. -/
structure Config (τ κ : Type) where
  signing : Signing τ κ
  inNetwork : Str → Str → Option Bool
  sha3 : Str → Str
  sha3_ne_nil : ∀ text, sha3 text ≠ []
  issuer : Str
  isAdmin : Option Str → Bool
  adminOnly : Bool

namespace PersonalAccessToken

def isExpired (pat : PersonalAccessToken) (now : Nat) : Bool := decide (pat.expires < now)

def allowsIp (inNetwork : Str → Str → Option Bool) (pat : PersonalAccessToken) (clientIp : Option Str) : Bool :=
  match pat.allowedIp with
  | none => true
  | some network =>
    match clientIp with
    | none => false
    | some ip => (inNetwork ip network).getD false

end PersonalAccessToken

abbrev Pats := Table PersonalAccessToken.tokenHash

/-- The rows of access tokens, the signing key, the clock, and whether an account is active.  `hashes` and `keys` are
those that have been used up to now, and `issued` are the bearer tokens that have been issued. -/
structure State (τ κ : Type) where
  pats : Pats
  key : κ
  now : Nat
  isActive : Str → Bool
  hashes : List Str
  keys : List κ
  issued : List τ

/-- `storage.AccessError`, `ValueError` or the error of the database. -/
inductive TokenError where
  | valueError (message : Str)
  | accessError (message : Str) (status : Nat)
  | integrityError
  deriving DecidableEq

/-- What authentication raises: an error of the token library, or `ASFQuartException`. -/
inductive AuthError where
  | expiredSignature
  | invalidSignature
  | invalidToken
  | http (message : Str) (errorcode : Nat)
  deriving DecidableEq

section Operations

variable {τ κ : Type} (cfg : Config τ κ)

/-! ### Bearer tokens -/

/-- The payload of `issue`. -/
def issuePayload (now : Nat) (uid : Str) (ttl : Nat) (patHash jti : Str) (system : Bool) : Claims where
  sub := some uid
  iss := some cfg.issuer
  aud := some cfg.issuer
  iat := some now
  nbf := some now
  exp := some (now + ttl)
  jti := some jti
  atrTh := if patHash = [] then none else some patHash
  atrSys := system

/-- `_decode`, by what the token library checks with its options. -/
def decode (key : κ) (now : Nat) (token : τ) : Except AuthError Claims :=
  let claims := cfg.signing.payload token
  if ¬ cfg.signing.verifies token key then .error .invalidSignature
  else
    match claims.sub, claims.iss, claims.aud, claims.iat, claims.nbf, claims.exp, claims.jti with
    | some _, some iss, some aud, some iat, some nbf, some exp, some _ =>
      if now + ATR_JWT_LEEWAY_SECONDS < iat ∨ now + ATR_JWT_LEEWAY_SECONDS < nbf then .error .invalidToken
      else if exp + ATR_JWT_LEEWAY_SECONDS ≤ now then .error .expiredSignature
      else if iss ≠ cfg.issuer ∨ aud ≠ cfg.issuer then .error .invalidToken
      else .ok claims
    | _, _, _, _, _, _, _ => .error .invalidToken

def PAT_INVALID : AuthError := .http "Personal Access Token invalid".toList 401

/-- `_revalidate_pat` -/
def revalidatePat (s : State τ κ) (claims : Claims) (isSystem : Bool) (remoteAddr : Option Str) :
    Except AuthError Unit :=
  match claims.atrTh.filter (· ≠ []) with
  | none => if isSystem then .error PAT_INVALID else .ok ()
  | some patHash =>
    match s.pats.get patHash with
    | none => .error PAT_INVALID
    | some pat =>
      if pat.isSystem ≠ isSystem then .error PAT_INVALID
      else if isSystem = true ∧ pat.isSystem = true ∧
          (claims.sub ≠ some SYSTEM_SERVICE_UID ∨ ¬ pat.allowsIp cfg.inNetwork remoteAddr) then .error PAT_INVALID
      else if ¬ (isSystem = true ∧ pat.isSystem = true) ∧ (pat.asfuid = none ∨ pat.asfuid ≠ claims.sub) then
        .error PAT_INVALID
      else if pat.isExpired s.now then .error (.http "Personal Access Token expired".toList 401)
      else .ok ()

/-- `verify` -/
def verify (s : State τ κ) (token : τ) (remoteAddr : Option Str) : Except AuthError Claims :=
  match decode cfg s.key s.now token with
  | .error e => .error e
  | .ok claims =>
    match claims.sub with
    | none => .error .invalidToken
    | some asfUid =>
      if claims.atrSys = false ∧ s.isActive asfUid = false then .error (.http "Account is disabled".toList 401)
      else
        match revalidatePat cfg s claims claims.atrSys remoteAddr with
        | .error e => .error e
        | .ok () => .ok claims

/-- The schemes of requests with a bearer token. -/
inductive Auth where
  | bearer
  | systemBearer
  deriving DecidableEq

/-- The answer to an error of `verify`. -/
def AuthError.answer : AuthError → AuthError
  | expiredSignature => .http "Token has expired".toList 401
  | invalidSignature => .http "Token signature verification failed".toList 401
  | invalidToken => .http "Invalid Bearer JWT format".toList 401
  | http message errorcode => .http message errorcode

/-- `authenticate`, of the token in the header, which is none where there is no bearer token. -/
def authenticate (s : State τ κ) (token : Option τ) (remoteAddr : Option Str) : Except AuthError Claims :=
  match token with
  | none =>
    .error (.http
      "Authentication required. Please provide a valid Bearer token in the Authorization header".toList 401)
  | some token =>
    match verify cfg s token remoteAddr with
    | .error e => .error e.answer
    | .ok claims =>
      if cfg.adminOnly = true ∧ claims.atrSys = false ∧ cfg.isAdmin claims.sub = false then
        .error (.http "ATR is currently available to administrators only".toList 403)
      else .ok claims

/-- `authenticate_header` -/
def authenticateHeader (s : State τ κ) (scheme : Auth) (token : Option τ) (remoteAddr : Option Str) :
    Except AuthError Claims :=
  match authenticate cfg s token remoteAddr with
  | .error e => .error e
  | .ok claims =>
    if scheme = .systemBearer ∧ claims.atrSys = false then .error (.http "System privileges required".toList 403)
    else .ok claims

/-! ### Access tokens -/

/-- The row id that the database gives. -/
def nextId (pats : Pats) : Nat := (pats.rows.map PersonalAccessToken.id).foldr max 0 + 1

/-- An insertion, which fails where the hash is there. -/
def insertPat (s : State τ κ) (pat : PersonalAccessToken) : Except TokenError (State τ κ) :=
  if (s.pats.get pat.tokenHash).isSome then .error .integrityError
  else .ok { s with pats := s.pats.insert pat, hashes := pat.tokenHash :: s.hashes }

/-- The rows that are not deleted. -/
def deletePats (s : State τ κ) (doomed : PersonalAccessToken → Bool) : State τ κ :=
  { s with pats := s.pats.filter fun pat => !doomed pat }

/-- `add_token` of a user. -/
def addToken (s : State τ κ) (uid tokenHash : Str) (created expires : Nat) (label : Option Str) :
    Except TokenError (State τ κ) :=
  if label = none ∨ label = some [] then .error (.valueError "Label is required".toList)
  else
    insertPat s { id := nextId s.pats, asfuid := some uid, createdBy := uid, tokenHash, created, expires,
                  lastUsed := none, label, isSystem := false, allowedIp := none }

/-- `add_system_token` of an administrator. -/
def addSystemToken (s : State τ κ) (admin tokenHash : Str) (created expires : Nat) (label : Str)
    (allowedIp : Option Str) : Except TokenError (State τ κ) :=
  if label = [] then .error (.valueError "Label is required".toList)
  else
    insertPat s { id := nextId s.pats, asfuid := none, createdBy := admin, tokenHash, created, expires,
                  lastUsed := none, label := some label, isSystem := true, allowedIp }

/-- The row of `delete_token` of a user. -/
def isOwn (uid : Str) (tokenId : Nat) (pat : PersonalAccessToken) : Bool :=
  pat.id = tokenId && pat.asfuid = some uid && !pat.isSystem

def AUTHENTICATION_FAILED : TokenError := .accessError "Authentication failed".toList 401

/-- A bearer token is issued, and the time at which the access token is used noted. -/
def issueFor (s : State τ κ) (pat : PersonalAccessToken) (uid jti : Str) (system : Bool) : State τ κ :=
  { s with
    pats := s.pats.replace { pat with lastUsed := some s.now }
    issued := cfg.signing.encode (issuePayload cfg s.now uid ATR_JWT_TTL pat.tokenHash jti system) s.key :: s.issued }

/-- `issue_jwt` of a user. -/
def issueJwt (s : State τ κ) (uid patText : Str) (clientIp : Option Str) (jti : Str) :
    Except TokenError (State τ κ) :=
  match s.pats.get (cfg.sha3 patText) with
  | none => .error AUTHENTICATION_FAILED
  | some pat =>
    if pat.asfuid ≠ some uid ∨ pat.isSystem = true ∨ pat.isExpired s.now = true ∨
        pat.allowsIp cfg.inNetwork clientIp = false then .error AUTHENTICATION_FAILED
    else if s.isActive uid = false then .error AUTHENTICATION_FAILED
    else .ok (issueFor cfg s pat uid jti false)

/-- `issue_system_jwt` -/
def issueSystemJwt (s : State τ κ) (patText : Str) (clientIp : Option Str) (jti : Str) :
    Except TokenError (State τ κ) :=
  match s.pats.get (cfg.sha3 patText) with
  | none => .error AUTHENTICATION_FAILED
  | some pat =>
    if pat.isSystem = false ∨ pat.isExpired s.now = true ∨ pat.allowsIp cfg.inNetwork clientIp = false then
      .error AUTHENTICATION_FAILED
    else .ok (issueFor cfg s pat SYSTEM_SERVICE_UID jti true)

/-- The rows of `revoke_all_user_tokens` and of `_revoke_all_credentials`. -/
def ownedOrCreatedBy (uid : Str) (pat : PersonalAccessToken) : Bool := pat.asfuid = some uid || pat.createdBy = uid

/-- The row of `revoke_system_token`. -/
def isSystemRow (tokenId : Nat) (pat : PersonalAccessToken) : Bool := pat.id = tokenId && pat.isSystem

/-- The rows of `_expired_pats_maintenance`. -/
def isLongExpired (now : Nat) (pat : PersonalAccessToken) : Bool := pat.expires + EXPIRED_TOKEN_RETENTION < now

/-- What happens: time passes, accounts change, and the requests and jobs that write. -/
inductive Event (κ : Type) where
  | tick (now : Nat)
  | accounts (isActive : Str → Bool)
  | addToken (uid tokenHash : Str) (created expires : Nat) (label : Option Str)
  | addSystemToken (admin tokenHash : Str) (created expires : Nat) (label : Str) (allowedIp : Option Str)
  | deleteToken (uid : Str) (tokenId : Nat)
  | issueJwt (uid patText : Str) (clientIp : Option Str) (jti : Str)
  | issueSystemJwt (patText : Str) (clientIp : Option Str) (jti : Str)
  | revokeAllUserTokens (uid : Str)
  | revokeAllUsersTokens
  | revokeSystemToken (tokenId : Nat)
  | revokeAllCredentials (uid : Str)
  | expiredPatsMaintenance
  | rotateJwtSigningKey (key : κ)

/-- The rows that an event deletes. -/
def Event.doomed (now : Nat) : Event κ → PersonalAccessToken → Bool
  | .deleteToken uid tokenId => isOwn uid tokenId
  | .revokeAllUserTokens uid => ownedOrCreatedBy uid
  | .revokeAllUsersTokens => fun pat => !pat.isSystem
  | .revokeSystemToken tokenId => isSystemRow tokenId
  | .revokeAllCredentials uid => ownedOrCreatedBy uid
  | .expiredPatsMaintenance => isLongExpired now
  | _ => fun _ => false

def step (s : State τ κ) : Event κ → Except TokenError (State τ κ)
  | .tick now => .ok { s with now }
  | .accounts isActive => .ok { s with isActive }
  | .addToken uid tokenHash created expires label => addToken s uid tokenHash created expires label
  | .addSystemToken admin tokenHash created expires label allowedIp =>
    addSystemToken s admin tokenHash created expires label allowedIp
  | .issueJwt uid patText clientIp jti => issueJwt cfg s uid patText clientIp jti
  | .issueSystemJwt patText clientIp jti => issueSystemJwt cfg s patText clientIp jti
  | .rotateJwtSigningKey key => .ok { s with key, keys := key :: s.keys }
  | e => .ok (deletePats s (e.doomed s.now))

/-- Time does not go back, and the secrets that are made are new. -/
def Event.Fresh (s : State τ κ) : Event κ → Prop
  | .tick now => s.now ≤ now
  | .addToken _ tokenHash _ _ _ => tokenHash ∉ s.hashes
  | .addSystemToken _ tokenHash _ _ _ _ => tokenHash ∉ s.hashes
  | .rotateJwtSigningKey key => key ∉ s.keys
  | _ => True

/-- A request that succeeds. -/
def Step (s s' : State τ κ) : Prop := ∃ e : Event κ, e.Fresh s ∧ step cfg s e = .ok s'

end Operations

/-- No tokens yet. -/
def State.init {τ κ : Type} (key : κ) (now : Nat) (isActive : Str → Bool) : State τ κ :=
  ⟨.empty, key, now, isActive, [], [key], []⟩

end Access

end TrustedReleases
