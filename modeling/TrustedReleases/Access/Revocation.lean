import TrustedReleases.Access.Tokens
import TrustedReleases.Lib.Gone

/-!
# Revocation

Whatever a bearer token gives access to, the access token of which it was issued is there at that moment and has not
expired (`authenticateHeader_live`).  Deleting the access token, in whichever way, or changing the signing key ends all
bearer tokens issued of it for good (`revoked_refused`).
-/

namespace TrustedReleases

open Lib

namespace Access

variable {τ κ : Type} {cfg : Config τ κ} {s s' : State τ κ}

/-! ### What is accepted -/

/-- What `_decode` has checked. -/
structure Decoded (cfg : Config τ κ) (s : State τ κ) (token : τ) (claims : Claims) : Prop where
  payload : claims = cfg.signing.payload token
  verifies : cfg.signing.verifies token s.key = true
  inTime : ∃ exp, claims.exp = some exp ∧ s.now < exp + ATR_JWT_LEEWAY_SECONDS

private theorem decode_eq_ok {token : τ} {claims : Claims} (h : decode cfg s.key s.now token = .ok claims) :
    Decoded cfg s token claims := by
  unfold decode at h
  dsimp only at h
  split at h
  · exact absurd h (by simp)
  next hverifies =>
    rw [not_not] at hverifies
    split at h
    next exp _ _ _ _ _ _ hexp _ =>
      split_ifs at h with himmature hexpired hparty
      obtain rfl := Except.ok.inj h
      exact ⟨rfl, hverifies, exp, hexp, Nat.lt_of_not_le hexpired⟩
    · exact absurd h (by simp)

/-- What `_revalidate_pat` has checked of the access token. -/
structure Revalidated (cfg : Config τ κ) (s : State τ κ) (claims : Claims) (remoteAddr : Option Str)
    (pat : PersonalAccessToken) : Prop where
  mem : pat ∈ s.pats.rows
  hash : claims.atrTh = some pat.tokenHash
  kind : pat.isSystem = claims.atrSys
  unexpired : s.now ≤ pat.expires
  subject : if claims.atrSys then claims.sub = some SYSTEM_SERVICE_UID ∧ pat.allowsIp cfg.inNetwork remoteAddr = true
    else pat.asfuid.isSome ∧ pat.asfuid = claims.sub

private theorem revalidatePat_eq_ok {claims : Claims} {remoteAddr : Option Str} {patHash : Str} (hne : patHash ≠ [])
    (hhash : claims.atrTh = some patHash) (h : revalidatePat cfg s claims claims.atrSys remoteAddr = .ok ()) :
    ∃ pat, Revalidated cfg s claims remoteAddr pat := by
  unfold revalidatePat at h
  have hfilter : claims.atrTh.filter (· ≠ []) = some patHash := by
    rw [hhash]
    simp [hne]
  rw [hfilter] at h
  dsimp only at h
  split at h
  · exact absurd h (by simp [PAT_INVALID])
  next pat hget =>
    obtain ⟨hmem, rfl⟩ := Table.get_eq_some.1 hget
    split_ifs at h with hkind hsystem huser hexpired
    rw [ne_eq, not_not] at hkind
    refine ⟨pat, hmem, hhash, hkind, ?_, ?_⟩
    · simpa [PersonalAccessToken.isExpired] using hexpired
    · cases hsys : claims.atrSys with
      | true =>
        rw [hsys] at hkind
        simp only [hsys, hkind, true_and, not_or, not_not, ne_eq] at hsystem
        exact hsystem
      | false =>
        rw [hsys] at huser
        simp only [Bool.false_eq_true, false_and, not_false_eq_true, true_and, not_or, ne_eq, not_not] at huser
        exact ⟨Option.isSome_iff_ne_none.2 huser.1, huser.2⟩

/-- What `verify` has checked of a token that names an access token. -/
private theorem verify_eq_ok {token : τ} {remoteAddr : Option Str} {claims : Claims} {patHash : Str}
    (hne : patHash ≠ [])
    (hhash : (cfg.signing.payload token).atrTh = some patHash) (h : verify cfg s token remoteAddr = .ok claims) :
    Decoded cfg s token claims ∧ (∃ uid, claims.sub = some uid ∧ (claims.atrSys = true ∨ s.isActive uid = true)) ∧
      ∃ pat, Revalidated cfg s claims remoteAddr pat := by
  unfold verify at h
  split at h
  · exact absurd h (by simp)
  next decoded hdecode =>
    have hdecoded := decode_eq_ok hdecode
    split at h
    · exact absurd h (by simp)
    next uid hsub =>
      split_ifs at h with hinactive
      split at h
      · exact absurd h (by simp)
      next hpat =>
        obtain rfl := Except.ok.inj h
        refine ⟨hdecoded, ⟨uid, hsub, ?_⟩, revalidatePat_eq_ok hne (hdecoded.payload ▸ hhash) hpat⟩
        cases hsys : decoded.atrSys with
        | true => exact .inl rfl
        | false =>
          rw [hsys] at hinactive
          exact .inr (by simpa using hinactive)

private theorem authenticateHeader_eq_ok {scheme : Auth} {token : τ} {remoteAddr : Option Str} {claims : Claims}
    (h : authenticateHeader cfg s scheme (some token) remoteAddr = .ok claims) :
    verify cfg s token remoteAddr = .ok claims ∧ (scheme = .systemBearer → claims.atrSys = true) := by
  unfold authenticateHeader authenticate at h
  dsimp only at h
  split at h
  · exact absurd h (by simp)
  next accepted haccepted =>
    split at haccepted
    · exact absurd haccepted (by simp)
    next verified hverified =>
      split_ifs at haccepted
      obtain rfl := Except.ok.inj haccepted
      split_ifs at h with hscheme
      obtain rfl := Except.ok.inj h
      refine ⟨hverified, fun heq => ?_⟩
      simpa [heq] using hscheme

/-! ### The invariant -/

/-- A bearer token that has been issued: of an access token with a hash, under a key, at a time. -/
structure IssuedAs (cfg : Config τ κ) (token : τ) (patHash : Str) (key : κ) (iat : Nat) : Prop where
  signed : ∃ uid jti system, token = cfg.signing.encode (issuePayload cfg iat uid ATR_JWT_TTL patHash jti system) key
  hash_ne_nil : patHash ≠ []

structure Inv (cfg : Config τ κ) (s : State τ κ) : Prop where
  hashes : ∀ pat ∈ s.pats.rows, pat.tokenHash ∈ s.hashes
  key : s.key ∈ s.keys
  owner : ∀ pat ∈ s.pats.rows, pat.isSystem = true ↔ pat.asfuid = none
  issued : ∀ token ∈ s.issued, ∃ patHash ∈ s.hashes, ∃ key ∈ s.keys, ∃ iat ≤ s.now, IssuedAs cfg token patHash key iat

theorem Inv.init (key : κ) (now : Nat) (isActive : Str → Bool) : Inv cfg (State.init key now isActive) where
  hashes := fun pat hpat => by cases hpat
  key := List.mem_singleton_self key
  owner := fun pat hpat => by cases hpat
  issued := fun token htoken => by cases htoken

private theorem insertPat_eq_ok {pat : PersonalAccessToken} (h : insertPat s pat = .ok s') :
    s' = { s with pats := s.pats.insert pat, hashes := pat.tokenHash :: s.hashes } := by
  unfold insertPat at h
  split_ifs at h
  exact (Except.ok.inj h).symm

theorem Inv.insert (h : Inv cfg s) {pat : PersonalAccessToken} (howner : pat.isSystem = true ↔ pat.asfuid = none) :
    Inv cfg { s with pats := s.pats.insert pat, hashes := pat.tokenHash :: s.hashes } where
  hashes := by
    intro row hrow
    rcases Table.mem_insert hrow with hrow | rfl
    · exact List.mem_cons_of_mem _ (h.hashes row hrow)
    · exact List.mem_cons_self
  key := h.key
  owner := by
    intro row hrow
    rcases Table.mem_insert hrow with hrow | rfl
    · exact h.owner row hrow
    · exact howner
  issued := by
    intro token htoken
    obtain ⟨patHash, hhash, hrest⟩ := h.issued token htoken
    exact ⟨patHash, List.mem_cons_of_mem _ hhash, hrest⟩

theorem Inv.delete (h : Inv cfg s) (doomed : PersonalAccessToken → Bool) : Inv cfg (deletePats s doomed) where
  hashes := fun pat hpat => h.hashes pat (List.mem_filter.1 hpat).1
  key := h.key
  owner := fun pat hpat => h.owner pat (List.mem_filter.1 hpat).1
  issued := h.issued

theorem Inv.issue (h : Inv cfg s) {pat : PersonalAccessToken} (hpat : pat ∈ s.pats.rows) (hne : pat.tokenHash ≠ [])
    (uid jti : Str) (system : Bool) : Inv cfg (issueFor cfg s pat uid jti system) where
  hashes := by
    intro row hrow
    rcases Table.mem_replace hrow with rfl | ⟨hrow, -⟩
    · exact h.hashes pat hpat
    · exact h.hashes row hrow
  key := h.key
  owner := by
    intro row hrow
    rcases Table.mem_replace hrow with rfl | ⟨hrow, -⟩
    · exact h.owner pat hpat
    · exact h.owner row hrow
  issued := by
    intro token htoken
    rcases List.mem_cons.1 htoken with rfl | htoken
    · exact ⟨_, h.hashes pat hpat, s.key, h.key, s.now, le_rfl, ⟨uid, jti, system, rfl⟩, hne⟩
    · exact h.issued token htoken

/-- What a successful exchange of an access token does. -/
private theorem issueJwt_eq_ok {uid patText jti : Str} {clientIp : Option Str}
    (h : issueJwt cfg s uid patText clientIp jti = .ok s') :
    ∃ pat ∈ s.pats.rows, pat.tokenHash ≠ [] ∧ s' = issueFor cfg s pat uid jti false := by
  unfold issueJwt at h
  split at h
  · exact absurd h (by simp)
  next pat hget =>
    obtain ⟨hmem, hhash⟩ := Table.get_eq_some.1 hget
    split_ifs at h
    exact ⟨pat, hmem, hhash ▸ cfg.sha3_ne_nil patText, (Except.ok.inj h).symm⟩

private theorem issueSystemJwt_eq_ok {patText jti : Str} {clientIp : Option Str}
    (h : issueSystemJwt cfg s patText clientIp jti = .ok s') :
    ∃ pat ∈ s.pats.rows, pat.tokenHash ≠ [] ∧ s' = issueFor cfg s pat SYSTEM_SERVICE_UID jti true := by
  unfold issueSystemJwt at h
  split at h
  · exact absurd h (by simp)
  next pat hget =>
    obtain ⟨hmem, hhash⟩ := Table.get_eq_some.1 hget
    split_ifs at h
    exact ⟨pat, hmem, hhash ▸ cfg.sha3_ne_nil patText, (Except.ok.inj h).symm⟩

private theorem addToken_eq_ok {uid tokenHash : Str} {created expires : Nat} {label : Option Str}
    (h : addToken s uid tokenHash created expires label = .ok s') :
    ∃ pat, pat.tokenHash = tokenHash ∧ (pat.isSystem = true ↔ pat.asfuid = none) ∧
      s' = { s with pats := s.pats.insert pat, hashes := pat.tokenHash :: s.hashes } := by
  unfold addToken at h
  split_ifs at h
  exact ⟨_, rfl, by simp, insertPat_eq_ok h⟩

private theorem addSystemToken_eq_ok {admin tokenHash label : Str} {created expires : Nat} {allowedIp : Option Str}
    (h : addSystemToken s admin tokenHash created expires label allowedIp = .ok s') :
    ∃ pat, pat.tokenHash = tokenHash ∧ (pat.isSystem = true ↔ pat.asfuid = none) ∧
      s' = { s with pats := s.pats.insert pat, hashes := pat.tokenHash :: s.hashes } := by
  unfold addSystemToken at h
  split_ifs at h
  exact ⟨_, rfl, by simp, insertPat_eq_ok h⟩

/-- All that a step can do. -/
inductive Effect (cfg : Config τ κ) (s : State τ κ) : State τ κ → Prop where
  | tick (now : Nat) (hnow : s.now ≤ now) : Effect cfg s { s with now }
  | accounts (isActive : Str → Bool) : Effect cfg s { s with isActive }
  | insert (pat : PersonalAccessToken) (howner : pat.isSystem = true ↔ pat.asfuid = none)
      (hfresh : pat.tokenHash ∉ s.hashes) :
      Effect cfg s { s with pats := s.pats.insert pat, hashes := pat.tokenHash :: s.hashes }
  | issue (pat : PersonalAccessToken) (hpat : pat ∈ s.pats.rows) (hne : pat.tokenHash ≠ []) (uid jti : Str)
      (system : Bool) : Effect cfg s (issueFor cfg s pat uid jti system)
  | delete (doomed : PersonalAccessToken → Bool) : Effect cfg s (deletePats s doomed)
  | rotate (key : κ) (hfresh : key ∉ s.keys) : Effect cfg s { s with key, keys := key :: s.keys }

theorem Step.effect (h : Step cfg s s') : Effect cfg s s' := by
  obtain ⟨e, hfresh, hstep⟩ := h
  cases e with
  | tick now =>
    obtain rfl := Except.ok.inj hstep
    exact .tick now hfresh
  | accounts isActive =>
    obtain rfl := Except.ok.inj hstep
    exact .accounts isActive
  | addToken uid tokenHash created expires label =>
    obtain ⟨pat, rfl, howner, rfl⟩ := addToken_eq_ok hstep
    exact .insert pat howner hfresh
  | addSystemToken admin tokenHash created expires label allowedIp =>
    obtain ⟨pat, rfl, howner, rfl⟩ := addSystemToken_eq_ok hstep
    exact .insert pat howner hfresh
  | issueJwt uid patText clientIp jti =>
    obtain ⟨pat, hpat, hne, rfl⟩ := issueJwt_eq_ok hstep
    exact .issue pat hpat hne uid jti false
  | issueSystemJwt patText clientIp jti =>
    obtain ⟨pat, hpat, hne, rfl⟩ := issueSystemJwt_eq_ok hstep
    exact .issue pat hpat hne _ jti true
  | rotateJwtSigningKey key =>
    obtain rfl := Except.ok.inj hstep
    exact .rotate key hfresh
  | _ =>
    obtain rfl := Except.ok.inj hstep
    exact .delete _

private theorem Effect.inv (h : Inv cfg s) (heffect : Effect cfg s s') : Inv cfg s' := by
  cases heffect with
  | tick now hnow =>
    refine ⟨h.hashes, h.key, h.owner, fun token htoken => ?_⟩
    obtain ⟨patHash, hhash, key, hkey, iat, hiat, hissued⟩ := h.issued token htoken
    exact ⟨patHash, hhash, key, hkey, iat, hiat.trans hnow, hissued⟩
  | accounts isActive => exact ⟨h.hashes, h.key, h.owner, h.issued⟩
  | insert pat howner _ => exact h.insert howner
  | issue pat hpat hne uid jti system => exact h.issue hpat hne uid jti system
  | delete doomed => exact h.delete doomed
  | rotate key _ =>
    refine ⟨h.hashes, List.mem_cons_self, h.owner, fun token htoken => ?_⟩
    obtain ⟨patHash, hhash, key', hkey, hrest⟩ := h.issued token htoken
    exact ⟨patHash, hhash, key', List.mem_cons_of_mem _ hkey, hrest⟩

private theorem reaches_inv {key : κ} {now : Nat} {isActive : Str → Bool}
    (hrun : Reaches (Step cfg) (State.init key now isActive) s) : Inv cfg s :=
  hrun.invariant (fun _ _ h hstep => hstep.effect.inv h) (Inv.init key now isActive)

/-! ### What has been revoked stays revoked -/

/-- An access token with a hash is there. -/
def HasPat (s : State τ κ) (patHash : Str) : Prop := ∃ pat ∈ s.pats.rows, pat.tokenHash = patHash

private theorem hashes_fresh : FreshNames (Step cfg) HasPat fun s patHash => patHash ∈ s.hashes := by
  intro s s' hstep
  have hsame : ∀ k, HasPat s k → HasPat s k ∨ k ∉ s.hashes := fun k hk => .inl hk
  cases hstep.effect with
  | tick now hnow => exact ⟨fun _ hk => hk, hsame⟩
  | accounts isActive => exact ⟨fun _ hk => hk, hsame⟩
  | insert pat howner hfresh =>
    refine ⟨fun k hk => List.mem_cons_of_mem _ hk, fun k hk => ?_⟩
    obtain ⟨row, hrow, rfl⟩ := hk
    rcases Table.mem_insert hrow with hrow | rfl
    · exact .inl ⟨row, hrow, rfl⟩
    · exact .inr hfresh
  | issue pat hpat hne uid jti system =>
    refine ⟨fun _ hk => hk, fun k hk => ?_⟩
    obtain ⟨row, hrow, rfl⟩ := hk
    rcases Table.mem_replace hrow with rfl | ⟨hrow, -⟩
    · exact .inl ⟨pat, hpat, rfl⟩
    · exact .inl ⟨row, hrow, rfl⟩
  | delete doomed =>
    refine ⟨fun _ hk => hk, fun k hk => ?_⟩
    obtain ⟨row, hrow, rfl⟩ := hk
    exact .inl ⟨row, (List.mem_filter.1 hrow).1, rfl⟩
  | rotate key hfresh => exact ⟨fun _ hk => hk, hsame⟩

private theorem keys_fresh : FreshNames (Step cfg) (fun s key => s.key = key) fun s key => key ∈ s.keys := by
  intro s s' hstep
  cases hstep.effect with
  | rotate key hfresh =>
    refine ⟨fun k hk => List.mem_cons_of_mem _ hk, fun k hk => .inr ?_⟩
    exact hk ▸ hfresh
  | tick now hnow => exact ⟨fun _ hk => hk, fun _ hk => .inl hk⟩
  | accounts isActive => exact ⟨fun _ hk => hk, fun _ hk => .inl hk⟩
  | insert pat howner hfresh => exact ⟨fun _ hk => hk, fun _ hk => .inl hk⟩
  | issue pat hpat hne uid jti system => exact ⟨fun _ hk => hk, fun _ hk => .inl hk⟩
  | delete doomed => exact ⟨fun _ hk => hk, fun _ hk => .inl hk⟩

private theorem payload_atrTh {token : τ} {patHash : Str} {key : κ} {iat : Nat}
    (h : IssuedAs cfg token patHash key iat) :
    (cfg.signing.payload token).atrTh = some patHash := by
  obtain ⟨uid, jti, system, rfl⟩ := h.signed
  rw [cfg.signing.payload_encode, issuePayload]
  exact if_neg h.hash_ne_nil

/-- A bearer token of an access token that is gone is refused. -/
private theorem refused_of_gone {token : τ} {patHash : Str} (hne : patHash ≠ [])
    (hhash : (cfg.signing.payload token).atrTh = some patHash) (h : ¬ HasPat s patHash) (scheme : Auth)
    (remoteAddr : Option Str) (claims : Claims) :
    authenticateHeader cfg s scheme (some token) remoteAddr ≠ .ok claims := by
  intro hok
  obtain ⟨hdecoded, -, pat, hpat⟩ := verify_eq_ok hne hhash (authenticateHeader_eq_ok hok).1
  have hsame : some pat.tokenHash = some patHash := by rw [← hpat.hash, hdecoded.payload, hhash]
  exact h ⟨pat, hpat.mem, Option.some.inj hsame⟩

/-- A bearer token signed under a key that is gone is refused. -/
private theorem refused_of_key {token : τ} {patHash : Str} {key : κ} {iat : Nat}
    (h : IssuedAs cfg token patHash key iat)
    (hkey : s.key ≠ key) (scheme : Auth) (remoteAddr : Option Str) (claims : Claims) :
    authenticateHeader cfg s scheme (some token) remoteAddr ≠ .ok claims := by
  intro hok
  obtain ⟨hdecoded, -⟩ := verify_eq_ok h.hash_ne_nil (payload_atrTh h) (authenticateHeader_eq_ok hok).1
  obtain ⟨uid, jti, system, rfl⟩ := h.signed
  exact hkey ((cfg.signing.verifies_encode _ _ _).1 hdecoded.verifies)

/-- An event that deletes rows does nothing else. -/
private theorem step_doomed {e : Event κ} {pat : PersonalAccessToken} (hdoomed : e.doomed s.now pat = true)
    (h : step cfg s e = .ok s') : s' = deletePats s (e.doomed s.now) := by
  cases e with
  | tick | accounts | addToken | addSystemToken | issueJwt | issueSystemJwt | rotateJwtSigningKey =>
    exact absurd hdoomed (by simp [Event.doomed])
  | _ => exact (Except.ok.inj h).symm

private theorem not_hasPat_deletePats {pat : PersonalAccessToken} {doomed : PersonalAccessToken → Bool}
    (hpat : pat ∈ s.pats.rows) (hdoomed : doomed pat = true) : ¬ HasPat (deletePats s doomed) pat.tokenHash := by
  rintro ⟨row, hrow, hhash⟩
  obtain ⟨hmem, hkept⟩ := List.mem_filter.1 hrow
  obtain rfl := s.pats.eq_of_key_eq hmem hpat hhash
  simp [hdoomed] at hkept

/-! ### Results -/

section Results

variable {key : κ} {now : Nat} {isActive : Str → Bool}

/-- In every run, a request with a bearer token of the server is accepted only while the access token of which it was
issued is there and has not expired, less than half an hour and two minutes after it was issued, and under the key under
which it was issued.  A user's token acts for the owner of the access token, whose account is active; a system token
comes of an access token that no user owns, from an address that it allows. -/
theorem authenticateHeader_live (hrun : Reaches (Step cfg) (State.init key now isActive) s) {token : τ}
    (htoken : token ∈ s.issued) {scheme : Auth} {remoteAddr : Option Str} {claims : Claims}
    (h : authenticateHeader cfg s scheme (some token) remoteAddr = .ok claims) :
    ∃ pat ∈ s.pats.rows, claims.atrTh = some pat.tokenHash ∧ s.now ≤ pat.expires ∧
      (∃ iat ≤ s.now, s.now < iat + ATR_JWT_TTL + ATR_JWT_LEEWAY_SECONDS ∧
        IssuedAs cfg token pat.tokenHash s.key iat) ∧
      (scheme = .systemBearer → claims.atrSys = true) ∧
      if claims.atrSys then pat.asfuid = none ∧ claims.sub = some SYSTEM_SERVICE_UID ∧
        pat.allowsIp cfg.inNetwork remoteAddr = true
      else ∃ uid, claims.sub = some uid ∧ pat.asfuid = some uid ∧ s.isActive uid = true := by
  have hinv := reaches_inv hrun
  obtain ⟨patHash, -, key', -, iat, hiat, hissued⟩ := hinv.issued token htoken
  obtain ⟨hverify, hscheme⟩ := authenticateHeader_eq_ok h
  obtain ⟨hdecoded, ⟨uid, hsub, hactive⟩, pat, hpat⟩ := verify_eq_ok hissued.hash_ne_nil (payload_atrTh hissued) hverify
  have hsame : pat.tokenHash = patHash := by
    have heq : some pat.tokenHash = some patHash := by rw [← hpat.hash, hdecoded.payload, payload_atrTh hissued]
    exact Option.some.inj heq
  obtain ⟨uid', jti, system, hencode⟩ := hissued.signed
  have hkey : s.key = key' := by
    have hverifies := hdecoded.verifies
    rw [hencode] at hverifies
    exact (cfg.signing.verifies_encode _ _ _).1 hverifies
  have hexp : claims.exp = some (iat + ATR_JWT_TTL) := by
    rw [hdecoded.payload, hencode, cfg.signing.payload_encode]
    rfl
  obtain ⟨exp, hclaim, hlt⟩ := hdecoded.inTime
  obtain rfl : iat + ATR_JWT_TTL = exp := Option.some.inj (hexp.symm.trans hclaim)
  refine ⟨pat, hpat.mem, hpat.hash, hpat.unexpired, ⟨iat, hiat, hlt, ?_⟩, hscheme, ?_⟩
  · rw [hsame, hkey]
    exact hissued
  · have hsubject := hpat.subject
    cases hsys : claims.atrSys with
    | true =>
      rw [hsys, if_pos rfl] at hsubject
      have howner := (hinv.owner pat hpat.mem).1 (hpat.kind.trans hsys)
      exact ⟨howner, hsubject⟩
    | false =>
      rw [hsys, if_neg Bool.false_ne_true] at hsubject
      refine ⟨uid, hsub, hsubject.2.trans hsub, ?_⟩
      simpa [hsys] using hactive

/-- Tokens that carry the key under which they are signed. -/
def plainConfig : Config (Claims × Nat) Nat where
  signing := {
    encode := fun claims key => (claims, key)
    payload := Prod.fst
    verifies := fun token key => key = token.2
    payload_encode := fun _ _ => rfl
    verifies_encode := fun _ _ _ => by simp }
  inNetwork := fun _ _ => none
  sha3 := fun text => '#' :: text
  sha3_ne_nil := fun _ => List.cons_ne_nil _ _
  issuer := "https://localhost/".toList
  isAdmin := fun _ => false
  adminOnly := false

/-- A user has an access token and a bearer token of it. -/
private theorem exists_plainState : ∃ s : State (Claims × Nat) Nat,
    Reaches (Step plainConfig) (State.init 7 0 fun _ => true) s ∧ ∃ token ∈ s.issued, ∃ pat ∈ s.pats.rows,
      (plainConfig.signing.payload token).atrTh = some pat.tokenHash ∧
      (isOwn "u".toList 1 pat = true) ∧ (authenticateHeader plainConfig s .bearer (some token) none).isOk = true :=
  ⟨_, .tail (.tail .refl ⟨.addToken "u".toList "#p".toList 0 100 (some "l".toList), List.not_mem_nil, rfl⟩)
    ⟨.issueJwt "u".toList "p".toList none "j".toList, trivial, rfl⟩, _, List.mem_cons_self, _, List.mem_cons_self,
    rfl, rfl, rfl⟩

theorem authenticateHeader_live_plain : ∃ (s : State (Claims × Nat) Nat) (token : Claims × Nat) (claims : Claims),
    authenticateHeader plainConfig s .bearer (some token) none = .ok claims ∧
      ∃ pat ∈ s.pats.rows, claims.atrTh = some pat.tokenHash ∧ s.now ≤ pat.expires := by
  obtain ⟨s, hrun, token, htoken, -, -, -, -, hok⟩ := exists_plainState
  cases h : authenticateHeader plainConfig s .bearer (some token) none with
  | error e =>
    rw [h] at hok
    exact absurd hok (by simp [Except.isOk, Except.toBool])
  | ok claims =>
    obtain ⟨pat, hpat, hhash, hexpires, -⟩ := authenticateHeader_live hrun htoken h
    exact ⟨s, token, claims, h, pat, hpat, hhash, hexpires⟩

/-- In every run, once the access token of a bearer token is deleted, by its owner, an administrator, the closing of an
account or the maintenance, or once the signing key is changed, no later request with the bearer token is accepted. -/
theorem revoked_refused (hrun : Reaches (Step cfg) (State.init key now isActive) s) {token : τ}
    (htoken : token ∈ s.issued) {e : Event κ} (hfresh : e.Fresh s) (hstep : step cfg s e = .ok s')
    (hrevoked : (∃ pat ∈ s.pats.rows, (cfg.signing.payload token).atrTh = some pat.tokenHash ∧
      e.doomed s.now pat = true) ∨ ∃ newKey, e = .rotateJwtSigningKey newKey)
    {t : State τ κ} (hlater : Reaches (Step cfg) s' t) (scheme : Auth) (remoteAddr : Option Str) (claims : Claims) :
    authenticateHeader cfg t scheme (some token) remoteAddr ≠ .ok claims := by
  have hinv := reaches_inv hrun
  obtain ⟨patHash, hused, key', hkey, iat, hiat, hissued⟩ := hinv.issued token htoken
  rcases hrevoked with ⟨pat, hpat, hhash, hdoomed⟩ | ⟨newKey, rfl⟩
  · obtain rfl : patHash = pat.tokenHash := Option.some.inj ((payload_atrTh hissued).symm.trans hhash)
    obtain rfl := step_doomed hdoomed hstep
    have hgone : Gone HasPat (fun s patHash => patHash ∈ s.hashes) (deletePats s (e.doomed s.now)) pat.tokenHash :=
      ⟨hused, not_hasPat_deletePats hpat hdoomed⟩
    exact refused_of_gone hissued.hash_ne_nil hhash (hgone.stays hashes_fresh hlater).2 scheme remoteAddr claims
  · obtain rfl := Except.ok.inj hstep
    have hgone : Gone (fun s key => s.key = key) (fun s key => key ∈ s.keys)
        { s with key := newKey, keys := newKey :: s.keys } key' :=
      ⟨List.mem_cons_of_mem _ hkey, fun heq => by
        obtain rfl : newKey = key' := heq
        exact hfresh hkey⟩
    exact refused_of_key hissued (hgone.stays keys_fresh hlater).2 scheme remoteAddr claims

theorem revoked_refused_plain : ∃ (s s' : State (Claims × Nat) Nat) (token : Claims × Nat), token ∈ s.issued ∧
    step plainConfig s (.deleteToken "u".toList 1) = .ok s' ∧
      ∀ t, Reaches (Step plainConfig) s' t → ∀ scheme remoteAddr claims,
        authenticateHeader plainConfig t scheme (some token) remoteAddr ≠ .ok claims := by
  obtain ⟨s, hrun, token, htoken, pat, hpat, hhash, hown, -⟩ := exists_plainState
  refine ⟨s, _, token, htoken, rfl, fun t hlater => ?_⟩
  exact revoked_refused (e := .deleteToken "u".toList 1) hrun htoken trivial rfl (.inl ⟨pat, hpat, hhash, hown⟩) hlater

end Results

end Access

end TrustedReleases
