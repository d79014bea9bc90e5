import TrustedReleases.Ssh.WorkflowKeys

/-!
# Single use

A second key comes of a token only of a request that is served after the token has expired (`minted_once`).  A key that
is taken has been registered at most twenty minutes ago with a token that was genuine (`validatePublicKey_live`), and a
revocation ends every key of the user that is there (`revoked_unusable`).
-/

namespace TrustedReleases

open Lib

namespace Ssh.Workflow

variable {δ : Type} {genuine : Payload δ → Bool} {fingerprintOf : Str → Option Str} {s s' : State δ}

/-! ### What a step does -/

private theorem consumeJti_eq_ok {payload : Payload δ} {now fallback : Nat}
    (h : consumeJti s payload now fallback = .ok s') :
    s.jtis.get payload.jti = none ∧
      s' = { s with jtis := s.jtis.insert ⟨payload.jti, expiryOr payload.exp fallback, now⟩ } := by
  unfold consumeJti at h
  split_ifs at h with hseen
  exact ⟨by simpa using hseen, (Except.ok.inj h).symm⟩

/-- The state after a registration. -/
def registered (s : State δ) (r : Registration δ) (fingerprint : Str) : State δ :=
  { s with
    jtis := s.jtis.insert ⟨r.githubPayload.jti, expiryOr r.githubPayload.exp (s.now + TTL), s.now⟩
    keys := s.keys.insert (r.row fingerprint (s.now + TTL))
    minted := ⟨r.row fingerprint (s.now + TTL), r.githubPayload, s.now⟩ :: s.minted }

private theorem addWorkflowKey_eq_ok {r : Registration δ} (h : addWorkflowKey fingerprintOf s r = .ok s') :
    ∃ fingerprint, s.jtis.get r.githubPayload.jti = none ∧ fingerprintOf r.key = some fingerprint ∧
      s.keys.get fingerprint = none ∧ s' = registered s r fingerprint := by
  obtain ⟨s₁, hconsume, h⟩ := bind_eq_ok h
  obtain ⟨hjti, rfl⟩ := consumeJti_eq_ok hconsume
  obtain ⟨fingerprint, hfingerprint, h⟩ := demand_bind_eq_ok.1 h
  obtain ⟨hkey, h⟩ := raiseIf_bind_eq_ok.1 h
  exact ⟨fingerprint, hjti, hfingerprint, by simpa using hkey, (Except.ok.inj h).symm⟩

/-- All that a step can do. -/
inductive Effect (genuine : Payload δ → Bool) (fingerprintOf : Str → Option Str) (s : State δ) : State δ → Prop where
  | tick (now : Nat) (hnow : s.now ≤ now) : Effect genuine fingerprintOf s { s with now }
  | verify (payload : Payload δ) (hpayload : isVerified genuine s.now payload = true) :
      Effect genuine fingerprintOf s { s with verified := payload :: s.verified }
  | register (r : Registration δ) (fingerprint : Str) (hverified : r.githubPayload ∈ s.verified)
      (hjti : s.jtis.get r.githubPayload.jti = none) (hfingerprint : fingerprintOf r.key = some fingerprint)
      (hkey : s.keys.get fingerprint = none) : Effect genuine fingerprintOf s (registered s r fingerprint)
  | maintenance : Effect genuine fingerprintOf s (workflowAuthMaintenance s)
  | revoke (uid : Str) : Effect genuine fingerprintOf s (revokeAllUserKeys s uid)

theorem Step.effect (h : Step genuine fingerprintOf s s') : Effect genuine fingerprintOf s s' := by
  obtain ⟨e, hallowed, hstep⟩ := h
  cases e with
  | tick now =>
    obtain rfl := Except.ok.inj hstep
    exact .tick now hallowed
  | verify payload =>
    obtain rfl := Except.ok.inj hstep
    exact .verify payload hallowed
  | addWorkflowKey r =>
    obtain ⟨fingerprint, hjti, hfingerprint, hkey, rfl⟩ := addWorkflowKey_eq_ok hstep
    exact .register r fingerprint hallowed hjti hfingerprint hkey
  | workflowAuthMaintenance =>
    obtain rfl := Except.ok.inj hstep
    exact .maintenance
  | revokeAllUserKeys uid =>
    obtain rfl := Except.ok.inj hstep
    exact .revoke uid

private theorem mem_revokeAllUserKeys {uid : Str} {row : WorkflowSSHKey δ}
    (h : row ∈ (revokeAllUserKeys s uid).keys.rows) :
    ∃ old ∈ s.keys.rows, (row = old ∨ row = { old with revoked := true }) ∧
      (row.asfUid = uid → row.revoked = true) := by
  obtain ⟨old, hold, rfl⟩ := List.mem_map.1 h
  refine ⟨old, hold, ?_⟩
  unfold WorkflowSSHKey.revokeFor
  split_ifs with huid
  · exact ⟨.inr rfl, fun _ => rfl⟩
  · refine ⟨.inl rfl, fun hmine => ?_⟩
    cases hrevoked : old.revoked with
    | true => rfl
    | false => exact absurd ⟨hmine, hrevoked⟩ huid

/-! ### The invariant -/

/-- The token of a key cannot come back: its identifier is recorded for as long as it lives, or it has expired. -/
def Spent (s : State δ) (m : Minted δ) : Prop :=
  ∃ exp, m.payload.exp = some exp ∧
    (exp < s.now ∨ ∃ row, s.jtis.get m.payload.jti = some row ∧ exp ≤ row.expires)

/-- What is known of a key since it has been registered. -/
structure Minted.Genuine (genuine : Payload δ → Bool) (fingerprintOf : Str → Option Str) (m : Minted δ) : Prop where
  verified : ∃ t ≤ m.time, isVerified genuine t m.payload = true
  row : ∃ r fingerprint, m.row = Registration.row r fingerprint (m.time + TTL) ∧ r.githubPayload = m.payload ∧
    fingerprintOf r.key = some fingerprint

/-- The key is one of those registered, and may have been revoked since. -/
def KeyOf (minted : List (Minted δ)) (row : WorkflowSSHKey δ) : Prop :=
  ∃ m ∈ minted, row = m.row ∨ row = { m.row with revoked := true }

/-- A second key of a token is registered after the token has expired. -/
def OnceEach (minted : List (Minted δ)) : Prop :=
  minted.Pairwise fun later earlier =>
    later.payload.jti = earlier.payload.jti → ∃ exp, earlier.payload.exp = some exp ∧ exp < later.time

structure Inv (genuine : Payload δ → Bool) (fingerprintOf : Str → Option Str) (s : State δ) : Prop where
  verified : ∀ payload ∈ s.verified, ∃ t ≤ s.now, isVerified genuine t payload = true
  time : ∀ m ∈ s.minted, m.time ≤ s.now
  minted : ∀ m ∈ s.minted, m.Genuine genuine fingerprintOf
  keys : ∀ row ∈ s.keys.rows, KeyOf s.minted row
  spent : ∀ m ∈ s.minted, Spent s m
  once : OnceEach s.minted

theorem Inv.init (now : Nat) : Inv genuine fingerprintOf (State.init now) where
  verified := fun payload h => by cases h
  time := fun m h => by cases h
  minted := fun m h => by cases h
  keys := fun row h => by cases h
  spent := fun m h => by cases h
  once := List.Pairwise.nil

private theorem KeyOf.mono {minted minted' : List (Minted δ)} {row : WorkflowSSHKey δ}
    (hsub : ∀ m ∈ minted, m ∈ minted')
    (h : KeyOf minted row) : KeyOf minted' row := by
  obtain ⟨m, hm, hrow⟩ := h
  exact ⟨m, hsub m hm, hrow⟩

private theorem KeyOf.revoke {minted : List (Minted δ)} {row : WorkflowSSHKey δ} (h : KeyOf minted row) :
    KeyOf minted { row with revoked := true } := by
  obtain ⟨m, hm, hrow⟩ := h
  refine ⟨m, hm, .inr ?_⟩
  rcases hrow with rfl | rfl
  · rfl
  · rfl

/-- A token that has been verified has an expiry, which is what its row is kept for. -/
private theorem exp_of_verified {payload : Payload δ} {t : Nat} (h : isVerified genuine t payload = true)
    (fallback : Nat) :
    ∃ exp, payload.exp = some exp ∧ t < exp ∧ expiryOr payload.exp fallback = exp := by
  unfold isVerified at h
  rw [Bool.and_eq_true] at h
  obtain ⟨exp, hexp, hlt⟩ := (Option.any_eq_true _ _).1 h.2
  have hlt' : t < exp := of_decide_eq_true hlt
  have hne : exp ≠ 0 := by omega
  refine ⟨exp, hexp, hlt', ?_⟩
  rw [hexp, expiryOr, Option.filter_some_pos (by simpa using hne)]
  rfl

theorem Spent.register {r : Registration δ} {fingerprint : Str} {m : Minted δ}
    (hjti : s.jtis.get r.githubPayload.jti = none) (h : Spent s m) : Spent (registered s r fingerprint) m := by
  obtain ⟨exp, hexp, hor⟩ := h
  refine ⟨exp, hexp, hor.imp_right fun hrow => ?_⟩
  obtain ⟨row, hget, hle⟩ := hrow
  refine ⟨row, ?_, hle⟩
  have hne : m.payload.jti ≠ r.githubPayload.jti := by
    intro heq
    rw [heq, hjti] at hget
    cases hget
  let new : WorkflowJti := ⟨r.githubPayload.jti, expiryOr r.githubPayload.exp (s.now + TTL), s.now⟩
  have hinsert : (s.jtis.insert new).get m.payload.jti = s.jtis.get m.payload.jti := by
    rw [Table.get_insert hjti, if_neg hne]
  exact hinsert.trans hget

theorem Spent.maintenance {m : Minted δ} (h : Spent s m) : Spent (workflowAuthMaintenance s) m := by
  obtain ⟨exp, hexp, hor⟩ := h
  refine ⟨exp, hexp, ?_⟩
  rcases hor with hold | ⟨row, hget, hle⟩
  · exact .inl hold
  · obtain ⟨hmem, hkey⟩ := Table.get_eq_some.1 hget
    -- a row that is forgotten has outlived its token
    by_cases hrow : row.expires < s.now
    · exact .inl (lt_of_le_of_lt hle hrow)
    · refine .inr ⟨row, Table.get_eq_some.2 ⟨List.mem_filter.2 ⟨hmem, ?_⟩, hkey⟩, hle⟩
      simp [hrow]

theorem Inv.register (h : Inv genuine fingerprintOf s) {r : Registration δ} {fingerprint : Str}
    (hverified : r.githubPayload ∈ s.verified) (hjti : s.jtis.get r.githubPayload.jti = none)
    (hfingerprint : fingerprintOf r.key = some fingerprint) :
    Inv genuine fingerprintOf (registered s r fingerprint) := by
  obtain ⟨t, ht, hpayload⟩ := h.verified _ hverified
  refine ⟨h.verified, ?_, ?_, ?_, ?_, ?_⟩
  · intro m hm
    rcases List.mem_cons.1 hm with rfl | hm
    · exact le_rfl
    · exact h.time m hm
  · intro m hm
    rcases List.mem_cons.1 hm with rfl | hm
    · exact ⟨⟨t, ht, hpayload⟩, r, fingerprint, rfl, rfl, hfingerprint⟩
    · exact h.minted m hm
  · intro row hrow
    rcases Table.mem_insert hrow with hrow | rfl
    · exact (h.keys row hrow).mono fun m hm => List.mem_cons_of_mem _ hm
    · exact ⟨_, List.mem_cons_self, .inl rfl⟩
  · intro m hm
    rcases List.mem_cons.1 hm with rfl | hm
    · obtain ⟨exp, hexp, -, hexpiry⟩ := exp_of_verified hpayload (s.now + TTL)
      refine ⟨exp, hexp, .inr ⟨_, (Table.get_insert hjti _).trans (if_pos rfl), hexpiry.ge⟩⟩
    · exact (h.spent m hm).register hjti
  · refine List.pairwise_cons.2 ⟨fun m hm heq => ?_, h.once⟩
    obtain ⟨exp, hexp, hor⟩ := h.spent m hm
    refine ⟨exp, hexp, ?_⟩
    rcases hor with hold | ⟨row, hget, -⟩
    · exact hold
    · have hsome : s.jtis.get r.githubPayload.jti = some row := heq ▸ hget
      rw [hjti] at hsome
      cases hsome

private theorem Effect.inv (h : Inv genuine fingerprintOf s) (heffect : Effect genuine fingerprintOf s s') :
    Inv genuine fingerprintOf s' := by
  cases heffect with
  | tick now hnow =>
    refine ⟨fun payload hp => ?_, fun m hm => (h.time m hm).trans hnow, h.minted, h.keys, fun m hm => ?_, h.once⟩
    · obtain ⟨t, ht, hpayload⟩ := h.verified payload hp
      exact ⟨t, ht.trans hnow, hpayload⟩
    · obtain ⟨exp, hexp, hor⟩ := h.spent m hm
      exact ⟨exp, hexp, hor.imp_left fun hlt => hlt.trans_le hnow⟩
  | verify payload hpayload =>
    refine ⟨fun p hp => ?_, h.time, h.minted, h.keys, h.spent, h.once⟩
    rcases List.mem_cons.1 hp with rfl | hp
    · exact ⟨s.now, le_rfl, hpayload⟩
    · exact h.verified p hp
  | register r fingerprint hverified hjti hfingerprint _ => exact h.register hverified hjti hfingerprint
  | maintenance =>
    refine ⟨h.verified, h.time, h.minted, fun row hrow => ?_, fun m hm => (h.spent m hm).maintenance, h.once⟩
    exact h.keys row (List.mem_filter.1 hrow).1
  | revoke uid =>
    refine ⟨h.verified, h.time, h.minted, fun row hrow => ?_, h.spent, h.once⟩
    obtain ⟨old, hold, hor, -⟩ := mem_revokeAllUserKeys hrow
    rcases hor with rfl | rfl
    · exact h.keys _ hold
    · exact (h.keys old hold).revoke

private theorem reaches_inv {now : Nat} (hrun : Reaches (Step genuine fingerprintOf) (State.init now) s) :
    Inv genuine fingerprintOf s :=
  hrun.invariant (fun _ _ h hstep => hstep.effect.inv h) (Inv.init now)

/-! ### Revocation -/

/-- The keys of a user that can still be used have been registered since. -/
def OnlyNew (uid : Str) (past : List (Minted δ)) (s : State δ) : Prop :=
  ∃ new, s.minted = new ++ past ∧
    ∀ row ∈ s.keys.rows, row.asfUid = uid → row.revoked = false → ∃ m ∈ new, m.row = row

theorem OnlyNew.revoked (s : State δ) (uid : Str) : OnlyNew uid s.minted (revokeAllUserKeys s uid) := by
  refine ⟨[], rfl, fun row hrow huid hlive => ?_⟩
  obtain ⟨-, -, -, hrevoked⟩ := mem_revokeAllUserKeys hrow
  rw [hrevoked huid] at hlive
  cases hlive

private theorem Effect.onlyNew {uid : Str} {past : List (Minted δ)} (h : OnlyNew uid past s)
    (heffect : Effect genuine fingerprintOf s s') : OnlyNew uid past s' := by
  obtain ⟨new, hnew, hlive⟩ := h
  cases heffect with
  | tick now _ => exact ⟨new, hnew, hlive⟩
  | verify payload _ => exact ⟨new, hnew, hlive⟩
  | register r fingerprint _ _ _ _ =>
    refine ⟨⟨r.row fingerprint (s.now + TTL), r.githubPayload, s.now⟩ :: new, ?_, fun row hrow huid hrevoked => ?_⟩
    · rw [List.cons_append, ← hnew]
      rfl
    · rcases Table.mem_insert hrow with hrow | rfl
      · obtain ⟨m, hm, hrow⟩ := hlive row hrow huid hrevoked
        exact ⟨m, List.mem_cons_of_mem _ hm, hrow⟩
      · exact ⟨_, List.mem_cons_self, rfl⟩
  | maintenance => exact ⟨new, hnew, fun row hrow => hlive row (List.mem_filter.1 hrow).1⟩
  | revoke uid' =>
    refine ⟨new, hnew, fun row hrow huid hrevoked => ?_⟩
    obtain ⟨old, hold, hor, -⟩ := mem_revokeAllUserKeys hrow
    rcases hor with rfl | rfl
    · exact hlive _ hold huid hrevoked
    · cases hrevoked

/-! ### Results -/

/-- What is checked of a key. -/
private theorem validatePublicKey_eq_some {isActive isAdmin : Str → Bool} {adminOnly : Bool} {fingerprint : Str}
    {c : Connection δ} (h : validatePublicKey isActive isAdmin adminOnly s fingerprint = some c) :
    ∃ row ∈ s.keys.rows, row.fingerprint = fingerprint ∧ row.revoked = false ∧ isActive row.asfUid = true ∧
      (adminOnly = true → isAdmin row.asfUid = true) ∧ s.now ≤ row.expires ∧ c = .of row := by
  unfold validatePublicKey at h
  split at h
  · cases h
  next row hget =>
    obtain ⟨hmem, hkey⟩ := Table.get_eq_some.1 hget
    split_ifs at h with hrevoked hactive hadmin hexpired
    refine ⟨row, hmem, hkey, by simpa using hrevoked, by simpa using hactive, ?_, by omega, (Option.some.inj h).symm⟩
    intro honly
    simpa [honly] using hadmin

section Results

variable {now : Nat} {isActive isAdmin : Str → Bool} {adminOnly : Bool} {fingerprint : Str} {c : Connection δ}

/-- In every run, a token with the identifier of an earlier one registers a key only after the earlier one has expired,
and every key has been registered with a token that was genuine and verified in time. -/
theorem minted_once (hrun : Reaches (Step genuine fingerprintOf) (State.init now) s) :
    (s.minted.Pairwise fun later earlier =>
      later.payload.jti = earlier.payload.jti → ∃ exp, earlier.payload.exp = some exp ∧ exp < later.time) ∧
    ∀ m ∈ s.minted, ∃ t ≤ m.time, isVerified genuine t m.payload = true :=
  ⟨(reaches_inv hrun).once, fun m hm => ((reaches_inv hrun).minted m hm).verified⟩

/-- A token of which the identifier is `"j"`, which expires at ten. -/
def plainPayload : Payload Unit := ⟨['j'], some 10, ()⟩

def plainRegistration (key : Str) : Registration Unit := ⟨['u'], ['g'], 1, ['p'], key, plainPayload, none, true⟩

/-- A token of which all are genuine, registered once, in a server whose fingerprints are the keys themselves. -/
private theorem exists_plain : ∃ s : State Unit, Reaches (Step (fun _ => true) some) (State.init 0) s ∧
    (∃ m, s.minted = [m]) ∧ s.verified = [plainPayload] ∧
      validatePublicKey (fun _ => true) (fun _ => false) false s ['k'] =
        some (.of ((plainRegistration ['k']).row ['k'] TTL)) :=
  ⟨_, .tail (.tail .refl ⟨.verify plainPayload, rfl, rfl⟩)
    ⟨.addWorkflowKey (plainRegistration ['k']), List.mem_cons_self, rfl⟩, ⟨_, rfl⟩, rfl, rfl⟩

/-- A request of the token is verified in time and comes too late. -/
private theorem exists_late : ∃ s : State Unit, Reaches (Step (fun _ => true) some) (State.init 0) s ∧
    ∃ later earlier, s.minted = [later, earlier] ∧ later.payload = earlier.payload :=
  ⟨_, .tail (.tail (.tail (.tail (.tail .refl ⟨.verify plainPayload, rfl, rfl⟩)
      ⟨.addWorkflowKey (plainRegistration ['k']), List.mem_cons_self, rfl⟩)
      ⟨.tick 11, Nat.zero_le 11, rfl⟩) ⟨.workflowAuthMaintenance, trivial, rfl⟩)
      ⟨.addWorkflowKey (plainRegistration ['l']), List.mem_cons_self, rfl⟩, _, _, rfl, rfl⟩

theorem minted_once_late : ∃ (s : State Unit) (later earlier : Minted Unit), s.minted = [later, earlier] ∧
    later.payload = earlier.payload ∧ ∃ exp, earlier.payload.exp = some exp ∧ exp < later.time := by
  obtain ⟨s, hrun, later, earlier, hminted, hsame⟩ := exists_late
  refine ⟨s, later, earlier, hminted, hsame, ?_⟩
  have honce := (minted_once hrun).1
  rw [hminted] at honce
  exact (List.pairwise_cons.1 honce).1 earlier (List.mem_singleton_self earlier) (by rw [hsame])

/-- In every run, a key that is taken is one that a genuine token has registered at most twenty minutes ago, the account
behind it is active, and the connection has the user, the project and the claims of that registration. -/
theorem validatePublicKey_live (hrun : Reaches (Step genuine fingerprintOf) (State.init now) s)
    (h : validatePublicKey isActive isAdmin adminOnly s fingerprint = some c) :
    ∃ m ∈ s.minted, ∃ r : Registration δ, m.row = r.row fingerprint (m.time + 20 * 60) ∧
      fingerprintOf r.key = some fingerprint ∧ r.githubPayload = m.payload ∧
      genuine m.payload = true ∧ m.time ≤ s.now ∧ s.now ≤ m.time + 20 * 60 ∧
      c = .of (r.row fingerprint (m.time + 20 * 60)) ∧ isActive r.asfUid = true ∧
      (adminOnly = true → isAdmin r.asfUid = true) := by
  have hinv := reaches_inv hrun
  obtain ⟨row, hrow, rfl, hrevoked, hactive, hadmin, hexpires, rfl⟩ := validatePublicKey_eq_some h
  obtain ⟨m, hm, hor⟩ := hinv.keys row hrow
  have hsame : row = m.row := by
    rcases hor with hsame | rfl
    · exact hsame
    · cases hrevoked
  obtain ⟨hverified, r, fingerprint, hr, hpayload, hfingerprint⟩ := hinv.minted m hm
  obtain ⟨t, -, hverified⟩ := hverified
  have hgenuine : genuine m.payload = true := (Bool.and_eq_true _ _ ▸ hverified : _ ∧ _).1
  rw [hr] at hsame
  subst hsame
  exact ⟨m, hm, r, hr, hfingerprint, hpayload, hgenuine, hinv.time m hm, hexpires, rfl, hactive, hadmin⟩

theorem validatePublicKey_live_plain : ∃ (s : State Unit) (m : Minted Unit), s.minted = [m] ∧
    (validatePublicKey (fun _ => true) (fun _ => false) false s ['k']).isSome ∧ m.time ≤ s.now ∧
      s.now ≤ m.time + 20 * 60 := by
  obtain ⟨s, hrun, ⟨m, hm⟩, -, hok⟩ := exists_plain
  obtain ⟨m', hm', -, -, -, -, -, hle, htime, -⟩ := validatePublicKey_live hrun hok
  rw [hm, List.mem_singleton] at hm'
  subst hm'
  exact ⟨s, m', hm, by rw [hok]; rfl, hle, htime⟩

/-- After the keys of a user have been revoked, whatever happens then, a key of that user is taken only if it has been
registered since. -/
theorem revoked_unusable {uid : Str} (hrun : Reaches (Step genuine fingerprintOf) (revokeAllUserKeys s uid) s')
    (h : validatePublicKey isActive isAdmin adminOnly s' fingerprint = some c) (huid : c.githubAsfUid = uid) :
    ∃ new, s'.minted = new ++ s.minted ∧ ∃ m ∈ new, m.row.fingerprint = fingerprint ∧ c = .of m.row := by
  have honly := hrun.invariant (I := OnlyNew uid s.minted) (fun _ _ h hstep => hstep.effect.onlyNew h)
    (OnlyNew.revoked s uid)
  obtain ⟨new, hnew, hlive⟩ := honly
  obtain ⟨row, hrow, rfl, hrevoked, -, -, -, rfl⟩ := validatePublicKey_eq_some h
  obtain ⟨m, hm, rfl⟩ := hlive row hrow huid hrevoked
  exact ⟨new, hnew, m, hm, rfl, rfl⟩

/-- The user has a key, and registers another one after it has been revoked. -/
private theorem exists_revoked : ∃ s s' : State Unit,
    Reaches (Step (fun _ => true) some) (revokeAllUserKeys s ['u']) s' ∧
      validatePublicKey (fun _ => true) (fun _ => false) false s' ['k'] = none ∧
      validatePublicKey (fun _ => true) (fun _ => false) false s' ['l'] =
        some (.of ((plainRegistration ['l']).row ['l'] (11 + TTL))) :=
  ⟨registered { State.init 0 with verified := [plainPayload] } (plainRegistration ['k']) ['k'], _,
    .tail (.tail (.tail .refl ⟨.tick 11, Nat.zero_le 11, rfl⟩) ⟨.workflowAuthMaintenance, trivial, rfl⟩)
      ⟨.addWorkflowKey (plainRegistration ['l']), List.mem_cons_self, rfl⟩, rfl, rfl⟩

theorem revoked_unusable_plain : ∃ s s' : State Unit,
    validatePublicKey (fun _ => true) (fun _ => false) false s' ['k'] = none ∧
      ∃ new, s'.minted = new ++ s.minted ∧ ∃ m ∈ new, m.row.fingerprint = ['l'] := by
  obtain ⟨s, s', hrun, hnone, hok⟩ := exists_revoked
  obtain ⟨new, hnew, m, hm, hfingerprint, -⟩ := revoked_unusable hrun hok rfl
  exact ⟨s, s', hnone, new, hnew, m, hm, hfingerprint⟩

end Results

end Ssh.Workflow

end TrustedReleases
