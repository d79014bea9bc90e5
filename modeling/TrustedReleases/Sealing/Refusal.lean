import TrustedReleases.Sealing.Safety

/-!
# What `prepare` accepts and refuses

Keys that `prepare` accepts are those that the chain goes on with, and a key directory that it refuses is never sealed
with again, whatever the tasks do (`Inv.refused`).  With the invariant this is the safety of the chain (`chain_safe`).
It takes that no entry is appended, before any day is closed, to a day that a task takes to be closed: otherwise a day
is sealed that is not closed, and can even be appended to before its seal is there (`chain_unsafe`).
-/

namespace TrustedReleases

open Lib

namespace Sealing

open DayLog (Codec Json)

variable {κ π σ δ ν : Type} {S : Scheme κ π σ δ} {s s' : State κ π σ δ}

/-- The closed days, in their order. -/
def Disk.closedDays (d : Disk κ π σ δ) : List Day :=
  match d.closed with
  | none => []
  | some closed => d.daysThrough closed

private theorem FirstDays.isPrefix {d : Disk κ π σ δ} {first : Day} {days : List Day} (h : FirstDays d first days) :
    days <+: d.closedDays := by
  by_cases hne : days = []
  · rw [hne]
    exact List.nil_prefix
  · obtain ⟨day, hday⟩ := List.exists_mem_of_ne_nil days hne
    obtain ⟨⟨closed, hclosed, -⟩, -⟩ := h.closed day hday
    have hmem : ∀ day ∈ days, day ∈ d.daysThrough closed := by
      intro day hday
      obtain ⟨⟨closed', hclosed', hle⟩, hfile⟩ := h.closed day hday
      obtain rfl := Option.some.inj (hclosed.symm.trans hclosed')
      exact mem_daysThrough.2 ⟨hfile, hle⟩
    have hsorted : (d.daysThrough closed).Pairwise (· < ·) :=
      orderBy_pairwise_lt (d.files.keys_nodup.filter _)
    rw [Disk.closedDays, hclosed]
    rw [h.consecutive] at hmem ⊢
    exact range'_isPrefix hsorted (fun day hday => h.oldest hne day (mem_daysThrough.1 hday).1) hmem

/-! ### States in which sealing cannot go on -/

/-- Where a task can be that has made nothing yet. -/
def Phase.early (published : List Day) (root : Option π) : Phase π σ δ → Prop
  | .locked _ => True
  | .listed _ seals => seals = published
  | .rooted _ seals => seals = published ∧ root.isSome
  | _ => False

/-- Nothing is sealed or signed, and the keys stay as they are. -/
structure Unsealed (s s' : State κ π σ δ) : Prop where
  seals : s'.disk.seals = s.disk.seals
  root : s'.disk.root = s.disk.root
  keys : s'.disk.keys = s.disk.keys
  published : s'.published = s.published
  signings : s'.signings = s.signings

theorem Unsealed.refl (s : State κ π σ δ) : Unsealed s s := ⟨rfl, rfl, rfl, rfl, rfl⟩

theorem Unsealed.trans {s'' : State κ π σ δ} (h : Unsealed s s') (h' : Unsealed s' s'') : Unsealed s s'' where
  seals := h'.seals.trans h.seals
  root := h'.root.trans h.root
  keys := h'.keys.trans h.keys
  published := h'.published.trans h.published
  signings := h'.signings.trans h.signings

private theorem expectedKey_congr {d d' : Disk κ π σ δ} (hseals : d'.seals = d.seals) (root : π)
    (previous : Option Day) :
    d'.expectedKey root previous = d.expectedKey root previous := by
  cases previous with
  | none => rfl
  | some day => rw [Disk.expectedKey, Disk.expectedKey, hseals]

section

variable [DecidableEq π]

/-- Neither the root nor the keys can be used. -/
def Blocked (S : Scheme κ π σ δ) (s : State κ π σ δ) : Prop :=
  (s.disk.root = none ∧ s.disk.keys.isSome) ∨
    (s.disk.root.isSome ∧ s.disk.checkKeys S.publicOf s.published.getLast? ≠ .ok ())

/-- Sealing cannot go on, and nobody is about to seal. -/
structure Stuck (S : Scheme κ π σ δ) (s : State κ π σ δ) : Prop where
  blocked : Blocked S s
  sealed : s.disk.sealedDays = s.published
  early : ∀ phase, s.sealing = some phase → phase.early s.published s.disk.root

private theorem Unsealed.blocked (h : Unsealed s s') (hblocked : Blocked S s) : Blocked S s' := by
  unfold Blocked at *
  rw [h.root, h.keys, h.published]
  refine hblocked.imp id fun ⟨hroot, hcheck⟩ => ⟨hroot, fun hok => hcheck ?_⟩
  obtain ⟨root, key, hroot', hkeys, hexpected⟩ := checkKeys_eq_ok.1 hok
  rw [h.root] at hroot'
  rw [h.keys] at hkeys
  rw [expectedKey_congr h.seals] at hexpected
  exact checkKeys_eq_ok.2 ⟨root, key, hroot', hkeys, hexpected⟩

end

/-! ### Steps -/

private theorem unsealed_beginClosing (s : State κ π σ δ) (now : Instant) (through : Day) :
    Unsealed s (s.beginClosing now through) ∧ (s.beginClosing now through).sealing = s.sealing := by
  unfold State.beginClosing
  split
  · exact ⟨.refl s, rfl⟩
  · split
    · exact ⟨⟨rfl, rfl, rfl, rfl, rfl⟩, rfl⟩
    · exact ⟨⟨rfl, rfl, rfl, rfl, rfl⟩, rfl⟩

private theorem unsealed_replaceNext (c : Codec ν) (s : State κ π σ δ) :
    Unsealed s (s.replaceNext c) ∧ (s.replaceNext c).sealing = s.sealing := by
  unfold State.replaceNext
  split
  · exact ⟨.refl s, rfl⟩
  · exact ⟨⟨rfl, rfl, rfl, rfl, rfl⟩, rfl⟩
  · split
    · exact ⟨⟨rfl, rfl, rfl, rfl, rfl⟩, rfl⟩
    · exact ⟨⟨rfl, rfl, rfl, rfl, rfl⟩, rfl⟩

private theorem unsealed_appendEntry (c : Codec ν) (s : State κ π σ δ) (now : Instant) (logger level : Str)
    (event : Json ν) :
    Unsealed s (s.appendEntry c now logger level event) ∧
      (s.appendEntry c now logger level event).sealing = s.sealing := by
  unfold State.appendEntry
  split
  · exact ⟨.refl s, rfl⟩
  · split
    · exact ⟨⟨rfl, rfl, rfl, rfl, rfl⟩, rfl⟩
    · exact ⟨.refl s, rfl⟩

private theorem initialise_eq_ok {d d' : Disk κ π σ δ} {n : Nat} {publicKey : π} :
    d.initialise S n = .ok (d', publicKey) ↔ d.keys = none ∧
      d' = { d with keys := some ⟨some (some (S.generate n)), none⟩ } ∧ publicKey = S.publicOf (S.generate n) := by
  cases hkeys : d.keys with
  | none =>
    have hrun : d.initialise S n =
        .ok ({ d with keys := some ⟨some (some (S.generate n)), none⟩ }, S.publicOf (S.generate n)) := by
      simp [Disk.initialise, Disk.makeKeys, Disk.createCurrent, Disk.writeCurrent, hkeys, raiseIf, demand]
    rw [hrun, Except.ok.injEq, Prod.mk.injEq, and_iff_right rfl]
    exact and_congr eq_comm eq_comm
  | some keys =>
    simp [Disk.initialise, Disk.makeKeys, hkeys, raiseIf]

section

variable [DecidableEq π] {datetime : Str}

/-- A task that has made nothing yet makes nothing. -/
private theorem Stuck.sealStep (h : Stuck S s) {phase : Phase π σ δ} (hsealing : s.sealing = some phase)
    (hstep : s.sealStep S datetime phase = .ok s') :
    Unsealed s s' ∧ ∀ phase', s'.sealing = some phase' → phase'.early s.published s.disk.root := by
  have hearly := h.early phase hsealing
  cases phase with
  | locked through =>
    rw [State.sealStep] at hstep
    obtain ⟨days, -, hstep⟩ := bind_eq_ok hstep
    obtain ⟨seals, hseals, hstep⟩ := bind_eq_ok hstep
    obtain rfl := Except.ok.inj hstep
    obtain ⟨-, hseals⟩ := raiseIf_bind_eq_ok.1 hseals
    refine ⟨⟨rfl, rfl, rfl, rfl, rfl⟩, fun phase' hsome => ?_⟩
    obtain rfl := Option.some.inj hsome
    exact (Except.ok.inj hseals).symm.trans h.sealed
  | listed days seals =>
    have hseals : seals = s.published := hearly
    rw [State.sealStep] at hstep
    by_cases hroot : s.disk.root.isSome
    · rw [if_pos hroot] at hstep
      obtain rfl := Except.ok.inj hstep
      refine ⟨⟨rfl, rfl, rfl, rfl, rfl⟩, fun phase' hsome => ?_⟩
      obtain rfl := Option.some.inj hsome
      exact ⟨hseals, hroot⟩
    · -- without a root there is a key directory, which cannot be made again
      rw [if_neg hroot] at hstep
      obtain ⟨-, hmake⟩ := raiseIf_bind_eq_ok.1 hstep
      obtain ⟨disk, hdisk, -⟩ := bind_eq_ok hmake
      obtain ⟨hkeys, -⟩ := raiseIf_bind_eq_ok.1 hdisk
      rcases h.blocked with ⟨-, hsome⟩ | ⟨hsome, -⟩
      · exact absurd hsome hkeys
      · exact absurd hsome hroot
  | rooted days seals =>
    obtain ⟨hseals, hroot⟩ : seals = s.published ∧ s.disk.root.isSome := hearly
    rw [State.sealStep] at hstep
    obtain ⟨_, hcheck, -⟩ := bind_eq_ok hstep
    rw [hseals] at hcheck
    rcases h.blocked with ⟨hnone, -⟩ | ⟨-, hrefused⟩
    · rw [hnone] at hroot
      cases hroot
    · exact absurd hcheck hrefused
  | made | created | generated | prepared | digested | opened | written | signed | verified | published =>
    exact hearly.elim

/-- A state in which sealing cannot go on is left by no step. -/
theorem Stuck.step (h : Stuck S s) (c : Codec ν) (e : Event ν) :
    Unsealed s (s.step c S e) ∧ Stuck S (s.step c S e) := by
  have key : Unsealed s (s.step c S e) ∧
      ∀ phase, (s.step c S e).sealing = some phase → phase.early s.published s.disk.root := by
    cases e with
    | close now through =>
      obtain ⟨hunsealed, hsealing⟩ := unsealed_beginClosing s now through
      refine ⟨hunsealed, fun phase hsome => h.early phase ?_⟩
      rw [← hsealing]
      exact hsome
    | replace =>
      obtain ⟨hunsealed, hsealing⟩ := unsealed_replaceNext c s
      refine ⟨hunsealed, fun phase hsome => h.early phase ?_⟩
      rw [← hsealing]
      exact hsome
    | append now logger level event =>
      obtain ⟨hunsealed, hsealing⟩ := unsealed_appendEntry c s now logger level event
      refine ⟨hunsealed, fun phase hsome => h.early phase ?_⟩
      rw [← hsealing]
      exact hsome
    | endClosing => exact ⟨⟨rfl, rfl, rfl, rfl, rfl⟩, h.early⟩
    | endSealing =>
      refine ⟨⟨rfl, rfl, rfl, rfl, rfl⟩, fun phase hsome => ?_⟩
      cases hsome
    | lock through =>
      rw [State.step]
      split
      · refine ⟨⟨rfl, rfl, rfl, rfl, rfl⟩, fun phase hsome => ?_⟩
        obtain rfl := Option.some.inj hsome
        exact trivial
      · exact ⟨.refl s, h.early⟩
    | advance datetime =>
      rw [State.step]
      cases hsealing : s.sealing with
      | none => exact ⟨.refl s, h.early⟩
      | some phase =>
        cases hstep : s.sealStep S datetime phase with
        | ok s' => simpa only [hstep] using h.sealStep hsealing hstep
        | error e =>
          simp only [hstep]
          refine ⟨⟨rfl, rfl, rfl, rfl, rfl⟩, fun phase hsome => ?_⟩
          cases hsome
  refine ⟨key.1, key.1.blocked h.blocked, ?_, ?_⟩
  · rw [Disk.sealedDays, key.1.seals, key.1.published]
    exact h.sealed
  · rw [key.1.root, key.1.published]
    exact key.2

/-- Nothing is sealed or signed any more. -/
theorem Stuck.run (h : Stuck S s) (c : Codec ν) (events : List (Event ν)) : Unsealed s (s.run c S events) := by
  unfold State.run
  induction events generalizing s with
  | nil => exact .refl s
  | cons e events ih =>
    obtain ⟨hunsealed, hstuck⟩ := h.step c e
    exact hunsealed.trans (ih hstuck)

end

/-! ### Preparing -/

section

variable [DecidableEq π]

/-- What `prepare` does. -/
private theorem prepare_eq_ok {d d' : Disk κ π σ δ} {n : Nat} {previous : Option Day} :
    d.prepare S n previous = .ok d' ↔ (d.root.isSome ∧ d.checkKeys S.publicOf previous = .ok () ∧ d' = d) ∨
      (d.root = none ∧ previous = none ∧ d.keys = none ∧
        d' = { d with
          root := some (S.publicOf (S.generate n)), keys := some ⟨some (some (S.generate n)), none⟩ }) := by
  cases hroot : d.root with
  | some root =>
    have hsome : d.root.isSome = true := by rw [hroot]; rfl
    rw [Disk.prepare, if_pos hsome]
    constructor
    · intro h
      obtain ⟨_, hcheck, hsame⟩ := bind_eq_ok h
      exact .inl ⟨rfl, hcheck, (Except.ok.inj hsame).symm⟩
    · rintro (⟨-, hcheck, rfl⟩ | ⟨hnone, -⟩)
      · rw [hcheck]
        rfl
      · cases hnone
  | none =>
    have hnone : ¬ d.root.isSome = true := by simp [hroot]
    rw [Disk.prepare, if_neg hnone]
    constructor
    · intro h
      obtain ⟨hprevious, h⟩ := raiseIf_bind_eq_ok.1 h
      obtain ⟨⟨d₁, publicKey⟩, hinitialise, h⟩ := bind_eq_ok h
      obtain ⟨hkeys, rfl, rfl⟩ := initialise_eq_ok.1 hinitialise
      obtain ⟨d₂, hpublish, h⟩ := bind_eq_ok h
      obtain ⟨-, hd₂⟩ := raiseIf_bind_eq_ok.1 hpublish
      obtain ⟨_, -, h⟩ := bind_eq_ok h
      obtain rfl := Except.ok.inj h
      exact .inr ⟨rfl, by simpa using hprevious, hkeys, (Except.ok.inj hd₂).symm⟩
    · rintro (⟨hsome, -⟩ | ⟨-, rfl, hkeys, rfl⟩)
      · cases hsome
      · have hinitialise := (@initialise_eq_ok κ π σ δ S d _ n _).2 ⟨hkeys, rfl, rfl⟩
        have hcheck : Disk.checkKeys S.publicOf { d with
            root := some (S.publicOf (S.generate n)), keys := some ⟨some (some (S.generate n)), none⟩ } none =
              .ok () := checkKeys_eq_ok.2 ⟨_, _, rfl, rfl, rfl⟩
        rw [hinitialise]
        simp [Disk.publishRoot, hroot, raiseIf, hcheck]

/-! ### The steps of `prepare` -/

/-- The state that a task reaches by so many steps of its own. -/
def Advances (c : Codec ν) (S : Scheme κ π σ δ) (datetime : Str) (n : Nat) (s s' : State κ π σ δ) : Prop :=
  s.run c S (List.replicate n (.advance datetime)) = s'

variable {c : Codec ν} {datetime : Str}

theorem Advances.cons {n : Nat} {s₁ : State κ π σ δ} {phase : Phase π σ δ} (hsealing : s.sealing = some phase)
    (hstep : s.sealStep S datetime phase = .ok s₁) (h : Advances c S datetime n s₁ s') :
    Advances c S datetime (n + 1) s s' := by
  have hadvance : s.step c S (.advance datetime) = s₁ := by
    rw [State.step, hsealing]
    simp only [hstep]
  unfold Advances State.run at *
  rw [List.replicate_succ, List.foldl_cons, hadvance]
  exact h

/-- A task that nothing interrupts does what `prepare` does. -/
private theorem advances_prepare {days seals : List Day} (hsealing : s.sealing = some (.listed days seals))
    {d' : Disk κ π σ δ} (hprepare : s.disk.prepare S s.generated seals.getLast? = .ok d') :
    ∃ n t, Advances c S datetime n s t ∧ t.disk = d' ∧ t.sealing = days[seals.length]?.map .prepared := by
  -- from the root on one check is left
  have hrooted {t : State κ π σ δ} (hok : t.disk.checkKeys S.publicOf seals.getLast? = .ok ()) :
      t.sealStep S datetime (.rooted days seals) =
        .ok { t with sealing := days[seals.length]?.map .prepared } := by
    rw [State.sealStep, hok]
    rfl
  rcases prepare_eq_ok.1 hprepare with ⟨hroot, hok, rfl⟩ | ⟨hroot, hlast, hkeys, rfl⟩
  · have hlisted : s.sealStep S datetime (.listed days seals) =
        .ok { s with sealing := some (.rooted days seals) } := by
      rw [State.sealStep, if_pos hroot]
    exact ⟨2, _, .cons hsealing hlisted (.cons rfl (hrooted hok) rfl), rfl, rfl⟩
  · obtain rfl := List.getLast?_eq_none_iff.1 hlast
    have hlisted : s.sealStep S datetime (.listed days []) = .ok { s with
        disk := { s.disk with keys := some ⟨none, none⟩ }, sealing := some (.made days []) } := by
      simp [State.sealStep, hroot, Disk.makeKeys, hkeys, raiseIf]
    have hgenerated : State.sealStep S datetime { s with
        disk := { s.disk with keys := some ⟨some (some (S.generate s.generated)), none⟩ }
        generated := s.generated + 1
        sealing := some (.generated days [] (S.publicOf (S.generate s.generated))) }
          (.generated days [] (S.publicOf (S.generate s.generated))) = .ok { s with
            disk := { s.disk with
              root := some (S.publicOf (S.generate s.generated)),
              keys := some ⟨some (some (S.generate s.generated)), none⟩ }
            generated := s.generated + 1
            sealing := some (.rooted days []) } := by
      simp [State.sealStep, Disk.publishRoot, hroot, raiseIf]
    refine ⟨5, _, .cons hsealing hlisted (.cons rfl rfl (.cons rfl rfl (.cons rfl hgenerated (.cons rfl (hrooted ?_)
      rfl)))), rfl, rfl⟩
    exact checkKeys_eq_ok.2 ⟨_, _, rfl, rfl, rfl⟩

end

variable [DecidableEq δ]

private theorem SealInv.nothing_published (h : SealInv S s) (hroot : s.disk.root = none) : s.published = [] := by
  by_contra hne
  have hsome := h.root hne
  rw [hroot] at hsome
  cases hsome

variable [DecidableEq π]

/-- The keys that `prepare` accepts are those that the chain goes on with, and the current one has signed nothing. -/
theorem Inv.accepted (h : Inv S s) {d' : Disk κ π σ δ}
    (hprepare : s.disk.prepare S s.generated s.published.getLast? = .ok d') :
    ∃ key, d'.keys = some ⟨some (some key), none⟩ ∧ d'.namedKey s.published = some (S.publicOf key) ∧
      key ∉ s.signings.map (·.1) := by
  rcases prepare_eq_ok.1 hprepare with ⟨-, hcheck, rfl⟩ | ⟨hroot, -, -, rfl⟩
  · obtain ⟨root, key, hroot, hkeys, -⟩ := checkKeys_eq_ok.1 hcheck
    obtain ⟨last, -, hlast⟩ := h.seals.verifies root hroot
    obtain ⟨⟨-, hunused⟩, hnamed⟩ := h.keys.current key hkeys
    exact ⟨key, hkeys, by rw [hlast, hnamed last hlast], hunused⟩
  · refine ⟨S.generate s.generated, rfl, ?_, h.keys.unused_next⟩
    rw [h.seals.nothing_published hroot]
    rfl

/-- A state that `prepare` refuses is blocked. -/
private theorem Inv.blocked (h : Inv S s) {e : Error}
    (hprepare : s.disk.prepare S s.generated s.published.getLast? = .error e) : Blocked S s := by
  have hrefused : ∀ d', ¬ s.disk.prepare S s.generated s.published.getLast? = .ok d' := by
    intro d' hok
    rw [hprepare] at hok
    cases hok
  cases hroot : s.disk.root with
  | some root =>
    refine .inr ⟨by rw [hroot]; rfl, fun hcheck => hrefused s.disk ?_⟩
    exact prepare_eq_ok.2 (.inl ⟨by rw [hroot]; rfl, hcheck, rfl⟩)
  | none =>
    cases hkeys : s.disk.keys with
    | some keys => exact .inl ⟨hroot, by rw [hkeys]; rfl⟩
    | none =>
      have hlast : s.published.getLast? = none := by rw [h.seals.nothing_published hroot]; rfl
      exact absurd (prepare_eq_ok.2 (.inr ⟨hroot, hlast, hkeys, rfl⟩)) (hrefused _)

/-- What `prepare` refuses is never sealed or signed with again. -/
theorem Inv.refused (h : Inv S s) (hsealing : s.sealing = none) {e : Error}
    (hprepare : s.disk.prepare S s.generated s.published.getLast? = .error e) (c : Codec ν) (events : List (Event ν)) :
    Unsealed s (s.run c S events) := by
  have hstuck : Stuck S s := by
    refine ⟨h.blocked hprepare, h.seals.sealedDays, fun phase hsome => ?_⟩
    rw [hsealing] at hsome
    cases hsome
  exact hstuck.run c events

/-! ### The chain -/

/-- The seals are those of the first closed days and verify from the root on, no day is sealed twice and no key signs
twice; and `prepare` accepts a key only if the chain goes on with it, while what it refuses is never sealed with.  A task
that goes on alone does as `prepare` does. -/
structure ChainSafe (c : Codec ν) (S : Scheme κ π σ δ) (s : State κ π σ δ) : Prop where
  initial : s.published <+: s.disk.closedDays
  consecutive : ∃ first, s.published = List.range' first s.published.length
  seals : ∀ day, (s.disk.seals.get day).isSome ↔ day ∈ s.published
  verifies : s.published ≠ [] →
    ∃ root last, s.disk.root = some root ∧ s.disk.verifyAll S s.published root = .ok last
  sealedOnce : s.published.Nodup
  signedOnce : (s.signings.map (·.1)).Nodup
  accepted : ∀ d', s.disk.prepare S s.generated s.disk.sealedDays.getLast? = .ok d' →
    ∃ key, d'.keys = some ⟨some (some key), none⟩ ∧ d'.namedKey s.published = some (S.publicOf key) ∧
      key ∉ s.signings.map (·.1)
  refused : s.sealing = none → ∀ e, s.disk.prepare S s.generated s.disk.sealedDays.getLast? = .error e →
    ∀ events, (s.run c S events).published = s.published ∧ (s.run c S events).signings = s.signings
  prepared : ∀ datetime days seals d', s.sealing = some (.listed days seals) →
    s.disk.prepare S s.generated seals.getLast? = .ok d' →
      ∃ n t, Advances c S datetime n s t ∧ t.disk = d' ∧ t.sealing = days[seals.length]?.map .prepared

/-- Every run of sealing tasks, wherever they are cut off, leaves the chain safe, if no entry is appended to a day that a
task takes to be closed while no day is. -/
theorem chain_safe (c : Codec ν) (S : Scheme κ π σ δ) (files : Dict Day Bytes) (closed : Option Day)
    (events : List (Event ν)) (hsound : (State.start files closed).SoundRun c S events) :
    ChainSafe c S (State.run c S (.start files closed) events) := by
  have h : Inv S (State.run c S (.start files closed) events) := (Inv.start S files closed).run c hsound
  obtain ⟨first, hfirst⟩ := h.seals.days
  refine ⟨hfirst.isPrefix, ⟨first, hfirst.consecutive⟩, h.seals.seals, fun hne => ?_, ?_, h.keys.once, ?_, ?_,
    fun _ _ _ _ hsealing => advances_prepare hsealing⟩
  · obtain ⟨root, hroot⟩ := Option.isSome_iff_exists.1 (h.seals.root hne)
    obtain ⟨last, hverifies, -⟩ := h.seals.verifies root hroot
    exact ⟨root, last, hroot, hverifies⟩
  · rw [hfirst.consecutive]
    exact List.nodup_range'
  · intro d' hprepare
    rw [h.seals.sealedDays] at hprepare
    exact h.accepted hprepare
  · intro hsealing e hprepare events
    rw [h.seals.sealedDays] at hprepare
    have hunsealed := h.refused hsealing hprepare c events
    exact ⟨hunsealed.published, hunsealed.signings⟩

/-! ### Runs with one log -/

/-- A codec that writes nothing, so that an entry is a line feed. -/
def blankCodec : Codec Unit := ⟨fun _ => some [], fun _ => none⟩

/-- Keys are numbers, and a key is its own public key and signature. -/
def numberedKeys : Scheme Nat Nat Nat Bytes where
  generate := id
  fresh := fun _ _ h => h
  publicOf := id
  sign := fun key _ => key
  verify := fun key _ signature => key == signature
  digest := id

/-- So many steps of the task that seals. -/
def advanceBy (n : Nat) : List (Event Unit) := List.replicate n (.advance [])

/-- An entry, after which the two days before are closed by a task that ends after `root.der` is published, and another
one that goes on. -/
def interruptedRun : List (Event Unit) :=
  [.append ⟨6, 0⟩ [] [] .null, .close ⟨10, 0⟩ 5, .replace, .replace, .replace, .lock 5] ++ advanceBy 5 ++
    [.endSealing, .close ⟨10, 0⟩ 5, .lock 5] ++ advanceBy 10

theorem chain_safe_interrupted :
    (State.run blankCodec numberedKeys (.start (((∅ : Dict Day Bytes).set 4 []).set 5 []) none)
      interruptedRun).published = [4] ∧
    ChainSafe blankCodec numberedKeys (State.run blankCodec numberedKeys
      (.start (((∅ : Dict Day Bytes).set 4 []).set 5 []) none) interruptedRun) := by
  refine ⟨by decide +kernel, chain_safe blankCodec numberedKeys _ none interruptedRun ?_⟩
  have hnobody : ∀ through, ¬ (State.start (((∅ : Dict Day Bytes).set 4 []).set 5 []) none :
      State Nat Nat Nat Bytes).goesThrough through := by
    rintro through (hmem | hsome)
    · cases hmem
    · cases hsome
  refine ⟨fun _ through hgoes => absurd hgoes (hnobody through), ?_⟩
  -- nothing is appended any more
  repeat' constructor

/-- The day before the oldest file is found to have nothing to close, and then the clock is set back to it. -/
def setBack : List (Event Unit) := [.close ⟨10, 0⟩ 9, .append ⟨9, 0⟩ [] [] .null, .lock 9]

def setBackStart : State Nat Nat Nat Bytes := .start ((∅ : Dict Day Bytes).set 10 []) none

/-- A day is sealed that is not closed, and its seal does not verify if there is another entry before it is published. -/
theorem chain_unsafe :
    (State.run blankCodec numberedKeys setBackStart (setBack ++ advanceBy 13)).published = [9] ∧
    ¬ ChainSafe blankCodec numberedKeys (State.run blankCodec numberedKeys setBackStart (setBack ++ advanceBy 13)) ∧
    (let s := State.run blankCodec numberedKeys setBackStart
      (setBack ++ advanceBy 7 ++ [.append ⟨9, 1⟩ [] [] .null] ++ advanceBy 6)
    s.published = [9] ∧ s.disk.root = some 0 ∧ s.disk.verifyAll numberedKeys s.published 0 = .error (.digestMismatch 9) ∧
      ¬ ChainSafe blankCodec numberedKeys s) := by
  have hopen : (State.run blankCodec numberedKeys setBackStart (setBack ++ advanceBy 13)).disk.closed = none ∧
      (State.run blankCodec numberedKeys setBackStart (setBack ++ advanceBy 13)).published = [9] := by
    decide +kernel
  have hlate : (State.run blankCodec numberedKeys setBackStart
      (setBack ++ advanceBy 7 ++ [.append ⟨9, 1⟩ [] [] .null] ++ advanceBy 6)).published = [9] ∧
    (State.run blankCodec numberedKeys setBackStart
      (setBack ++ advanceBy 7 ++ [.append ⟨9, 1⟩ [] [] .null] ++ advanceBy 6)).disk.root = some 0 ∧
    (State.run blankCodec numberedKeys setBackStart
      (setBack ++ advanceBy 7 ++ [.append ⟨9, 1⟩ [] [] .null] ++ advanceBy 6)).disk.verifyAll numberedKeys [9] 0 =
        .error (.digestMismatch 9) := by
    decide +kernel
  refine ⟨hopen.2, fun hsafe => ?_, hlate.1, hlate.2.1, ?_, fun hsafe => ?_⟩
  · have hprefix := hsafe.initial
    rw [Disk.closedDays, hopen.1, hopen.2] at hprefix
    cases List.prefix_nil.1 hprefix
  · rw [hlate.1]
    exact hlate.2.2
  · obtain ⟨root, last, hroot, hverifies⟩ := hsafe.verifies (by rw [hlate.1]; exact List.cons_ne_nil _ _)
    obtain rfl := Option.some.inj (hlate.2.1.symm.trans hroot)
    rw [hlate.1, hlate.2.2] at hverifies
    cases hverifies

end Sealing

end TrustedReleases
