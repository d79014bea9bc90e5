import TrustedReleases.Sealing.Steps

/-!
# Safety of the seal chain

Whatever the tasks do and wherever they end, as long as no entry is appended to a day that a task takes to be closed
before any day is (`State.SoundRun`), the published seals are those of the first closed days, they verify from
`root.der` on, and no key signs twice (`chain_safe`).  The invariant `Inv` says for each phase what the key directory
holds: a key in `current.pem` alone has signed nothing and is the one that the chain names, and once there is a
`next.pem` only the task that created it goes on.
-/

namespace TrustedReleases

open Lib

namespace Sealing

open DayLog (Codec Json dayRange firstToClose)

variable {κ π σ δ ν : Type}

/-! ### The invariant -/

/-- Closed days, one after the other from the oldest day file on. -/
structure FirstDays (d : Disk κ π σ δ) (first : Day) (days : List Day) : Prop where
  consecutive : days = List.range' first days.length
  closed : ∀ day ∈ days, Closed d day
  oldest : days ≠ [] → ∀ day, (d.files.get day).isSome → first ≤ day

/-- The key that the chain ends with. -/
def Disk.namedKey (d : Disk κ π σ δ) (days : List Day) : Option π :=
  match days.getLast? with
  | none => d.root
  | some day => (d.seals.get day).map (·.record.next)

/-- What `_seal_day` has listed. -/
structure Listed (d : Disk κ π σ δ) (published days seals : List Day) : Prop where
  firstDays : ∃ first, FirstDays d first days
  sealed : seals = published
  initial : published = days.take published.length

/-- The day to be sealed comes after the sealed ones. -/
def Next (d : Disk κ π σ δ) (published : List Day) (day : Day) : Prop := ∃ first, FirstDays d first (published ++ [day])

/-- The digest of the day file. -/
def DigestOf (S : Scheme κ π σ δ) (d : Disk κ π σ δ) (day : Day) (digest : δ) : Prop :=
  ∃ content, d.files.get day = some content ∧ S.digest content = digest

/-- A generated key that has signed nothing. -/
def Unused (S : Scheme κ π σ δ) (s : State κ π σ δ) (key : κ) : Prop :=
  (∃ n < s.generated, key = S.generate n) ∧ key ∉ s.signings.map (·.1)

/-- `current.pem` holds the key that the chain ends with. -/
structure Holding (S : Scheme κ π σ δ) (d : Disk κ π σ δ) (published : List Day) (key : κ)
    (next : Option (KeyFile κ)) : Prop where
  keys : d.keys = some ⟨some (some key), next⟩
  named : d.namedKey published = some (S.publicOf key)

/-- Before the root is published nothing is sealed. -/
structure Beginning (d : Disk κ π σ δ) (published : List Day) (keys : KeyDirectory κ) : Prop where
  root : d.root = none
  nothing : published = []
  keys : d.keys = some keys

/-- What is true in a phase. -/
def PhaseInv (S : Scheme κ π σ δ) (s : State κ π σ δ) : Phase π σ δ → Prop
  | .locked through => Settled s.disk through
  | .listed days seals => Listed s.disk s.published days seals
  | .made days seals => Listed s.disk s.published days seals ∧ Beginning s.disk s.published ⟨none, none⟩
  | .created days seals => Listed s.disk s.published days seals ∧ Beginning s.disk s.published ⟨some none, none⟩
  | .generated days seals publicKey =>
    Listed s.disk s.published days seals ∧
      ∃ key, Beginning s.disk s.published ⟨some (some key), none⟩ ∧ publicKey = S.publicOf key
  | .rooted days seals => Listed s.disk s.published days seals
  | .prepared day => Next s.disk s.published day ∧ ∃ key, Holding S s.disk s.published key none
  | .digested day digest =>
    Next s.disk s.published day ∧ DigestOf S s.disk day digest ∧ ∃ key, Holding S s.disk s.published key none
  | .opened day digest =>
    Next s.disk s.published day ∧ DigestOf S s.disk day digest ∧
      ∃ key, Holding S s.disk s.published key (some none) ∧ Unused S s key
  | .written day record =>
    Next s.disk s.published day ∧ DigestOf S s.disk day record.sha3_512 ∧
      ∃ key successor, Holding S s.disk s.published key (some (some successor)) ∧
        Unused S s key ∧ Unused S s successor ∧ key ≠ successor ∧ record.next = S.publicOf successor
  | .signed day sealed =>
    Next s.disk s.published day ∧ DigestOf S s.disk day sealed.record.sha3_512 ∧
      ∃ key successor, Holding S s.disk s.published key (some (some successor)) ∧
        Unused S s successor ∧ sealed.record.next = S.publicOf successor
  | .verified day sealed =>
    Next s.disk s.published day ∧ DigestOf S s.disk day sealed.record.sha3_512 ∧
      ∃ key successor, Holding S s.disk s.published key (some (some successor)) ∧
        Unused S s successor ∧ sealed.record.next = S.publicOf successor ∧
          S.verify (S.publicOf key) sealed.record sealed.signature = true
  | .published => ∃ key successor, s.disk.keys = some ⟨some (some key), some (some successor)⟩ ∧
      s.disk.namedKey s.published = some (S.publicOf successor) ∧ Unused S s successor

/-- The tasks that close days, and those that wait. -/
structure LogInv (s : State κ π σ δ) : Prop where
  closing : ∀ days through, s.closing = some (days, through) → Closing s.disk days through
  waiting : ∀ through ∈ s.waiting, Settled s.disk through

/-- The published seals. -/
structure SealInv [DecidableEq δ] (S : Scheme κ π σ δ) (s : State κ π σ δ) : Prop where
  seals : ∀ day, (s.disk.seals.get day).isSome ↔ day ∈ s.published
  days : ∃ first, FirstDays s.disk first s.published
  root : s.published ≠ [] → s.disk.root.isSome
  verifies : ∀ root, s.disk.root = some root →
    ∃ last, s.disk.verifyAll S s.published root = .ok last ∧ s.disk.namedKey s.published = some last

/-- The keys. -/
structure KeyInv (S : Scheme κ π σ δ) (s : State κ π σ δ) : Prop where
  generated : ∀ key ∈ s.signings.map (·.1), ∃ n < s.generated, key = S.generate n
  once : (s.signings.map (·.1)).Nodup
  current : ∀ key, s.disk.keys = some ⟨some (some key), none⟩ →
    Unused S s key ∧ ∀ named, s.disk.namedKey s.published = some named → S.publicOf key = named

/-- The invariant of all runs. -/
structure Inv [DecidableEq δ] (S : Scheme κ π σ δ) (s : State κ π σ δ) : Prop where
  log : LogInv s
  seals : SealInv S s
  keys : KeyInv S s
  phase : ∀ phase, s.sealing = some phase → PhaseInv S s phase

/-! ### Steps of the log -/

variable {S : Scheme κ π σ δ} {s : State κ π σ δ} {d' : Disk κ π σ δ}

private theorem FirstDays.first_mem {d : Disk κ π σ δ} {first : Day} {days : List Day} (h : FirstDays d first days)
    (hne : days ≠ []) : first ∈ days := by
  rw [h.consecutive, List.mem_range'_1]
  have hpos := List.length_pos_iff.2 hne
  omega

private theorem FirstDays.logStep {d : Disk κ π σ δ} {first : Day} {days : List Day} (h : FirstDays d first days)
    (hlog : LogStep d d') : FirstDays d' first days where
  consecutive := h.consecutive
  closed := fun day hday => hlog.isClosed (h.closed day hday)
  oldest := by
    intro hne day hday
    exact hlog.oldest (h.closed first (h.first_mem hne)) (h.oldest hne) hday

theorem LogStep.namedKey {d : Disk κ π σ δ} (hlog : LogStep d d') (days : List Day) :
    d'.namedKey days = d.namedKey days := by
  unfold Disk.namedKey
  rw [hlog.root, hlog.seals]

section LogSteps

variable {d : Disk κ π σ δ} {published : List Day} (hlog : LogStep d d')

include hlog

private theorem Listed.logStep {days seals : List Day} (h : Listed d published days seals) :
    Listed d' published days seals where
  firstDays := by
    obtain ⟨first, hfirst⟩ := h.firstDays
    exact ⟨first, hfirst.logStep hlog⟩
  sealed := h.sealed
  initial := h.initial

private theorem Next.logStep {day : Day} (h : Next d published day) : Next d' published day := by
  obtain ⟨first, hfirst⟩ := h
  exact ⟨first, hfirst.logStep hlog⟩

private theorem DigestOf.logStep {day : Day} {digest : δ} (hnext : Next d published day) (h : DigestOf S d day digest) :
    DigestOf S d' day digest := by
  obtain ⟨content, hcontent, hdigest⟩ := h
  obtain ⟨first, hfirst⟩ := hnext
  have hclosed := hfirst.closed day (List.mem_append_right _ List.mem_cons_self)
  exact ⟨content, (hlog.content hclosed).trans hcontent, hdigest⟩

private theorem Holding.logStep {key : κ} {next : Option (KeyFile κ)} (h : Holding S d published key next) :
    Holding S d' published key next where
  keys := hlog.keys.trans h.keys
  named := (hlog.namedKey _).trans h.named

private theorem Beginning.logStep {keys : KeyDirectory κ} (h : Beginning d published keys) :
    Beginning d' published keys where
  root := hlog.root.trans h.root
  nothing := h.nothing
  keys := hlog.keys.trans h.keys

end LogSteps

section LogSteps

variable {closing : Option (List Day × Day)} {waiting : List Day} (hlog : LogStep s.disk d')

include hlog

private theorem PhaseInv.logStep {phase : Phase π σ δ} (h : PhaseInv S s phase)
    (hsettled : ∀ through, phase = .locked through → Settled d' through) :
    PhaseInv S { s with disk := d', closing := closing, waiting := waiting } phase := by
  cases phase with
  | locked through => exact hsettled through rfl
  | listed | rooted => exact Listed.logStep hlog h
  | made | created => exact ⟨h.1.logStep hlog, h.2.logStep hlog⟩
  | generated =>
    obtain ⟨hlisted, key, hbeginning, hpublic⟩ := h
    exact ⟨hlisted.logStep hlog, key, hbeginning.logStep hlog, hpublic⟩
  | prepared =>
    obtain ⟨hnext, key, hholding⟩ := h
    exact ⟨hnext.logStep hlog, key, hholding.logStep hlog⟩
  | digested =>
    obtain ⟨hnext, hdigest, key, hholding⟩ := h
    exact ⟨hnext.logStep hlog, hdigest.logStep hlog hnext, key, hholding.logStep hlog⟩
  | opened =>
    obtain ⟨hnext, hdigest, key, hholding, hunused⟩ := h
    exact ⟨hnext.logStep hlog, hdigest.logStep hlog hnext, key, hholding.logStep hlog, hunused⟩
  | written | signed | verified =>
    obtain ⟨hnext, hdigest, key, successor, hholding, hrest⟩ := h
    exact ⟨hnext.logStep hlog, hdigest.logStep hlog hnext, key, successor, hholding.logStep hlog, hrest⟩
  | published =>
    obtain ⟨key, successor, hkeys, hnamed, hunused⟩ := h
    exact ⟨key, successor, hlog.keys.trans hkeys, (hlog.namedKey _).trans hnamed, hunused⟩

/-- A step of the log keeps what is known of the seals, the keys and the task that seals. -/
private theorem Inv.logStep [DecidableEq δ] (h : Inv S s)
    (hnew : LogInv { s with disk := d', closing := closing, waiting := waiting })
    (hsettled : ∀ through, s.sealing = some (.locked through) → Settled d' through) :
    Inv S { s with disk := d', closing := closing, waiting := waiting } where
  log := hnew
  seals := by
    obtain ⟨first, hfirst⟩ := h.seals.days
    refine ⟨?_, ⟨first, hfirst.logStep hlog⟩, ?_, ?_⟩
    · simp only [hlog.seals]
      exact h.seals.seals
    · simp only [hlog.root]
      exact h.seals.root
    · intro root hroot
      obtain ⟨last, hverifies, hnamed⟩ := h.seals.verifies root (hlog.root.symm.trans hroot)
      refine ⟨last, ?_, (hlog.namedKey _).trans hnamed⟩
      rw [← hverifies]
      exact verifyAll_congr (fun day _ => by rw [hlog.seals]) (fun day hday => hlog.content (hfirst.closed day hday))
        root
  keys := by
    refine ⟨h.keys.generated, h.keys.once, fun key hkeys => ?_⟩
    obtain ⟨hunused, hnamed⟩ := h.keys.current key (hlog.keys.symm.trans hkeys)
    refine ⟨hunused, fun named h' => hnamed named ?_⟩
    rw [← hlog.namedKey]
    exact h'
  phase := by
    intro phase hphase
    refine (h.phase phase hphase).logStep hlog fun through heq => hsettled through ?_
    rw [hphase, heq]

end LogSteps

/-! ### The tasks that close days -/

section

variable [DecidableEq δ]

/-- What a task takes to be closed is settled. -/
theorem Inv.settled (h : Inv S s) {through : Day} (hthrough : s.goesThrough through) : Settled s.disk through := by
  rcases hthrough with hwaiting | hlocked
  · exact h.log.waiting through hwaiting
  · exact h.phase _ hlocked

/-- The log stays as it is. -/
private theorem Inv.sameLog (h : Inv S s) {closing : Option (List Day × Day)} {waiting : List Day}
    (hnew : LogInv { s with closing := closing, waiting := waiting }) :
    Inv S { s with closing := closing, waiting := waiting } :=
  h.logStep (.refl s.disk) hnew fun _ hlocked => h.settled (.inr hlocked)

theorem Inv.beginClosing (h : Inv S s) (now : Instant) (through : Day) : Inv S (s.beginClosing now through) := by
  unfold State.beginClosing
  by_cases hbusy : s.closing.isSome ∨ now.day ≤ through
  · rwa [if_pos hbusy]
  · rw [if_neg hbusy]
    cases hfirst : firstToClose s.disk.log through with
    | none =>
      refine h.sameLog ⟨h.log.closing, fun through' hmem => ?_⟩
      rcases List.mem_cons.1 hmem with rfl | hmem
      · exact settled_of_none hfirst
      · exact h.log.waiting through' hmem
    | some first =>
      refine h.sameLog ⟨fun days through' hclosing => ?_, h.log.waiting⟩
      obtain ⟨rfl, rfl⟩ := Prod.mk.inj (Option.some.inj hclosing)
      exact Closing.begin hfirst

theorem Inv.endClosing (h : Inv S s) : Inv S { s with closing := none } := by
  refine h.sameLog ⟨fun days through hclosing => ?_, h.log.waiting⟩
  cases hclosing

theorem Inv.replaceNext (h : Inv S s) (c : Codec ν) : Inv S (s.replaceNext c) := by
  unfold State.replaceNext
  cases hclosing : s.closing with
  | none => exact h
  | some left =>
    obtain ⟨days, through⟩ := left
    have hinv := h.log.closing days through hclosing
    cases days with
    | nil =>
      obtain ⟨hlog, hsettled, hthrough⟩ := hinv.mark
      refine h.logStep hlog ⟨fun days through' hnone => ?_, fun through' hmem => ?_⟩
        fun through' hlocked => hsettled through' (h.settled (.inr hlocked))
      · cases hnone
      · rcases List.mem_cons.1 hmem with rfl | hmem
        · exact hthrough
        · exact hsettled through' (h.settled (.inl hmem))
    | cons day days =>
      cases hclose : DayLog.closeDay c s.disk.log day with
      | error e => simpa only [hclose] using h.endClosing
      | ok content =>
        obtain ⟨hlog, hsettled, hrest⟩ := hinv.rewrite content
        simp only [hclose]
        refine h.logStep hlog ⟨fun days' through' hsome => ?_, fun through' hmem => ?_⟩
          fun through' hlocked => hsettled through' (h.settled (.inr hlocked))
        · obtain ⟨rfl, rfl⟩ := Prod.mk.inj (Option.some.inj hsome)
          exact hrest
        · exact hsettled through' (h.settled (.inl hmem))

theorem Inv.appendEntry (h : Inv S s) (c : Codec ν) {now : Instant} {logger level : Str} {event : Json ν}
    (hsound : s.Sound (.append now logger level event)) : Inv S (s.appendEntry c now logger level event) := by
  unfold State.appendEntry
  by_cases hbusy : s.closing.isSome
  · rwa [if_pos hbusy]
  · rw [if_neg hbusy]
    cases happend : DayLog.append c now logger level event s.disk.log with
    | error e => exact h
    | ok log =>
      obtain ⟨hlog, hsettled⟩ := logStep_append happend
      have hthrough : ∀ through, s.goesThrough through → Settled { s.disk with files := log.files } through :=
        fun through hgoes => hsettled through (fun hnone => hsound hnone through hgoes) (h.settled hgoes)
      refine h.logStep hlog ⟨fun days through hclosing => ?_, fun through hmem => hthrough through (.inl hmem)⟩
        fun through hlocked => hthrough through (.inr hlocked)
      exact absurd (by rw [hclosing]; rfl) hbusy

end

/-! ### Steps of the task that seals -/

private theorem LogInv.withKeys (h : LogInv s) (keys : Option (KeyDirectory κ)) (generated : Nat)
    (sealing : Option (Phase π σ δ)) :
    LogInv { s with disk := { s.disk with keys := keys }, generated := generated, sealing := sealing } where
  closing := fun days through hclosing =>
    ⟨(h.closing days through hclosing).after, (h.closing days through hclosing).oldest⟩
  waiting := h.waiting

/-- A key that has just been generated has signed nothing. -/
theorem KeyInv.unused_next (h : KeyInv S s) : S.generate s.generated ∉ s.signings.map (·.1) := by
  intro hmem
  obtain ⟨n, hn, heq⟩ := h.generated _ hmem
  have hsame := S.fresh heq
  omega

private theorem Listed.withKeys {days seals : List Day} (h : Listed s.disk s.published days seals)
    (keys : Option (KeyDirectory κ)) : Listed { s.disk with keys := keys } s.published days seals where
  firstDays := by
    obtain ⟨first, hfirst⟩ := h.firstDays
    exact ⟨first, hfirst.consecutive, hfirst.closed, hfirst.oldest⟩
  sealed := h.sealed
  initial := h.initial

private theorem Next.withKeys {day : Day} (h : Next s.disk s.published day) (keys : Option (KeyDirectory κ)) :
    Next { s.disk with keys := keys } s.published day := by
  obtain ⟨first, hfirst⟩ := h
  exact ⟨first, hfirst.consecutive, hfirst.closed, hfirst.oldest⟩

theorem Beginning.namedKey {d : Disk κ π σ δ} {published : List Day} {keys : KeyDirectory κ}
    (h : Beginning d published keys) : d.namedKey published = none := by
  rw [h.nothing]
  exact h.root

private theorem Closed.of_settled {d : Disk κ π σ δ} {day through : Day} (h : Settled d through) (hle : day ≤ through)
    (hfile : (d.files.get day).isSome) : Closed d day := by
  rcases h with ⟨closed, hclosed, hthrough⟩ | ⟨-, hnone⟩
  · exact ⟨⟨closed, hclosed, Nat.le_trans hle hthrough⟩, hfile⟩
  · rw [hnone day hle] at hfile
    cases hfile

theorem mem_daysThrough {d : Disk κ π σ δ} {through day : Day} :
    day ∈ d.daysThrough through ↔ (d.files.get day).isSome ∧ day ≤ through := by
  rw [Disk.daysThrough, mem_orderBy, List.mem_filter, Dict.mem_keys, decide_eq_true_iff]

private theorem listDays_ok {d : Disk κ π σ δ} {through : Day} {days : List Day} (hsettled : Settled d through)
    (h : d.listDays through = .ok days) : ∃ first, FirstDays d first days := by
  unfold Disk.listDays at h
  dsimp only at h
  cases hhead : (d.daysThrough through).head? with
  | none =>
    rw [hhead] at h
    obtain rfl := Except.ok.inj h
    rw [List.head?_eq_none_iff] at hhead
    rw [hhead]
    exact ⟨0, rfl, by simp, by simp⟩
  | some first =>
    rw [hhead] at h
    dsimp only at h
    obtain ⟨hrange, h⟩ := raiseIf_bind_eq_ok.1 h
    obtain rfl := Except.ok.inj h
    rw [not_not] at hrange
    have hmem : ∀ day, day ∈ d.daysThrough through → first ≤ day := by
      intro day hday
      rw [hrange] at hday
      exact (DayLog.mem_dayRange.1 hday).1
    have hfirst := mem_daysThrough.1 (List.mem_of_head? hhead)
    refine ⟨first, ?_, ?_, ?_⟩
    · rw [hrange, dayRange, List.length_range']
    · intro day hday
      obtain ⟨hfile, hle⟩ := mem_daysThrough.1 hday
      exact Closed.of_settled hsettled hle hfile
    · intro _ day hfile
      by_cases hle : day ≤ through
      · exact hmem day (mem_daysThrough.2 ⟨hfile, hle⟩)
      · exact Nat.le_trans hfirst.2 (Nat.le_of_not_le hle)

section

variable [DecidableEq δ]

/-- The seals that are listed are the published ones. -/
theorem SealInv.sealedDays (h : SealInv S s) : s.disk.sealedDays = s.published := by
  obtain ⟨first, hfirst⟩ := h.days
  have hmem : ∀ day, day ∈ s.disk.seals.keys ↔ day ∈ List.range' first s.published.length := by
    intro day
    rw [← hfirst.consecutive, Dict.mem_keys]
    exact h.seals day
  have hsorted := orderBy_eq_range' s.disk.seals.keys_nodup hmem
  rw [Disk.sealedDays, hsorted]
  exact hfirst.consecutive.symm

theorem SealInv.listSeals (h : SealInv S s) {days seals : List Day} (hlist : s.disk.listSeals days = .ok seals) :
    seals = s.published ∧ s.published = days.take s.published.length := by
  unfold Disk.listSeals at hlist
  rw [h.sealedDays] at hlist
  obtain ⟨hinitial, hlist⟩ := raiseIf_bind_eq_ok.1 hlist
  exact ⟨(Except.ok.inj hlist).symm, not_not.1 hinitial⟩

/-- Only the phase changes. -/
private theorem Inv.goto (h : Inv S s) {sealing : Option (Phase π σ δ)}
    (hphase : ∀ phase, sealing = some phase → PhaseInv S s phase) : Inv S { s with sealing := sealing } where
  log := ⟨h.log.closing, h.log.waiting⟩
  seals := ⟨h.seals.seals, h.seals.days, h.seals.root, h.seals.verifies⟩
  keys := ⟨h.keys.generated, h.keys.once, h.keys.current⟩
  phase := by
    intro phase hsome
    have hinv := hphase phase hsome
    cases phase <;> exact hinv

/-- The seals stay as they are while the key directory changes. -/
private theorem SealInv.withKeys (h : SealInv S s) (keys : Option (KeyDirectory κ)) (generated : Nat)
    (sealing : Option (Phase π σ δ)) :
    SealInv S { s with disk := { s.disk with keys := keys }, generated := generated, sealing := sealing } where
  seals := h.seals
  days := by
    obtain ⟨first, hfirst⟩ := h.days
    exact ⟨first, hfirst.consecutive, hfirst.closed, hfirst.oldest⟩
  root := h.root
  verifies := by
    intro root hroot
    obtain ⟨last, hverifies, hnamed⟩ := h.verifies root hroot
    refine ⟨last, ?_, hnamed⟩
    rw [← hverifies]
    exact verifyAll_congr (fun _ _ => rfl) (fun _ _ => rfl) root

/-- The key directory changes.  A current key alone has to be unused and the one that the chain names. -/
private theorem Inv.withKeys (h : Inv S s) {keys : KeyDirectory κ} {generated : Nat} {sealing : Option (Phase π σ δ)}
    (hgenerated : s.generated ≤ generated)
    (hkeys : ∀ key, keys = ⟨some (some key), none⟩ →
      ((∃ n < generated, key = S.generate n) ∧ key ∉ s.signings.map (·.1)) ∧
        ∀ named, s.disk.namedKey s.published = some named → S.publicOf key = named)
    (hphase : ∀ phase, sealing = some phase → PhaseInv S { s with
      disk := { s.disk with keys := some keys }, generated := generated, sealing := sealing } phase) :
    Inv S { s with disk := { s.disk with keys := some keys }, generated := generated, sealing := sealing } where
  log := h.log.withKeys _ _ _
  seals := h.seals.withKeys _ _ _
  keys := by
    refine ⟨fun key hkey => ?_, h.keys.once, fun key hcurrent => hkeys key (Option.some.inj hcurrent)⟩
    obtain ⟨n, hn, heq⟩ := h.keys.generated key hkey
    exact ⟨n, Nat.lt_of_lt_of_le hn hgenerated, heq⟩
  phase := hphase

variable [DecidableEq π] {datetime : Str} {s' : State κ π σ δ}

/-! `prepare` -/

private theorem Inv.step_locked (h : Inv S s) {through : Day} (hphase : PhaseInv S s (.locked through))
    (hstep : s.sealStep S datetime (.locked through) = .ok s') : Inv S s' := by
  rw [State.sealStep] at hstep
  obtain ⟨days, hdays, hstep⟩ := bind_eq_ok hstep
  obtain ⟨seals, hseals, hstep⟩ := bind_eq_ok hstep
  obtain rfl := Except.ok.inj hstep
  obtain ⟨hsealed, hinitial⟩ := h.seals.listSeals hseals
  refine h.goto fun phase hsome => ?_
  obtain rfl := Option.some.inj hsome
  exact ⟨listDays_ok hphase hdays, hsealed, hinitial⟩

private theorem Inv.step_listed (h : Inv S s) {days seals : List Day} (hphase : PhaseInv S s (.listed days seals))
    (hstep : s.sealStep S datetime (.listed days seals) = .ok s') : Inv S s' := by
  have hlisted : Listed s.disk s.published days seals := hphase
  rw [State.sealStep] at hstep
  by_cases hroot : s.disk.root.isSome
  · rw [if_pos hroot] at hstep
    obtain rfl := Except.ok.inj hstep
    refine h.goto fun phase hsome => ?_
    obtain rfl := Option.some.inj hsome
    exact hlisted
  · rw [if_neg hroot] at hstep
    obtain ⟨hnone, hstep⟩ := raiseIf_bind_eq_ok.1 hstep
    obtain ⟨disk, hmake, hstep⟩ := bind_eq_ok hstep
    obtain rfl := Except.ok.inj hstep
    obtain ⟨-, hmake⟩ := raiseIf_bind_eq_ok.1 hmake
    obtain rfl := Except.ok.inj hmake
    have hpublished : s.published = [] := hlisted.sealed.symm.trans (not_not.1 hnone)
    refine h.withKeys (Nat.le_refl _) (by simp) fun phase hsome => ?_
    obtain rfl := Option.some.inj hsome
    exact ⟨hlisted.withKeys _, by simpa using hroot, hpublished, rfl⟩

private theorem Inv.step_made (h : Inv S s) {days seals : List Day} (hphase : PhaseInv S s (.made days seals))
    (hstep : s.sealStep S datetime (.made days seals) = .ok s') : Inv S s' := by
  obtain ⟨hlisted, hbeginning⟩ := hphase
  rw [State.sealStep] at hstep
  obtain ⟨disk, hcreate, hstep⟩ := bind_eq_ok hstep
  obtain rfl := Except.ok.inj hstep
  obtain ⟨keys, hkeys, hcreate⟩ := demand_bind_eq_ok.1 hcreate
  obtain ⟨-, hcreate⟩ := raiseIf_bind_eq_ok.1 hcreate
  obtain rfl := Except.ok.inj hcreate
  obtain rfl : keys = ⟨none, none⟩ := Option.some.inj (hkeys.symm.trans hbeginning.keys)
  refine h.withKeys (Nat.le_refl _) (by simp) fun phase hsome => ?_
  obtain rfl := Option.some.inj hsome
  exact ⟨hlisted.withKeys _, hbeginning.root, hbeginning.nothing, rfl⟩

private theorem Inv.step_created (h : Inv S s) {days seals : List Day} (hphase : PhaseInv S s (.created days seals))
    (hstep : s.sealStep S datetime (.created days seals) = .ok s') : Inv S s' := by
  obtain ⟨hlisted, hbeginning⟩ := hphase
  rw [State.sealStep, Disk.writeCurrent, hbeginning.keys] at hstep
  obtain rfl := Except.ok.inj hstep
  refine h.withKeys (Nat.le_succ _) (fun key hkey => ⟨⟨⟨s.generated, Nat.lt_succ_self _, ?_⟩, ?_⟩, ?_⟩)
    fun phase hsome => ?_
  · exact (Option.some.inj (Option.some.inj (congrArg KeyDirectory.current hkey))).symm
  · rw [← Option.some.inj (Option.some.inj (congrArg KeyDirectory.current hkey))]
    exact h.keys.unused_next
  · intro named hnamed
    rw [hbeginning.namedKey] at hnamed
    cases hnamed
  · obtain rfl := Option.some.inj hsome
    exact ⟨hlisted.withKeys _, _, ⟨hbeginning.root, hbeginning.nothing, rfl⟩, rfl⟩

private theorem Inv.step_generated (h : Inv S s) {days seals : List Day} {publicKey : π}
    (hphase : PhaseInv S s (.generated days seals publicKey))
    (hstep : s.sealStep S datetime (.generated days seals publicKey) = .ok s') : Inv S s' := by
  obtain ⟨hlisted, key, hbeginning, rfl⟩ := hphase
  rw [State.sealStep] at hstep
  obtain ⟨disk, hpublish, hstep⟩ := bind_eq_ok hstep
  obtain rfl := Except.ok.inj hstep
  obtain ⟨-, hpublish⟩ := raiseIf_bind_eq_ok.1 hpublish
  obtain rfl := Except.ok.inj hpublish
  have hnothing := hbeginning.nothing
  have hnamed : Disk.namedKey { s.disk with root := some (S.publicOf key) } s.published = some (S.publicOf key) := by
    rw [hnothing]
    rfl
  constructor
  · exact ⟨fun days through hclosing =>
      ⟨(h.log.closing days through hclosing).after, (h.log.closing days through hclosing).oldest⟩, h.log.waiting⟩
  · refine ⟨h.seals.seals, ⟨0, ?_⟩, fun _ => rfl, fun root hroot => ⟨root, ?_, hnamed.trans hroot⟩⟩
    · simp only [hnothing]
      exact ⟨rfl, by simp, by simp⟩
    · simp only [hnothing]
      rfl
  · refine ⟨h.keys.generated, h.keys.once, fun current hcurrent => ?_⟩
    obtain ⟨hunused, -⟩ := h.keys.current current hcurrent
    refine ⟨hunused, fun named h' => ?_⟩
    have hkey : key = current := by
      have heq := Option.some.inj (hbeginning.keys.symm.trans hcurrent)
      exact Option.some.inj (Option.some.inj (congrArg KeyDirectory.current heq))
    rw [← hkey]
    exact Option.some.inj (hnamed.symm.trans h')
  · intro phase hsome
    obtain rfl := Option.some.inj hsome
    obtain ⟨first, hfirst⟩ := hlisted.firstDays
    exact ⟨⟨first, hfirst.consecutive, hfirst.closed, hfirst.oldest⟩, hlisted.sealed, hlisted.initial⟩

private theorem Inv.step_rooted (h : Inv S s) {days seals : List Day} (hphase : PhaseInv S s (.rooted days seals))
    (hstep : s.sealStep S datetime (.rooted days seals) = .ok s') : Inv S s' := by
  have hlisted : Listed s.disk s.published days seals := hphase
  rw [State.sealStep] at hstep
  obtain ⟨_, hcheck, hstep⟩ := bind_eq_ok hstep
  obtain rfl := Except.ok.inj hstep
  refine h.goto fun phase hsome => ?_
  obtain ⟨day, hday, rfl⟩ := Option.map_eq_some_iff.1 hsome
  obtain ⟨root, key, hroot, hkeys, -⟩ := checkKeys_eq_ok.1 hcheck
  obtain ⟨last, -, hlast⟩ := h.seals.verifies root hroot
  obtain ⟨-, hnamed⟩ := h.keys.current key hkeys
  refine ⟨?_, key, hkeys, ?_⟩
  · obtain ⟨first, hfirst⟩ := hlisted.firstDays
    rw [hlisted.sealed] at hday
    have hdays : s.published ++ [day] = days.take (s.published.length + 1) := by
      rw [List.take_add_one, hday, ← hlisted.initial]
      rfl
    refine ⟨first, ?_, ?_, ?_⟩
    · have hlength : (s.published ++ [day]).length = s.published.length + 1 := List.length_append
      have hlt : s.published.length < days.length := (List.getElem?_eq_some_iff.1 hday).1
      rw [hlength, hdays, hfirst.consecutive]
      exact List.take_range'_of_length_ge hlt
    · intro x hx
      rw [hdays] at hx
      exact hfirst.closed x (List.mem_of_mem_take hx)
    · intro _
      apply hfirst.oldest
      rintro rfl
      cases hday
  · rw [hlast, hnamed last hlast]

/-! `seal` -/

private theorem Inv.step_prepared (h : Inv S s) {day : Day} (hphase : PhaseInv S s (.prepared day))
    (hstep : s.sealStep S datetime (.prepared day) = .ok s') : Inv S s' := by
  obtain ⟨hnext, hholding⟩ := hphase
  rw [State.sealStep] at hstep
  obtain ⟨-, hread⟩ := raiseIf_bind_eq_ok.1 hstep
  obtain ⟨content, hcontent, hdigested⟩ := demand_bind_eq_ok.1 hread
  obtain rfl := Except.ok.inj hdigested
  refine h.goto fun phase hsome => ?_
  obtain rfl := Option.some.inj hsome
  exact ⟨hnext, ⟨content, hcontent, rfl⟩, hholding⟩

private theorem Inv.step_digested (h : Inv S s) {day : Day} {digest : δ} (hphase : PhaseInv S s (.digested day digest))
    (hstep : s.sealStep S datetime (.digested day digest) = .ok s') : Inv S s' := by
  obtain ⟨hnext, hdigest, key, hholding⟩ := hphase
  rw [State.sealStep] at hstep
  obtain ⟨disk, hcreate, hopened⟩ := bind_eq_ok hstep
  obtain rfl := Except.ok.inj hopened
  obtain ⟨keys, hkeys, hnone⟩ := demand_bind_eq_ok.1 hcreate
  obtain ⟨-, hdisk⟩ := raiseIf_bind_eq_ok.1 hnone
  obtain rfl := Except.ok.inj hdisk
  obtain rfl : keys = ⟨some (some key), none⟩ := Option.some.inj (hkeys.symm.trans hholding.keys)
  refine h.withKeys (Nat.le_refl _) (by simp) fun phase hsome => ?_
  obtain rfl := Option.some.inj hsome
  exact ⟨hnext.withKeys _, hdigest, key, ⟨rfl, hholding.named⟩, (h.keys.current key hholding.keys).1⟩

private theorem Inv.step_opened (h : Inv S s) {day : Day} {digest : δ} (hphase : PhaseInv S s (.opened day digest))
    (hstep : s.sealStep S datetime (.opened day digest) = .ok s') : Inv S s' := by
  obtain ⟨hnext, hdigest, key, hholding, ⟨n, hn, hkey⟩, hunused⟩ := hphase
  rw [State.sealStep, Disk.writeNext, hholding.keys] at hstep
  obtain rfl := Except.ok.inj hstep
  refine h.withKeys (Nat.le_succ _) (by simp) fun phase hsome => ?_
  obtain rfl := Option.some.inj hsome
  refine ⟨hnext.withKeys _, hdigest, key, S.generate s.generated, ⟨rfl, hholding.named⟩, ⟨⟨n, ?_, hkey⟩, hunused⟩,
    ⟨⟨s.generated, Nat.lt_succ_self _, rfl⟩, h.keys.unused_next⟩, ?_, rfl⟩
  · exact Nat.lt_succ_of_lt hn
  · intro heq
    have hsame : n = s.generated := S.fresh (hkey.symm.trans heq)
    omega

private theorem Inv.step_written (h : Inv S s) {day : Day} {record : Record π δ}
    (hphase : PhaseInv S s (.written day record))
    (hstep : s.sealStep S datetime (.written day record) = .ok s') : Inv S s' := by
  obtain ⟨hnext, hdigest, key, successor, hholding, hunused, hunused', hne, hrecord⟩ := hphase
  rw [State.sealStep, currentKey_eq_ok.2 ⟨_, hholding.keys⟩] at hstep
  obtain rfl := Except.ok.inj hstep
  have hkeys : (s.signings ++ [(key, record)]).map (·.1) = s.signings.map (·.1) ++ [key] := by simp
  constructor
  · exact ⟨h.log.closing, h.log.waiting⟩
  · exact ⟨h.seals.seals, h.seals.days, h.seals.root, h.seals.verifies⟩
  · constructor
    · intro key' hmem
      rw [hkeys, List.mem_append, List.mem_singleton] at hmem
      rcases hmem with hmem | rfl
      · exact h.keys.generated key' hmem
      · exact hunused.1
    · rw [hkeys, List.nodup_append_comm, List.singleton_append, List.nodup_cons]
      exact ⟨hunused.2, h.keys.once⟩
    · intro key' hcurrent
      have heq := Option.some.inj (hholding.keys.symm.trans hcurrent)
      cases congrArg KeyDirectory.next heq
  · intro phase hsome
    obtain rfl := Option.some.inj hsome
    refine ⟨hnext, hdigest, key, successor, ⟨hholding.keys, hholding.named⟩, ⟨hunused'.1, ?_⟩, hrecord⟩
    rw [hkeys, List.mem_append, List.mem_singleton, not_or]
    exact ⟨hunused'.2, hne.symm⟩

private theorem Inv.step_signed (h : Inv S s) {day : Day} {sealed : Seal π σ δ}
    (hphase : PhaseInv S s (.signed day sealed))
    (hstep : s.sealStep S datetime (.signed day sealed) = .ok s') : Inv S s' := by
  obtain ⟨hnext, hdigest, key, successor, hholding, hunused, hrecord⟩ := hphase
  rw [State.sealStep, currentKey_eq_ok.2 ⟨_, hholding.keys⟩, ok_bind] at hstep
  obtain ⟨hverify, hverified⟩ := raiseIf_bind_eq_ok.1 hstep
  obtain rfl := Except.ok.inj hverified
  refine h.goto fun phase hsome => ?_
  obtain rfl := Option.some.inj hsome
  exact ⟨hnext, hdigest, key, successor, hholding, hunused, hrecord, by simpa using hverify⟩

private theorem Inv.step_verified (h : Inv S s) {day : Day} {sealed : Seal π σ δ}
    (hphase : PhaseInv S s (.verified day sealed))
    (hstep : s.sealStep S datetime (.verified day sealed) = .ok s') : Inv S s' := by
  obtain ⟨⟨first, hfirst⟩, ⟨content, hcontent, hdigest⟩, key, successor, hholding, hunused, hrecord, hverify⟩ := hphase
  rw [State.sealStep] at hstep
  obtain ⟨disk, hpublish, hpublished⟩ := bind_eq_ok hstep
  obtain rfl := Except.ok.inj hpublished
  obtain ⟨hfree, hdisk⟩ := raiseIf_bind_eq_ok.1 hpublish
  obtain rfl := Except.ok.inj hdisk
  have hget : ∀ x, (s.disk.seals.set day sealed).get x = if x = day then some sealed else s.disk.seals.get x :=
    fun x => Dict.get_set _ _ _ _
  have hnew : day ∉ s.published := fun hmem => hfree ((h.seals.seals day).2 hmem)
  have hnamed : Disk.namedKey { s.disk with seals := s.disk.seals.set day sealed } (s.published ++ [day]) =
      some (S.publicOf successor) := by
    rw [Disk.namedKey, List.getLast?_concat]
    simp [hrecord]
  have hroot : s.disk.root.isSome := by
    by_cases hempty : s.published = []
    · have hroot := hholding.named
      rw [hempty] at hroot
      exact Option.isSome_iff_exists.2 ⟨_, hroot⟩
    · exact h.seals.root hempty
  constructor
  · exact ⟨fun days through hclosing =>
      ⟨(h.log.closing days through hclosing).after, (h.log.closing days through hclosing).oldest⟩, h.log.waiting⟩
  · refine ⟨fun x => ?_, ⟨first, hfirst.consecutive, hfirst.closed, hfirst.oldest⟩, fun _ => hroot,
      fun root hsome => ⟨S.publicOf successor, ?_, hnamed⟩⟩
    · simp only [hget, List.mem_append, List.mem_singleton]
      by_cases hx : x = day
      · simp [hx]
      · simp only [hx, if_false, or_false]
        exact h.seals.seals x
    · obtain ⟨last, hverifies, hlast⟩ := h.seals.verifies root hsome
      obtain rfl : last = S.publicOf key := Option.some.inj (hlast.symm.trans hholding.named)
      have hold : Disk.verifyAll S { s.disk with seals := s.disk.seals.set day sealed } s.published root =
          .ok (S.publicOf key) := by
        have hsame : ∀ x ∈ s.published, (s.disk.seals.set day sealed).get x = s.disk.seals.get x := by
          intro x hx
          rw [hget, if_neg]
          rintro rfl
          exact hnew hx
        rw [← hverifies]
        exact @verifyAll_congr κ π σ δ s.disk { s.disk with seals := s.disk.seals.set day sealed } _ S s.published hsame
          (fun _ _ => rfl) root
      refine verifyAll_concat hold ?_
      simp [Disk.verify, hget, demand, raiseIf, hverify, hcontent, hdigest, hrecord]
  · refine ⟨h.keys.generated, h.keys.once, fun key' hcurrent => ?_⟩
    have heq := Option.some.inj (hholding.keys.symm.trans hcurrent)
    cases congrArg KeyDirectory.next heq
  · intro phase hsome
    obtain rfl := Option.some.inj hsome
    exact ⟨key, successor, hholding.keys, hnamed, hunused⟩

private theorem Inv.step_published (h : Inv S s) (hphase : PhaseInv S s .published)
    (hstep : s.sealStep S datetime .published = .ok s') : Inv S s' := by
  obtain ⟨key, successor, hkeys, hnamed, hunused⟩ := hphase
  rw [State.sealStep] at hstep
  obtain ⟨disk, hreplace, hdone⟩ := bind_eq_ok hstep
  obtain rfl := Except.ok.inj hdone
  obtain ⟨keys, hkeys', hfile⟩ := demand_bind_eq_ok.1 hreplace
  obtain rfl : keys = ⟨some (some key), some (some successor)⟩ := Option.some.inj (hkeys'.symm.trans hkeys)
  obtain rfl := Except.ok.inj hfile
  refine h.withKeys (Nat.le_refl _) (fun key' hcurrent => ?_) (by simp)
  have hsame : successor = key' := Option.some.inj (Option.some.inj (congrArg KeyDirectory.current hcurrent))
  rw [← hsame]
  refine ⟨hunused, fun named h' => ?_⟩
  exact Option.some.inj (hnamed.symm.trans h')

/-- Every step of the task that seals keeps the invariant. -/
private theorem Inv.sealStep (h : Inv S s) {phase : Phase π σ δ} (hphase : PhaseInv S s phase)
    (hstep : s.sealStep S datetime phase = .ok s') : Inv S s' := by
  cases phase with
  | locked => exact h.step_locked hphase hstep
  | listed => exact h.step_listed hphase hstep
  | made => exact h.step_made hphase hstep
  | created => exact h.step_created hphase hstep
  | generated => exact h.step_generated hphase hstep
  | rooted => exact h.step_rooted hphase hstep
  | prepared => exact h.step_prepared hphase hstep
  | digested => exact h.step_digested hphase hstep
  | opened => exact h.step_opened hphase hstep
  | written => exact h.step_written hphase hstep
  | signed => exact h.step_signed hphase hstep
  | verified => exact h.step_verified hphase hstep
  | published => exact h.step_published hphase hstep

/-! ### Runs -/

theorem Inv.step (h : Inv S s) (c : Codec ν) {e : Event ν} (hsound : s.Sound e) : Inv S (s.step c S e) := by
  cases e with
  | close now through => exact h.beginClosing now through
  | replace => exact h.replaceNext c
  | endClosing => exact h.endClosing
  | append now logger level event => exact h.appendEntry c hsound
  | lock through =>
    rw [State.step]
    by_cases hfree : through ∈ s.waiting ∧ s.sealing.isNone
    · rw [if_pos hfree]
      have hwaiting : Inv S { s with waiting := s.waiting.erase through } :=
        h.sameLog ⟨h.log.closing, fun day hmem => h.log.waiting day (List.mem_of_mem_erase hmem)⟩
      refine hwaiting.goto fun phase hsome => ?_
      obtain rfl := Option.some.inj hsome
      exact h.log.waiting through hfree.1
    · rwa [if_neg hfree]
  | advance datetime =>
    rw [State.step]
    cases hsealing : s.sealing with
    | none => exact h
    | some phase =>
      cases hstep : s.sealStep S datetime phase with
      | ok s' => simpa only [hstep] using h.sealStep (h.phase phase hsealing) hstep
      | error e =>
        simp only [hstep]
        refine h.goto fun phase hsome => ?_
        cases hsome
  | endSealing =>
    refine h.goto fun phase hsome => ?_
    cases hsome

theorem Inv.run (h : Inv S s) (c : Codec ν) {events : List (Event ν)} (hsound : s.SoundRun c S events) :
    Inv S (s.run c S events) := by
  unfold State.run
  induction events generalizing s with
  | nil => exact h
  | cons e events ih => exact ih (h.step c hsound.1) hsound.2

omit [DecidableEq π] in
theorem Inv.start (S : Scheme κ π σ δ) (files : Dict Day Bytes) (closed : Option Day) :
    Inv S (.start files closed) where
  log := ⟨by simp [State.start], by simp [State.start]⟩
  seals := ⟨by simp [State.start], ⟨0, rfl, by simp [State.start], by simp [State.start]⟩, by simp [State.start],
    by simp [State.start]⟩
  keys := ⟨by simp [State.start], by simp [State.start], by simp [State.start]⟩
  phase := by simp [State.start]

end

end Sealing

end TrustedReleases
