import TrustedReleases.Lib.Dict
import TrustedReleases.Lib.Str

/-!
# The rate limit of connections

The SSH server (`atr/ssh.py`) keeps the times of the connections that it has let in, for each address and for each user,
and drops those that are older than a minute when the next one comes or when a loop cleans up.  Whatever is dropped when,
a connection is refused exactly when as many as the limit have been let in within the last minute (`rate_limited`).
-/

namespace TrustedReleases

open Lib

namespace Ssh

/-- `_RATE_WINDOW`, in nanoseconds. -/
def RATE_WINDOW : Nat := 60 * 1000000000

/-- The times of the connections of each key, oldest first. -/
abbrev Buckets := Dict Str (List Nat)

/-- A time is out of the window. -/
def isOld (now t : Nat) : Bool := RATE_WINDOW < now - t

/-- `_rate_limit_check` -/
def rateLimitCheck (bucket : Buckets) (key : Str) (limit now : Nat) : Bool × Buckets :=
  match bucket.get key with
  | none => (true, bucket.set key [now])
  | some window =>
    let window := window.dropWhile (isOld now)
    if window ≠ [] ∧ limit ≤ window.length then (false, bucket.set key window)
    else (true, bucket.set key (window ++ [now]))

def isStale (now : Nat) (window : List Nat) : Bool :=
  match window.getLast? with
  | none => true
  | some last => isOld now last

/-- One round of `rate_limit_cleanup_loop`. -/
def cleanup (bucket : Buckets) (now : Nat) : Buckets :=
  let staleKeys := bucket.keys.filter fun key => (bucket.get key).any (isStale now)
  if staleKeys.length = bucket.keys.length then ∅ else staleKeys.foldl Dict.pop bucket

inductive Event where
  | check (key : Str) (now : Nat)
  | cleanup (now : Nat)

def Event.now : Event → Nat
  | check _ now => now
  | cleanup now => now

/-- A connection, and whether it is let in. -/
structure Outcome where
  key : Str
  now : Nat
  allowed : Bool
  deriving DecidableEq

/-- The connections of a run, in their order. -/
def outcomes (limit : Nat) : Buckets → List Event → List Outcome
  | _, [] => []
  | bucket, .check key now :: events =>
    ⟨key, now, (rateLimitCheck bucket key limit now).1⟩ ::
      outcomes limit (rateLimitCheck bucket key limit now).2 events
  | bucket, .cleanup now :: events => outcomes limit (cleanup bucket now) events

/-- The connections of a key that have been let in. -/
def isAllowed (key : Str) (o : Outcome) : Bool := o.allowed && o.key = key

/-- How many connections of a key have been let in within the last minute. -/
def recent (past : List Outcome) (key : Str) (now : Nat) : Nat :=
  past.countP fun o => isAllowed key o && !isOld now o.now

/-! ### Windows -/

/-- Dropping from the front what a condition holds of, where it holds of whatever comes before. -/
private theorem dropWhile_eq_filter {p : Nat → Bool} {l : List Nat}
    (h : l.Pairwise fun a b => p b = true → p a = true) :
    l.dropWhile p = l.filter fun a => !p a := by
  induction l with
  | nil => rfl
  | cons a l ih =>
    rw [List.pairwise_cons] at h
    cases ha : p a with
    | true =>
      have hdrop : (a :: l).dropWhile p = l.dropWhile p := by simp [ha]
      have hfilter : (a :: l).filter (fun a => !p a) = l.filter fun a => !p a := by simp [ha]
      rw [hdrop, hfilter]
      exact ih h.2
    | false =>
      have hall : ∀ b ∈ l, p b = false := by
        intro b hb
        cases hpb : p b with
        | false => rfl
        | true =>
          have hpa := h.1 b hb hpb
          rw [ha] at hpa
          exact hpa.symm
      have hdrop : (a :: l).dropWhile p = a :: l := by simp [ha]
      have hfilter : l.filter (fun a => !p a) = l := List.filter_eq_self.2 fun b hb => by simp [hall b hb]
      rw [hdrop, List.filter_cons_of_pos (by simp [ha]), hfilter]

private theorem isOld_mono {now now' t t' : Nat} (hnow : now ≤ now') (ht : t' ≤ t) (h : isOld now t = true) :
    isOld now' t' = true := by
  simp only [isOld, decide_eq_true_eq] at h ⊢
  omega

private theorem get_foldl_pop {keys : List Str} {bucket : Buckets} {key : Str} :
    (keys.foldl Dict.pop bucket).get key = if key ∈ keys then none else bucket.get key := by
  induction keys generalizing bucket with
  | nil => simp
  | cons k keys ih =>
    rw [List.foldl_cons, ih, Dict.get_pop]
    by_cases hmem : key ∈ keys
    · simp [hmem]
    · by_cases hk : key = k
      · simp [hk]
      · simp [hk, hmem]

/-- The loop forgets the windows that are stale. -/
private theorem get_cleanup (bucket : Buckets) (now : Nat) (key : Str) :
    (cleanup bucket now).get key = (bucket.get key).filter fun window => !isStale now window := by
  have hkeep : (bucket.get key).filter (fun window => !isStale now window) =
      if (bucket.get key).any (isStale now) then none else bucket.get key := by
    cases bucket.get key with
    | none => rfl
    | some window => cases hstale : isStale now window <;> simp [hstale]
  rw [hkeep]
  unfold cleanup
  dsimp only
  split
  next hall =>
    have hstale : ∀ k ∈ bucket.keys, (bucket.get k).any (isStale now) = true :=
      List.length_filter_eq_length_iff.1 hall
    cases hget : bucket.get key with
    | none => simp
    | some window =>
      have hkey := hstale key (Dict.mem_keys_of_get hget)
      rw [hget] at hkey
      rw [if_pos hkey]
      exact Dict.get_empty key
  next =>
    rw [get_foldl_pop]
    cases hget : bucket.get key with
    | none => simp
    | some window =>
      have hmem := Dict.mem_keys_of_get hget
      simp [List.mem_filter, hmem, hget]

/-! ### What the buckets keep -/

/-- The times of the connections of a key that have been let in. -/
def times (past : List Outcome) (key : Str) : List Nat := (past.filter (isAllowed key)).map Outcome.now

private theorem recent_eq (past : List Outcome) (key : Str) (now : Nat) :
    recent past key now = ((times past key).filter fun t => !isOld now t).length := by
  rw [recent, times, ← List.countP_eq_length_filter, List.countP_map, List.countP_filter]
  refine List.countP_congr fun o _ => ?_
  simp [Bool.and_comm]

/-- The buckets hold the times that have been let in, up to some that are old. -/
structure Tracks (past : List Outcome) (bucket : Buckets) (clock : Nat) : Prop where
  kept : ∀ key, ∃ old, times past key = old ++ (bucket.get key).getD [] ∧ ∀ t ∈ old, isOld clock t = true
  ordered : ∀ key, (times past key).Pairwise (· ≤ ·)
  past_le : ∀ key, ∀ t ∈ times past key, t ≤ clock

theorem Tracks.init : Tracks [] ∅ 0 := by
  refine ⟨fun key => ⟨[], rfl, fun t ht => ?_⟩, fun key => List.Pairwise.nil, fun key t ht => ?_⟩
  · exact absurd ht List.not_mem_nil
  · exact absurd ht List.not_mem_nil

section Step

variable {past : List Outcome} {bucket : Buckets} {clock now limit : Nat} {key : Str}

theorem Tracks.later (h : Tracks past bucket clock) (hnow : clock ≤ now) : Tracks past bucket now := by
  refine ⟨fun key => ?_, h.ordered, fun key t ht => (h.past_le key t ht).trans hnow⟩
  obtain ⟨old, heq, hold⟩ := h.kept key
  exact ⟨old, heq, fun t ht => isOld_mono hnow le_rfl (hold t ht)⟩

/-- The window of a key without what is old has the recent connections. -/
theorem Tracks.window (h : Tracks past bucket now) (key : Str) :
    ((times past key).filter fun t => !isOld now t) = ((bucket.get key).getD []).dropWhile (isOld now) := by
  obtain ⟨old, heq, hold⟩ := h.kept key
  have hordered := h.ordered key
  rw [heq] at hordered ⊢
  have hwindow : ((bucket.get key).getD []).Pairwise fun a b => isOld now b = true → isOld now a = true :=
    (List.pairwise_append.1 hordered).2.1.imp fun hab hb => isOld_mono le_rfl hab hb
  have hnone : old.filter (fun t => !isOld now t) = [] := List.filter_eq_nil_iff.2 fun t ht => by simp [hold t ht]
  rw [dropWhile_eq_filter hwindow, List.filter_append, hnone, List.nil_append]

private theorem Tracks.cleanup (h : Tracks past bucket now) : Tracks past (Ssh.cleanup bucket now) now := by
  refine ⟨fun key => ?_, h.ordered, h.past_le⟩
  obtain ⟨old, heq, hold⟩ := h.kept key
  rw [get_cleanup]
  cases hget : bucket.get key with
  | none =>
    rw [hget] at heq
    exact ⟨old, heq, hold⟩
  | some window =>
    rw [hget] at heq
    cases hstale : isStale now window with
    | false => exact ⟨old, by simpa [Option.filter, hstale] using heq, hold⟩
    | true =>
      -- the last time of a stale window is old, so all of it is
      have hall : ∀ t ∈ window, isOld now t = true := by
        intro t ht
        have hne : window ≠ [] := List.ne_nil_of_mem ht
        rw [isStale, List.getLast?_eq_some_getLast hne] at hstale
        have hordered := h.ordered key
        rw [heq] at hordered
        have hle : t ≤ window.getLast hne := by
          have hwindow := (List.pairwise_append.1 hordered).2.1
          exact hwindow.rel_getLast ht
        exact isOld_mono le_rfl hle hstale
      refine ⟨old ++ window, by simpa [Option.filter, hstale] using heq, fun t ht => ?_⟩
      rcases List.mem_append.1 ht with ht | ht
      · exact hold t ht
      · exact hall t ht

/-- The decision, and the window that is left. -/
private theorem Tracks.rateLimitCheck_eq (h : Tracks past bucket now) (key : Str) (limit : Nat) :
    ∃ allowed, rateLimitCheck bucket key limit now =
        (allowed, bucket.set key ((times past key).filter (fun t => !isOld now t) ++ if allowed then [now] else [])) ∧
      (allowed = true ↔ recent past key now = 0 ∨ recent past key now < limit) := by
  have hrecent := recent_eq past key now
  rw [h.window key] at hrecent ⊢
  unfold rateLimitCheck
  cases hget : bucket.get key with
  | none =>
    rw [hget] at hrecent
    exact ⟨true, rfl, by simpa using Or.inl hrecent⟩
  | some window =>
    rw [hget, Option.getD_some] at hrecent
    dsimp only [Option.getD_some]
    split
    next hfull =>
      refine ⟨false, by simp, ?_⟩
      have hpos : 0 < (window.dropWhile (isOld now)).length := List.length_pos_iff.2 hfull.1
      have hle := hfull.2
      simp only [Bool.false_eq_true, false_iff]
      omega
    next hfull =>
      refine ⟨true, by simp, ?_⟩
      simp only [true_iff]
      rw [not_and_or, not_not] at hfull
      rcases hfull with hnil | hlt
      · left
        rw [hrecent, hnil]
        rfl
      · right
        omega

private theorem times_append (past : List Outcome) (o : Outcome) (key : Str) :
    times (past ++ [o]) key = times past key ++ if isAllowed key o then [o.now] else [] := by
  rw [times, List.filter_append, List.map_append]
  cases hallowed : isAllowed key o <;> simp [times, hallowed]

theorem Tracks.check (h : Tracks past bucket now) (key : Str) (limit : Nat) :
    Tracks (past ++ [⟨key, now, (rateLimitCheck bucket key limit now).1⟩]) (rateLimitCheck bucket key limit now).2 now := by
  obtain ⟨allowed, heq, -⟩ := h.rateLimitCheck_eq key limit
  have hallowed : ∀ k, isAllowed k ⟨key, now, allowed⟩ = (allowed && decide (key = k)) := fun k => rfl
  rw [heq]
  dsimp only
  refine ⟨fun k => ?_, fun k => ?_, fun k t ht => ?_⟩
  · rw [times_append, hallowed, Dict.get_set]
    by_cases hk : k = key
    · subst hk
      obtain ⟨old, htimes, hold⟩ := h.kept k
      refine ⟨old ++ ((bucket.get k).getD []).takeWhile (isOld now), ?_, fun t ht => ?_⟩
      · rw [if_pos rfl, Option.getD_some, h.window k, htimes, List.append_assoc, List.append_assoc]
        congr 1
        rw [← List.append_assoc, List.takeWhile_append_dropWhile]
        simp
      · rcases List.mem_append.1 ht with ht | ht
        · exact hold t ht
        · exact List.mem_takeWhile_imp ht
    · have hne : key ≠ k := fun heq => hk heq.symm
      simpa [hk, hne] using h.kept k
  · rw [times_append, hallowed]
    refine List.pairwise_append.2 ⟨h.ordered k, ?_, fun a ha b hb => ?_⟩
    · split <;> simp
    · cases hk : allowed && decide (key = k) with
      | true =>
        rw [hk] at hb
        rw [List.mem_singleton.1 hb]
        exact h.past_le k a ha
      | false =>
        rw [hk] at hb
        exact absurd hb List.not_mem_nil
  · rw [times_append, hallowed] at ht
    rcases List.mem_append.1 ht with ht | ht
    · exact h.past_le k t ht
    · cases hk : allowed && decide (key = k) with
      | true =>
        rw [hk] at ht
        exact (List.mem_singleton.1 ht).le
      | false =>
        rw [hk] at ht
        exact absurd ht List.not_mem_nil

end Step

/-! ### Runs -/

section Runs

variable {limit : Nat} {events : List Event} {past : List Outcome} {bucket : Buckets} {clock : Nat}

/-- Every decision of a run is by the connections let in before it. -/
private theorem outcomes_decisions (h : Tracks past bucket clock) (hclock : ∀ e ∈ events, clock ≤ e.now)
    (hsorted : (events.map Event.now).Pairwise (· ≤ ·)) {before after : List Outcome} {o : Outcome}
    (hrun : outcomes limit bucket events = before ++ o :: after) :
    o.allowed = true ↔ recent (past ++ before) o.key o.now = 0 ∨ recent (past ++ before) o.key o.now < limit := by
  induction events generalizing past bucket clock before with
  | nil => exact absurd hrun (by simp [outcomes])
  | cons e events ih =>
    rw [List.map_cons, List.pairwise_cons] at hsorted
    have hlater := h.later (hclock e List.mem_cons_self)
    have hnext : ∀ e' ∈ events, e.now ≤ e'.now := fun e' he' => hsorted.1 _ (List.mem_map_of_mem he')
    cases e with
    | cleanup now => exact ih hlater.cleanup hnext hsorted.2 hrun
    | check key now =>
      have hlater : Tracks past bucket now := hlater
      rw [outcomes] at hrun
      cases before with
      | nil =>
        obtain rfl := (List.head_eq_of_cons_eq hrun).symm
        obtain ⟨allowed, heq, hdecision⟩ := hlater.rateLimitCheck_eq key limit
        rw [List.append_nil, heq]
        exact hdecision
      | cons first before =>
        obtain rfl := (List.head_eq_of_cons_eq hrun).symm
        have hstep := ih (hlater.check key limit) hnext hsorted.2 (List.tail_eq_of_cons_eq hrun)
        rwa [List.append_assoc] at hstep

/-- The connections of a key that are let in within a minute of a time. -/
def within (os : List Outcome) (key : Str) (start : Nat) : Nat :=
  os.countP fun o => isAllowed key o && decide (start ≤ o.now ∧ o.now ≤ start + RATE_WINDOW)

/-- A list in which something is found has a last place of it. -/
private theorem exists_last {α : Type} {p : α → Bool} {l : List α} (h : l.countP p ≠ 0) :
    ∃ before a after, l = before ++ a :: after ∧ p a = true ∧ after.countP p = 0 := by
  induction l with
  | nil => exact absurd rfl h
  | cons x l ih =>
    by_cases hrest : l.countP p = 0
    · refine ⟨[], x, l, rfl, ?_, hrest⟩
      cases hx : p x with
      | true => rfl
      | false =>
        rw [List.countP_cons_of_neg (by simp [hx])] at h
        exact absurd hrest h
    · obtain ⟨before, a, after, rfl, ha, hafter⟩ := ih hrest
      exact ⟨x :: before, a, after, rfl, ha, hafter⟩

/-- On a clock that does not go back, whatever the loop cleans up when: a connection is let in exactly when fewer than the
limit, or none at all, have been let in for its key within the last minute; so within no minute more than the limit, or
one, are let in. -/
theorem rate_limited (limit : Nat) {events : List Event} (hsorted : (events.map Event.now).Pairwise (· ≤ ·)) :
    (∀ before o after, outcomes limit ∅ events = before ++ o :: after →
      (o.allowed = true ↔ recent before o.key o.now = 0 ∨ recent before o.key o.now < limit)) ∧
    ∀ key start, within (outcomes limit ∅ events) key start ≤ max limit 1 := by
  have hdecisions : ∀ before o after, outcomes limit ∅ events = before ++ o :: after →
      (o.allowed = true ↔ recent before o.key o.now = 0 ∨ recent before o.key o.now < limit) := by
    intro before o after hrun
    exact outcomes_decisions Tracks.init (fun _ _ => Nat.zero_le _) hsorted hrun
  refine ⟨hdecisions, fun key start => ?_⟩
  by_cases hzero : within (outcomes limit ∅ events) key start = 0
  · omega
  -- the last connection within the minute was let in, with those before it counted
  obtain ⟨before, o, after, hrun, hlast, hafter⟩ := exists_last hzero
  rw [Bool.and_eq_true, decide_eq_true_eq] at hlast
  obtain ⟨hallowed, hstart, hend⟩ := hlast
  rw [isAllowed, Bool.and_eq_true, decide_eq_true_eq] at hallowed
  obtain ⟨hallowed, rfl⟩ := hallowed
  have hbefore : within before o.key start ≤ recent before o.key o.now := by
    refine List.countP_mono_left fun p _ hp => ?_
    rw [Bool.and_eq_true, decide_eq_true_eq] at hp
    obtain ⟨hp, hfrom, -⟩ := hp
    rw [hp]
    simp only [isOld, Bool.true_and, Bool.not_eq_true', decide_eq_false_iff_not]
    omega
  have hcount : within (outcomes limit ∅ events) o.key start ≤ within before o.key start + 1 := by
    have hsplit : within (outcomes limit ∅ events) o.key start =
        within before o.key start + (within [o] o.key start + within after o.key start) := by
      rw [hrun, within, List.countP_append, ← List.singleton_append, List.countP_append]
      rfl
    have hone : within [o] o.key start ≤ 1 := List.countP_le_length
    have hnone : within after o.key start = 0 := hafter
    omega
  rcases (hdecisions before o after hrun).1 hallowed with hnone | hlt <;> omega

/-- Eleven connections of one user at once, and a clean-up between them. -/
theorem rate_limited_user :
    within (outcomes 10 ∅ (List.replicate 5 (.check "u".toList 3) ++ .cleanup 4 :: List.replicate 6 (.check "u".toList 5)))
      "u".toList 3 ≤ 10 :=
  (rate_limited 10 (by decide)).2 "u".toList 3

end Runs

end Ssh

end TrustedReleases
