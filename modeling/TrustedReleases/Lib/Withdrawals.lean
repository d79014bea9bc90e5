import Mathlib.Data.List.MinMax
import Mathlib.Data.List.Nodup
import Mathlib.Tactic.Common

/-!
# Logs with withdrawals

Logs to which entries are only added.  An entry can be about a subject, or withdraw another one by its id.  In a settled
log (`Settled`) the entries that stand are the last ones about their subjects, so a subject has exactly one entry that
stands, or none at all (`Settled.existsUnique_stands`).  A first entry about a subject keeps a log settled, and so does a
withdrawal of the entry that stands with a new one after it.
-/

namespace Lib

/-- How to read the entries of a log. -/
structure LogShape (α κ : Type) where
  id : α → Nat
  subject : α → Option κ
  target : α → Option Nat

namespace LogShape

variable {α κ : Type} (shape : LogShape α κ)

def Withdrawn (log : List α) (i : Nat) : Prop := ∃ w ∈ log, shape.target w = some i

/-- The entry is about the subject and has not been withdrawn. -/
def Stands (log : List α) (k : κ) (e : α) : Prop :=
  e ∈ log ∧ shape.subject e = some k ∧ ¬ shape.Withdrawn log (shape.id e)

/-- No entry about the subject has a greater id. -/
def IsLast (log : List α) (k : κ) (e : α) : Prop :=
  e ∈ log ∧ shape.subject e = some k ∧ ∀ b ∈ log, shape.subject b = some k → shape.id b ≤ shape.id e

structure Settled (log : List α) (next : Nat) : Prop where
  nodup : (log.map shape.id).Nodup
  id_lt : ∀ e ∈ log, shape.id e < next
  target_lt : ∀ w ∈ log, ∀ i, shape.target w = some i → i < next
  once : ∀ i, log.countP (fun w => decide (shape.target w = some i)) ≤ 1
  stands_iff : ∀ k e, shape.Stands log k e ↔ shape.IsLast log k e

variable {shape} {log more : List α} {next : Nat} {k : κ} {e w a b : α}

theorem withdrawn_append {i : Nat} :
    shape.Withdrawn (log ++ more) i ↔ shape.Withdrawn log i ∨ shape.Withdrawn more i := by
  unfold Withdrawn
  simp only [List.mem_append, or_and_right, exists_or]

theorem Settled.eq_of_id (h : shape.Settled log next) (ha : a ∈ log) (hb : b ∈ log) (hid : shape.id a = shape.id b) :
    a = b := List.inj_on_of_nodup_map h.nodup ha hb hid

theorem IsLast.unique (h : shape.Settled log next) (ha : shape.IsLast log k a) (hb : shape.IsLast log k b) : a = b := by
  have hab := hb.2.2 a ha.1 ha.2.1
  have hba := ha.2.2 b hb.1 hb.2.1
  exact h.eq_of_id ha.1 hb.1 (by omega)

theorem exists_isLast (h : ∃ e ∈ log, shape.subject e = some k) : ∃ e, shape.IsLast log k e := by
  classical
  obtain ⟨e, he, hk⟩ := h
  have hmem : ∀ b, b ∈ (log.filter fun a => decide (shape.subject a = some k)) ↔ b ∈ log ∧ shape.subject b = some k := by
    intro b
    rw [List.mem_filter, decide_eq_true_eq]
  cases hmax : List.argmax shape.id (log.filter fun a => decide (shape.subject a = some k)) with
  | none =>
    have hin := (hmem e).2 ⟨he, hk⟩
    rw [List.argmax_eq_none.1 hmax] at hin
    cases hin
  | some m =>
    have hm := (hmem m).1 (List.argmax_mem hmax)
    refine ⟨m, hm.1, hm.2, fun b hb hbk => ?_⟩
    exact List.le_of_mem_argmax ((hmem b).2 ⟨hb, hbk⟩) hmax

theorem Settled.existsUnique_stands (h : shape.Settled log next) :
    (∃! e, shape.Stands log k e) ↔ ∃ e ∈ log, shape.subject e = some k := by
  constructor
  · intro hone
    obtain ⟨e, he, -⟩ := hone
    exact ⟨e, he.1, he.2.1⟩
  · intro hsome
    obtain ⟨e, he⟩ := exists_isLast hsome
    refine ⟨e, (h.stands_iff k e).2 he, fun b hb => ?_⟩
    exact IsLast.unique h ((h.stands_iff k b).1 hb) he

/-- A log without entries about subjects is settled, if its ids are in order and nothing is withdrawn twice. -/
theorem Settled.of_no_subject (hnodup : (log.map shape.id).Nodup) (hid : ∀ e ∈ log, shape.id e < next)
    (htarget : ∀ w ∈ log, ∀ i, shape.target w = some i → i < next)
    (honce : ∀ i, log.countP (fun w => decide (shape.target w = some i)) ≤ 1)
    (hnone : ∀ e ∈ log, shape.subject e = none) : shape.Settled log next := by
  have hempty : ∀ k e, e ∈ log → shape.subject e ≠ some k := by
    intro k e he hk
    rw [hnone e he] at hk
    cases hk
  refine ⟨hnodup, hid, htarget, honce, fun k e => ?_⟩
  constructor
  · intro hs
    exact absurd hs.2.1 (hempty k e hs.1)
  · intro hl
    exact absurd hl.2.1 (hempty k e hl.1)

/-! ### Adding entries -/

section

variable (hid : shape.id e = next)
include hid

private theorem nodup_append_fresh (h : shape.Settled log next) : ((log ++ [e]).map shape.id).Nodup := by
  rw [List.map_append, List.map_singleton, ← List.concat_eq_append, List.nodup_concat]
  refine ⟨fun hmem => ?_, h.nodup⟩
  obtain ⟨b, hb, hbid⟩ := List.mem_map.1 hmem
  have := h.id_lt b hb
  omega

private theorem id_lt_append_fresh (h : shape.Settled log next) : ∀ b ∈ log ++ [e], shape.id b < next + 1 := by
  intro b hb
  rcases List.mem_append.1 hb with hb | hb
  · have := h.id_lt b hb
    omega
  · rw [List.mem_singleton.1 hb]
    omega

/-- Nothing withdraws an entry that is yet to come. -/
private theorem not_withdrawn_fresh (h : shape.Settled log next) : ¬ shape.Withdrawn log (shape.id e) := by
  intro hw
  obtain ⟨w, hw, htarget⟩ := hw
  have := h.target_lt w hw _ htarget
  omega

end

/-- The first entry about a subject. -/
theorem Settled.append_first (h : shape.Settled log next) (hid : shape.id e = next) (hsubject : shape.subject e = some k)
    (htarget : shape.target e = none) (hfirst : ∀ b ∈ log, shape.subject b ≠ some k) :
    shape.Settled (log ++ [e]) (next + 1) := by
  have hnone : ∀ i, ¬ shape.Withdrawn [e] i := by
    intro i hw
    obtain ⟨w, hw, hi⟩ := hw
    rw [List.mem_singleton.1 hw, htarget] at hi
    cases hi
  have hwithdrawn : ∀ i, shape.Withdrawn (log ++ [e]) i ↔ shape.Withdrawn log i := by
    intro i
    rw [withdrawn_append, or_iff_left (hnone i)]
  refine ⟨nodup_append_fresh hid h, id_lt_append_fresh hid h, ?_, ?_, ?_⟩
  · intro w hw i hi
    rcases List.mem_append.1 hw with hw | hw
    · have := h.target_lt w hw i hi
      omega
    · rw [List.mem_singleton.1 hw, htarget] at hi
      cases hi
  · intro i
    rw [List.countP_append, List.countP_singleton, htarget]
    simpa using h.once i
  · intro k' b
    by_cases hk : k' = k
    · have hb : ∀ b, b ∈ log ++ [e] ∧ shape.subject b = some k → b = e := by
        intro b hb
        rcases List.mem_append.1 hb.1 with hmem | hmem
        · exact absurd hb.2 (hfirst b hmem)
        · exact List.mem_singleton.1 hmem
      rw [hk]
      constructor
      · intro hs
        refine ⟨hs.1, hs.2.1, fun c hc hck => ?_⟩
        rw [hb c ⟨hc, hck⟩, hb b ⟨hs.1, hs.2.1⟩]
      · intro hl
        refine ⟨hl.1, hl.2.1, ?_⟩
        rw [hwithdrawn, hb b ⟨hl.1, hl.2.1⟩]
        exact not_withdrawn_fresh hid h
    · have hmem : ∀ b, b ∈ log ++ [e] ∧ shape.subject b = some k' ↔ b ∈ log ∧ shape.subject b = some k' := by
        intro b
        rw [List.mem_append, List.mem_singleton]
        constructor
        · intro hb
          rcases hb.1 with hmem | rfl
          · exact ⟨hmem, hb.2⟩
          · rw [hsubject] at hb
            exact absurd (Option.some.inj hb.2).symm hk
        · intro hb
          exact ⟨.inl hb.1, hb.2⟩
      have hold := h.stands_iff k' b
      unfold Stands IsLast at hold ⊢
      rw [← and_assoc, ← and_assoc, hmem b, hwithdrawn, and_assoc, and_assoc, hold]
      refine and_congr_right fun _ => and_congr_right fun _ => ?_
      constructor
      · intro hlast c hc hck
        exact hlast c ((hmem c).1 ⟨hc, hck⟩).1 hck
      · intro hlast c hc hck
        exact hlast c (List.mem_append_left _ hc) hck

/-- The entry that stands is withdrawn, and a new one about its subject comes after. -/
theorem Settled.append_replacement (h : shape.Settled log next) (ha : shape.Stands log k a) (hw : shape.id w = next)
    (hwsubject : shape.subject w = none) (hwtarget : shape.target w = some (shape.id a)) (he : shape.id e = next + 1)
    (hsubject : shape.subject e = some k) (htarget : shape.target e = none) :
    shape.Settled (log ++ [w] ++ [e]) (next + 1 + 1) := by
  have hlast := (h.stands_iff k a).1 ha
  have haid := h.id_lt a ha.1
  have hwithdrawn : ∀ i, shape.Withdrawn (log ++ [w] ++ [e]) i ↔ shape.Withdrawn log i ∨ shape.id a = i := by
    intro i
    rw [withdrawn_append, withdrawn_append]
    simp [Withdrawn, hwtarget, htarget]
  have hmem : ∀ b k', b ∈ log ++ [w] ++ [e] ∧ shape.subject b = some k' ↔
      (b ∈ log ∧ shape.subject b = some k') ∨ (b = e ∧ k' = k) := by
    intro b k'
    simp only [List.mem_append, List.mem_singleton]
    constructor
    · intro hb
      rcases hb with ⟨(hb | rfl) | rfl, hk⟩
      · exact .inl ⟨hb, hk⟩
      · rw [hwsubject] at hk
        cases hk
      · rw [hsubject] at hk
        exact .inr ⟨rfl, (Option.some.inj hk).symm⟩
    · intro hb
      rcases hb with ⟨hb, hk⟩ | ⟨rfl, rfl⟩
      · exact ⟨.inl (.inl hb), hk⟩
      · exact ⟨.inr rfl, hsubject⟩
  have hids : ((log ++ [w] ++ [e]).map shape.id).Nodup := by
    rw [List.map_append, List.map_singleton, ← List.concat_eq_append, List.nodup_concat]
    refine ⟨fun hin => ?_, nodup_append_fresh hw h⟩
    obtain ⟨b, hb, hbid⟩ := List.mem_map.1 hin
    have := id_lt_append_fresh hw h b hb
    omega
  refine ⟨hids, ?_, ?_, ?_, ?_⟩
  · intro b hb
    rcases List.mem_append.1 hb with hb | hb
    · have := id_lt_append_fresh hw h b hb
      omega
    · rw [List.mem_singleton.1 hb]
      omega
  · intro b hb i hi
    have hor := (hwithdrawn i).1 ⟨b, hb, hi⟩
    rcases hor with ⟨c, hc, hci⟩ | rfl
    · have := h.target_lt c hc i hci
      omega
    · omega
  · intro i
    rw [List.countP_append, List.countP_append, List.countP_singleton, List.countP_singleton, hwtarget, htarget]
    by_cases hi : shape.id a = i
    · have hzero : log.countP (fun w => decide (shape.target w = some i)) = 0 := by
        rw [List.countP_eq_zero]
        intro b hb hbi
        rw [← hi] at hbi
        exact ha.2.2 ⟨b, hb, of_decide_eq_true hbi⟩
      simp [hzero, hi]
    · have := h.once i
      simpa [hi] using this
  · intro k' b
    unfold Stands IsLast
    rw [← and_assoc, ← and_assoc, hmem b k', hwithdrawn]
    have hall : (∀ c ∈ log ++ [w] ++ [e], shape.subject c = some k' → shape.id c ≤ shape.id b) ↔
        (∀ c ∈ log, shape.subject c = some k' → shape.id c ≤ shape.id b) ∧ (k' = k → shape.id e ≤ shape.id b) := by
      constructor
      · intro hc
        refine ⟨fun c hmemc hck => ?_, fun hk => ?_⟩
        · have := (hmem c k').2 (.inl ⟨hmemc, hck⟩)
          exact hc c this.1 this.2
        · have := (hmem e k').2 (.inr ⟨rfl, hk⟩)
          exact hc e this.1 this.2
      · intro hc c hmemc hck
        rcases (hmem c k').1 ⟨hmemc, hck⟩ with ⟨hold, hk⟩ | ⟨rfl, hk⟩
        · exact hc.1 c hold hk
        · exact hc.2 hk
    rw [hall]
    by_cases hbe : b = e
    · -- the new entry is the last one about its subject and has not been withdrawn
      have hfresh : ¬ (shape.Withdrawn log (shape.id e) ∨ shape.id a = shape.id e) := by
        intro hor
        rcases hor with ⟨c, hc, hci⟩ | heq
        · have := h.target_lt c hc _ hci
          omega
        · omega
      have hnot : e ∉ log := by
        intro hin
        have := h.id_lt e hin
        omega
      rw [hbe]
      constructor
      · intro hs
        refine ⟨hs.1, fun c hc _ => ?_, fun _ => le_rfl⟩
        have := h.id_lt c hc
        omega
      · intro hs
        exact ⟨hs.1, hfresh⟩
    · have hold := h.stands_iff k' b
      unfold Stands IsLast at hold
      rw [or_iff_left fun hand => hbe hand.1]
      by_cases hk : k' = k
      · rw [hk] at hold ⊢
        constructor
        · intro hs
          have hb := (h.stands_iff k b).1 ⟨hs.1.1, hs.1.2, fun hin => hs.2 (.inl hin)⟩
          exact absurd (.inr (by rw [IsLast.unique h hlast hb])) hs.2
        · intro hs
          have := h.id_lt b hs.1.1
          have := hs.2.2 rfl
          omega
      · have hne : ∀ hb : b ∈ log ∧ shape.subject b = some k', shape.id a ≠ shape.id b := by
          intro hb heq
          have hsame := ha.2.1
          rw [h.eq_of_id ha.1 hb.1 heq, hb.2] at hsame
          exact hk (Option.some.inj hsame)
        constructor
        · intro hs
          exact ⟨hs.1, (hold.1 ⟨hs.1.1, hs.1.2, fun hin => hs.2 (.inl hin)⟩).2.2, fun heq => absurd heq hk⟩
        · intro hs
          refine ⟨hs.1, fun hor => ?_⟩
          rcases hor with hin | heq
          · exact (hold.2 ⟨hs.1.1, hs.1.2, hs.2.1⟩).2.2 hin
          · exact hne hs.1 heq

end LogShape

end Lib
