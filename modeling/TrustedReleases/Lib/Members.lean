import TrustedReleases.Lib.Dict

/-!
# Lists of named values

Lists of names with values in which no name comes twice: what is looked up is what is there, in whatever order, and a
loop over the members leaves in a slot what the member of one name puts there.
-/

namespace Lib

variable {κ τ γ α : Type} [BEq κ] [LawfulBEq κ] {members members' : List (κ × τ)} {name : κ} {t : τ}

theorem lookup_eq_some_iff_mem (hnodup : (members.map Prod.fst).Nodup) :
    members.lookup name = some t ↔ (name, t) ∈ members := by
  induction members with
  | nil => simp
  | cons m members ih =>
    obtain ⟨n, u⟩ := m
    rw [List.map_cons] at hnodup
    obtain ⟨hnot, hnodup⟩ := List.nodup_cons.1 hnodup
    rw [List.lookup_cons, List.mem_cons, Prod.mk.injEq]
    by_cases h : name = n
    · subst h
      have hfresh : (name, t) ∉ members := fun hmem => hnot (List.mem_map.2 ⟨_, hmem, rfl⟩)
      simp [hfresh, eq_comm]
    · simp [h, beq_eq_false_iff_ne.2 h, ih hnodup]

/-- The order of the members makes no difference to what is looked up. -/
theorem lookup_perm (hnodup : (members.map Prod.fst).Nodup) (hperm : members.Perm members') :
    members.lookup name = members'.lookup name := by
  have hnodup' : (members'.map Prod.fst).Nodup := (hperm.map Prod.fst).nodup_iff.1 hnodup
  apply Option.ext
  intro t
  rw [lookup_eq_some_iff_mem hnodup, lookup_eq_some_iff_mem hnodup', hperm.mem_iff]

theorem any_lookup_iff {bad : τ → Bool} (hnodup : (members.map Prod.fst).Nodup) :
    (members.lookup name).any bad = true ↔ ∃ m ∈ members, m.1 = name ∧ bad m.2 = true := by
  rw [Option.any_eq_true]
  constructor
  · rintro ⟨t, ht, hbad⟩
    exact ⟨(name, t), (lookup_eq_some_iff_mem hnodup).1 ht, rfl, hbad⟩
  · rintro ⟨⟨n, t⟩, hm, rfl, hbad⟩
    exact ⟨t, (lookup_eq_some_iff_mem hnodup).2 hm, hbad⟩

omit [BEq κ] [LawfulBEq κ] in
theorem foldl_other {next : γ → κ × τ → γ} {slot : γ → α} {c : γ} (hnot : name ∉ members.map Prod.fst)
    (hother : ∀ c m, m.1 ≠ name → slot (next c m) = slot c) : slot (members.foldl next c) = slot c := by
  induction members generalizing c with
  | nil => rfl
  | cons m members ih =>
    rw [List.map_cons, List.mem_cons, not_or] at hnot
    rw [List.foldl_cons, ih hnot.2, hother c m (Ne.symm hnot.1)]

/-- A slot that the members of one name alone write to. -/
theorem foldl_slot {next : γ → κ × τ → γ} {slot : γ → α} {value : τ → α} {c : γ}
    (hnodup : (members.map Prod.fst).Nodup)
    (hsame : ∀ c' m, m ∈ members → m.1 = name → slot c' = slot c → slot (next c' m) = value m.2)
    (hother : ∀ c m, m.1 ≠ name → slot (next c m) = slot c) :
    slot (members.foldl next c) = (members.lookup name).elim (slot c) value := by
  induction members generalizing c with
  | nil => rfl
  | cons m members ih =>
    obtain ⟨n, t⟩ := m
    rw [List.map_cons] at hnodup
    obtain ⟨hnot, hnodup⟩ := List.nodup_cons.1 hnodup
    rw [List.foldl_cons, List.lookup_cons]
    by_cases h : name = n
    · subst h
      rw [foldl_other hnot hother, hsame c (name, t) List.mem_cons_self rfl rfl, beq_self_eq_true]
      rfl
    · have hkept : slot (next c (n, t)) = slot c := hother c _ fun heq => h heq.symm
      rw [beq_eq_false_iff_ne.2 h, ih hnodup, hkept]
      intro c' m hm hname hc'
      exact hsame c' m (List.mem_cons_of_mem _ hm) hname (hc'.trans hkept)

end Lib
