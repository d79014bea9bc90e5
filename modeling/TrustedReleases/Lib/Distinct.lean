import TrustedReleases.Lib.Str

/-!
# Lists without their repetitions

The elements of a list, each where it comes first (`List.eraseDups`), as a loop gathers them, and the sorted list of
them, which is the same for all lists with the same elements.
-/

namespace Lib

variable {α β : Type} [BEq α] [LawfulBEq α]

theorem eraseDups_concat_of_mem {l : List α} {a : α} (h : a ∈ l) : (l ++ [a]).eraseDups = l.eraseDups := by
  have hnone : [a].removeAll l = [] := by simp [List.removeAll, h]
  rw [List.eraseDups_append, hnone, List.eraseDups_nil, List.append_nil]

theorem eraseDups_concat_of_notMem {l : List α} {a : α} (h : a ∉ l) : (l ++ [a]).eraseDups = l.eraseDups ++ [a] := by
  have hone : [a].removeAll l = [a] := by simp [List.removeAll, h]
  rw [List.eraseDups_append, hone, List.eraseDups_cons, List.filter_nil, List.eraseDups_nil]

theorem eraseDups_nodup (l : List α) : l.eraseDups.Nodup := by
  induction l using List.reverseRecOn with
  | nil => exact List.nodup_nil
  | append_singleton l a ih =>
    by_cases h : a ∈ l
    · rw [eraseDups_concat_of_mem h]
      exact ih
    · rw [eraseDups_concat_of_notMem h, List.nodup_append]
      refine ⟨ih, List.nodup_singleton a, ?_⟩
      intro b hb c hc heq
      rw [List.mem_singleton.1 hc] at heq
      rw [heq] at hb
      exact h (List.mem_eraseDups.1 hb)

private theorem eraseDups_of_nodup {l : List α} (h : l.Nodup) : l.eraseDups = l := by
  induction l using List.reverseRecOn with
  | nil => rfl
  | append_singleton l a ih =>
    obtain ⟨hl, -, hdisjoint⟩ := List.nodup_append.1 h
    have hnot : a ∉ l := fun ha => hdisjoint a ha a (List.mem_singleton_self a) rfl
    rw [eraseDups_concat_of_notMem hnot, ih hl]

/-- Elements without repetitions are added to the ones before: those are, which are not there. -/
theorem eraseDups_append_of_nodup [DecidableEq α] {l l' : List α} (h : l'.Nodup) :
    (l ++ l').eraseDups = l.eraseDups ++ l'.filter (· ∉ l.eraseDups) := by
  have hnew : l'.removeAll l = l'.filter (· ∉ l.eraseDups) := by
    unfold List.removeAll
    apply List.filter_congr
    intro a ha
    simp
  rw [List.eraseDups_append, hnew, eraseDups_of_nodup (h.filter _)]

theorem eraseDups_length_le_append (l l' : List α) : l.eraseDups.length ≤ (l ++ l').eraseDups.length := by
  rw [List.eraseDups_append, List.length_append]
  omega

/-- A loop that puts each element at the end that is not there. -/
theorem foldl_concat_eq_eraseDups [DecidableEq α] (l : List α) :
    l.foldl (fun seen a => if a ∈ seen then seen else seen ++ [a]) [] = l.eraseDups := by
  induction l using List.reverseRecOn with
  | nil => rfl
  | append_singleton l a ih =>
    rw [List.foldl_append, ih, List.foldl_cons, List.foldl_nil]
    by_cases h : a ∈ l
    · rw [eraseDups_concat_of_mem h, if_pos (List.mem_eraseDups.2 h)]
    · rw [eraseDups_concat_of_notMem h, if_neg fun hmem => h (List.mem_eraseDups.1 hmem)]

/-- A loop that puts each element into a set. -/
theorem foldl_insert_perm (l : List α) : (l.foldl (fun set a => set.insert a) []).Perm l.eraseDups := by
  induction l using List.reverseRecOn with
  | nil => exact List.Perm.refl _
  | append_singleton l a ih =>
    rw [List.foldl_append, List.foldl_cons, List.foldl_nil]
    by_cases h : a ∈ l
    · have hset : a ∈ l.foldl (fun set a => set.insert a) [] := ih.mem_iff.2 (List.mem_eraseDups.2 h)
      rw [eraseDups_concat_of_mem h, List.insert_of_mem hset]
      exact ih
    · have hset : a ∉ l.foldl (fun set a => set.insert a) [] := fun hmem => h (List.mem_eraseDups.1 (ih.mem_iff.1 hmem))
      rw [eraseDups_concat_of_notMem h, List.insert_of_not_mem hset]
      exact (ih.cons a).trans (List.perm_append_singleton a l.eraseDups).symm

/-- Lists with the same elements are sorted to the same list. -/
theorem sorted_congr {l l' : List Str} (h : l.Perm l') : sorted l = sorted l' := by
  have hsorted : ∀ l : List Str, (sorted l).Pairwise fun a b => a ≤ b := by
    intro l
    have hle : sorted l = l.insertionSort (· ≤ ·) := by
      unfold sorted
      congr
      funext a b
      exact propext not_lt
    rw [hle]
    exact List.pairwise_insertionSort _ l
  have hperm : (sorted l).Perm (sorted l') := (sorted_perm l).trans (h.trans (sorted_perm l').symm)
  exact hperm.eq_of_pairwise' (hsorted l) (hsorted l')

end Lib
