import TrustedReleases.Dist.Analysis

/-!
# Suffixes of artifacts

A path that counts as an artifact ends in a suffix of artifacts (`isArtifact_suffix`).
-/

namespace TrustedReleases

open Lib

namespace Dist

private theorem rest_of_mem_run_lit {chars : List Char} {c c' : Cursor}
    (h : c' ∈ (chars.foldr (fun x r => Regex.seq (.one (· == x)) r) Regex.empty).run c) :
    c.rest = chars ++ c'.rest ∧ c'.groups = c.groups := by
  induction chars generalizing c with
  | nil =>
    rw [List.foldr_nil, Regex.run, List.mem_singleton] at h
    simp [h]
  | cons x chars ih =>
    rw [List.foldr_cons, Regex.run, List.mem_flatMap] at h
    obtain ⟨c₁, h₁, h⟩ := h
    have hrest := ih h
    unfold Regex.run at h₁
    split at h₁
    · cases h₁
    · rename_i y rest hcursor
      split at h₁
      · rename_i heq
        rw [List.mem_singleton.1 h₁] at hrest
        have htail : rest = chars ++ c'.rest := hrest.1
        rw [hcursor, htail, beq_iff_eq.1 heq]
        exact ⟨rfl, hrest.2⟩
      · cases h₁

private theorem rest_of_mem_run_suffix {name : String} {c c' : Cursor}
    (h : c' ∈ (Regex.seq (.lit ".") (.lit name)).run c) :
    c.rest = ('.' :: name.toList) ++ c'.rest ∧ c'.groups = c.groups := by
  rw [Regex.run, List.mem_flatMap] at h
  obtain ⟨c₁, h₁, h⟩ := h
  have hdot := @rest_of_mem_run_lit ".".toList _ _ h₁
  have hname := @rest_of_mem_run_lit name.toList _ _ h
  rw [hdot.1, hname.1, hname.2, hdot.2]
  exact ⟨rfl, rfl⟩

/-- One of at least one alternatives. -/
private theorem mem_run_alts {rs : List Regex} {c c' : Cursor} (hne : rs ≠ []) (h : c' ∈ (Regex.alts rs).run c) :
    ∃ r ∈ rs, c' ∈ r.run c := by
  induction rs with
  | nil => exact absurd rfl hne
  | cons r rs ih =>
    cases rs with
    | nil => exact ⟨r, List.mem_cons_self, h⟩
    | cons r' rs =>
      rw [Regex.alts, Regex.run] at h
      · rcases List.mem_append.1 h with h | h
        · exact ⟨r, List.mem_cons_self, h⟩
        · obtain ⟨found, hmem, hrun⟩ := ih (by simp) h
          exact ⟨found, List.mem_cons_of_mem _ hmem, hrun⟩
      · simp

/-- What a search finds is a match from some place of the text on. -/
private theorem of_searchFrom {r : Regex} {before rest : Str} {m : Regex.Match}
    (h : r.searchFrom before rest = some m) :
    ∃ skipped tail, rest = skipped ++ tail ∧ ∃ before', m.stop ∈ r.run ⟨before', tail, fun _ => none⟩ := by
  induction rest generalizing before with
  | nil =>
    unfold Regex.searchFrom at h
    obtain ⟨place, hplace, rfl⟩ := Option.map_eq_some_iff.1 h
    exact ⟨[], [], rfl, before, List.mem_of_mem_head? hplace⟩
  | cons c rest ih =>
    unfold Regex.searchFrom at h
    split at h
    · rename_i place hplace
      rw [← Option.some.inj h]
      exact ⟨[], c :: rest, rfl, before, List.mem_of_mem_head? hplace⟩
    · obtain ⟨skipped, tail, rfl, hrun⟩ := ih h
      exact ⟨c :: skipped, tail, rfl, hrun⟩

/-- An artifact ends in one of the suffixes, up to a line feed. -/
theorem isArtifact_suffix {path : Str} (h : isArtifact path = true) :
    ∃ name ∈ ARTIFACT_SUFFIXES, ∃ front, path = front ++ '.' :: name.toList ∨ path = front ++ '.' :: name.toList ++ ['\n'] := by
  unfold isArtifact at h
  rw [Option.any_eq_true] at h
  obtain ⟨m, hsearch, hgroup⟩ := h
  obtain ⟨skipped, tail, hpath, before, hrun⟩ := of_searchFrom hsearch
  unfold extensionPattern at hrun
  rw [Regex.run, List.mem_flatMap] at hrun
  obtain ⟨c₁, halt, hstop⟩ := hrun
  have hend : m.stop = c₁ ∧ (c₁.rest = [] ∨ c₁.rest = ['\n']) := by
    unfold Regex.run at hstop
    split at hstop
    · rename_i hrest
      exact ⟨List.mem_singleton.1 hstop, hrest⟩
    · cases hstop
  rw [Regex.run, List.mem_append] at halt
  rcases halt with hmetadata | hartifact
  · -- the group of artifacts is not part of the first alternative
    exfalso
    rw [Regex.run, List.mem_flatMap] at hmetadata
    obtain ⟨c₂, hfirst, hsecond⟩ := hmetadata
    rw [Regex.run, List.mem_map] at hfirst hsecond
    obtain ⟨c₃, h₃, rfl⟩ := hfirst
    obtain ⟨c₄, h₄, rfl⟩ := hsecond
    obtain ⟨r₃, hr₃, hrun₃⟩ := mem_run_alts (by simp [ARTIFACT_SUFFIXES]) h₃
    obtain ⟨name₃, -, rfl⟩ := List.mem_map.1 hr₃
    obtain ⟨r₄, hr₄, hrun₄⟩ := mem_run_alts (by simp [METADATA_SUFFIXES]) h₄
    obtain ⟨name₄, -, rfl⟩ := List.mem_map.1 hr₄
    have hgroups₃ := (rest_of_mem_run_suffix hrun₃).2
    have hgroups₄ := (rest_of_mem_run_suffix hrun₄).2
    rw [Regex.Match.group, hend.1] at hgroup
    have hneither : "artifact".toList ≠ "metadata".toList ∧ "artifact".toList ≠ "metadata_artifact".toList := by decide
    simp only [hgroups₄, hgroups₃] at hgroup
    rw [if_neg hneither.1, if_neg hneither.2] at hgroup
    cases hgroup
  · rw [Regex.run, List.mem_map] at hartifact
    obtain ⟨c₃, h₃, rfl⟩ := hartifact
    obtain ⟨r₃, hr₃, hrun₃⟩ := mem_run_alts (by simp [ARTIFACT_SUFFIXES]) h₃
    obtain ⟨name, hname, rfl⟩ := List.mem_map.1 hr₃
    have hrest : tail = '.' :: name.toList ++ c₃.rest := (rest_of_mem_run_suffix hrun₃).1
    refine ⟨name, hname, skipped, ?_⟩
    rw [hpath, hrest]
    rcases hend.2 with hnil | hline
    · left
      simp only at hnil
      simp [hnil]
    · right
      simp only at hline
      simp [hline]

end Dist

end TrustedReleases
