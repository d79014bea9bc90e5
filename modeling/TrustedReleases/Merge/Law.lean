import TrustedReleases.Merge.Outcome

/-!
# The laws of the three-way merge

What `merge` does to the contents of the tree in `tempDir`.  Inodes and hashes are only the means of the comparison:
the content of a file is a function of its inode (`content`), and hashes of two files that the merge compares are
equal exactly when the contents are (`HashesAgree`).  Where no path is a file in one tree and a directory in another
the merge is the three-way merge of the contents; where the roles are exchanged it need not be.
-/

namespace TrustedReleases

open Lib

variable {ι η κ : Type}

namespace MergeInput

/-- The supplied hashes tell contents apart: at every path base's hash equals new's, and prior's, exactly when the
contents are equal. -/
structure HashesAgree (inp : MergeInput ι η) (content : ι → κ) : Prop where
  base_new : ∀ p b n, inp.baseInodes.get p = some b → inp.nInodes.get p = some n →
    (inp.baseHashes.get p = inp.nHashes.get p ↔ content b = content n)
  base_prior : ∀ p b q, inp.baseInodes.get p = some b → inp.priorDir.fileAt p = some q →
    (inp.baseHashes.get p = some (inp.priorHashAt p q) ↔ content b = content q)

/-- No file of the prior or the new tree is above a file of the other, and no directory of the new tree without
files is a file of the prior tree. -/
structure NoRoleExchange (inp : MergeInput ι η) : Prop where
  not_above : ∀ p q, (inp.priorDir.fileAt p).isSome → (inp.tempDir.fileAt q).isSome → p ∉ parents q ∧ q ∉ parents p
  emptyDir : ∀ d, inp.tempDir.isDir d = true → (∀ q, (inp.tempDir.fileAt q).isSome → d ∉ parents q) →
    inp.priorDir.fileAt d = none

/-- No file of the prior tree is where the new tree has a directory, or below a file of the new tree. -/
def RolesAgree (inp : MergeInput ι η) : Prop :=
  ∀ p, (inp.priorDir.fileAt p).isSome → inp.tempDir.isDir p = false ∧ ∀ d ∈ parents p, inp.tempDir.fileAt d = none

instance (inp : MergeInput ι η) : Decidable inp.RolesAgree :=
  decidable_of_iff (∀ p ∈ inp.priorDir.files.keys,
      inp.tempDir.isDir p = false ∧ ∀ d ∈ parents p, inp.tempDir.fileAt d = none)
    (by simp only [RolesAgree, FileTree.mem_files_keys])

instance (inp : MergeInput ι η) : Decidable inp.NoRoleExchange :=
  decidable_of_iff
    ((∀ p ∈ inp.priorDir.files.keys, ∀ q ∈ inp.tempDir.files.keys, p ∉ parents q ∧ q ∉ parents p) ∧
      ∀ d ∈ inp.tempDir.entries.keys, inp.tempDir.isDir d = true →
        (∀ q ∈ inp.tempDir.files.keys, d ∉ parents q) → inp.priorDir.fileAt d = none)
    (by
      simp only [FileTree.mem_files_keys]
      refine ⟨fun h => ⟨fun p q hp hq => h.1 p hp q hq, fun d hd => h.2 d ?_ hd⟩,
        fun h => ⟨fun p hp q hq => h.not_above p q hp hq, fun d _ hd => h.emptyDir d hd⟩⟩
      exact Dict.mem_keys_of_get (FileTree.isDir_iff.1 hd))

private theorem NoRoleExchange.rolesAgree {inp : MergeInput ι η} (h : inp.NoRoleExchange) : inp.RolesAgree := by
  intro p hp
  constructor
  · by_contra hdir
    have hnone := h.emptyDir p (by simpa using hdir) fun q hq => (h.not_above p q hp hq).1
    rw [hnone] at hp
    cases hp
  · intro d hd
    by_contra hf
    exact (h.not_above p d hp (Option.isSome_iff_ne_none.2 hf)).2 hd

/-- Where the new tree has no file, the merge refuses a file of the prior tree exactly when the roles are
exchanged there. -/
theorem refuses_iff {inp : MergeInput ι η} (hv : inp.Valid) {p : Str} :
    (inp.hasTypeConflict p || inp.tempDir.isDir p) = true ↔
      inp.tempDir.isDir p = true ∨ ∃ d ∈ parents p, (inp.tempDir.fileAt d).isSome := by
  rw [Bool.or_eq_true, hasTypeConflict_iff]
  simp only [hv.nInodes_eq]
  constructor
  · rintro ((⟨q, hq, hpq⟩ | h) | h)
    · obtain ⟨i, hi⟩ := Option.isSome_iff_exists.1 hq
      exact .inl (FileTree.hasParents_of_get (FileTree.fileAt_iff.1 hi) p hpq)
    · exact .inr h
    · exact .inl h
  · rintro (h | h)
    · exact .inr h
    · exact .inl (.inr h)

/-- Where the roles agree the merge refuses no file of the prior tree. -/
private theorem RolesAgree.not_refuses {inp : MergeInput ι η} (hv : inp.Valid) (hr : inp.RolesAgree) {p : Str}
    (hp : (inp.priorDir.fileAt p).isSome) : (inp.hasTypeConflict p || inp.tempDir.isDir p) = false := by
  obtain ⟨hdir, habove⟩ := hr p hp
  rw [Bool.eq_false_iff, ne_eq, refuses_iff hv]
  rintro (h | ⟨d, hd, h⟩)
  · rw [hdir] at h; cases h
  · rw [habove d hd] at h; cases h

variable [DecidableEq ι] [DecidableEq η] {inp : MergeInput ι η} {content : ι → κ} {p : Str}

/-- Where new differs from base the merge leaves new alone. -/
private theorem finalFile_of_changed (hh : inp.HashesAgree content)
    (hp : (inp.nInodes.get p).map content ≠ (inp.baseInodes.get p).map content) :
    inp.finalFile p = inp.nInodes.get p := by
  unfold finalFile outcome
  rcases hb : inp.baseInodes.get p with _ | b <;> rcases hn : inp.nInodes.get p with _ | n
  · rw [hb, hn] at hp
    exact absurd rfl hp
  · rcases inp.priorDir.fileAt p with _ | q <;> rfl
  · rcases inp.priorDir.fileAt p with _ | q <;> rfl
  · have hne : content b ≠ content n := by
      rw [hb, hn] at hp
      simpa [eq_comm] using hp
    have hbn : b ≠ n := fun h => hne (congrArg content h)
    have hhash : inp.baseHashes.get p ≠ inp.nHashes.get p := fun h => hne ((hh.base_new p b n hb hn).1 h)
    rcases inp.priorDir.fileAt p with _ | q <;> simp [hbn, hhash]

/-- Where new has base's content, or neither has a file, the merge takes prior's state, unless the roles are
exchanged there. -/
private theorem finalFile_of_unchanged (hh : inp.HashesAgree content)
    (hp : (inp.nInodes.get p).map content = (inp.baseInodes.get p).map content)
    (hroles : inp.nInodes.get p = none → (inp.priorDir.fileAt p).isSome →
      (inp.hasTypeConflict p || inp.tempDir.isDir p) = false) :
    (inp.finalFile p).map content = (inp.priorDir.fileAt p).map content := by
  unfold finalFile outcome
  rcases hb : inp.baseInodes.get p with _ | b <;> rcases hn : inp.nInodes.get p with _ | n <;>
    rcases hq : inp.priorDir.fileAt p with _ | q <;> simp only [hb, hn, Option.map_some, Option.map_none] at hp ⊢
  case none.none.some =>
    rw [hroles hn (by rw [hq]; rfl)]
    simp
  case none.some.none => cases hp
  case none.some.some => cases hp
  case some.none.some => cases hp
  all_goals
    have hbn : content b = content n := (Option.some.inj hp).symm
    have hhash : inp.baseHashes.get p = inp.nHashes.get p := (hh.base_new p b n hb hn).2 hbn
  case some.some.none => simp [hhash]
  case some.some.some =>
    by_cases h1 : q = n
    · simp [h1]
    by_cases h2 : b = q
    · simp [h2, ← hbn]
    by_cases h3 : b = n
    · rw [if_neg (by simp [h1, h2]), if_pos h3]
      rfl
    have hprior := hh.base_prior p b q hb hq
    by_cases h4 : content b = content q
    · simp [h1, h2, h3, hhash, ← hprior.2 h4, ← hbn, h4]
    · have hne : inp.nHashes.get p ≠ some (inp.priorHashAt p q) := fun h => h4 (hprior.1 (hhash.trans h))
      simp [h1, h2, h3, hhash, hne]

/-! ### The merge law -/

omit [DecidableEq ι] [DecidableEq η] in
/-- The arguments of a merge whose hashes are all computed from the files. -/
def ofTrees (base prior new : FileTree ι) (computeFileHash : ι → η) (stSize : ι → Nat) : MergeInput ι η where
  baseInodes := base.files
  baseHashes := base.files.mapVals fun _ i => computeFileHash i
  priorDir := prior
  tempDir := new
  nInodes := new.files
  nHashes := new.files.mapVals fun _ i => computeFileHash i
  nSizes := new.files.mapVals fun _ i => stSize i
  releaseFileHashesAt := prior.files.mapVals fun _ i => computeFileHash i
  computeFileHash := computeFileHash
  stSize := stSize

omit [DecidableEq ι] [DecidableEq η] in
private theorem ofTrees_valid (base prior new : FileTree ι) (computeFileHash : ι → η) (stSize : ι → Nat) :
    (ofTrees base prior new computeFileHash stSize).Valid where
  nInodes_eq p := FileTree.get_files new p
  nHashes_some p hp := by simpa [ofTrees] using hp
  baseHashes_some p hp := by
    obtain ⟨b, -, hb, -⟩ := hp
    have hb' : base.fileAt p = some b := by simpa [ofTrees] using hb
    simp [ofTrees, hb']

omit [DecidableEq ι] [DecidableEq η] in
/-- The prior hash is the computed one also where there are no rows. -/
private theorem ofTrees_priorHashAt (base prior new : FileTree ι) (computeFileHash : ι → η) (stSize : ι → Nat) (p : Str)
    {q : ι} (hq : prior.fileAt p = some q) :
    (ofTrees base prior new computeFileHash stSize).priorHashAt p q = computeFileHash q := by
  have hload : (ofTrees base prior new computeFileHash stSize).priorHashesLoad.get p = some (computeFileHash q) := by
    unfold priorHashesLoad
    split <;> simp [ofTrees, hq]
  simp only [priorHashAt, priorHash, hload]

omit [DecidableEq ι] [DecidableEq η] in
private theorem ofTrees_hashesAgree (base prior new : FileTree ι) (computeFileHash : ι → η) (stSize : ι → Nat)
    (h : ∀ i j, computeFileHash i = computeFileHash j ↔ content i = content j) :
    (ofTrees base prior new computeFileHash stSize).HashesAgree content where
  base_new p b n hb hn := by
    have hb' : base.fileAt p = some b := by simpa [ofTrees] using hb
    have hn' : new.fileAt p = some n := by simpa [ofTrees] using hn
    simp [ofTrees, hb', hn', h]
  base_prior p b q hb hq := by
    rw [ofTrees_priorHashAt base prior new computeFileHash stSize p hq]
    have hb' : base.fileAt p = some b := by simpa [ofTrees] using hb
    simp [ofTrees, hb', h]

/-- A tree with the one file `a/x`. -/
def treeAX (i : Nat) : FileTree Nat :=
  (FileTree.empty.insert ['a'] .dir (by decide) (by decide)).insert ['a', '/', 'x'] (.file i) (by decide) (by decide)

/-- Three-way merge: without a role exchange every path takes prior's content where new has base's content (or
neither has a file), and is left alone otherwise; so nothing changes if prior has base's content everywhere. -/
theorem merge_threeWay (hv : inp.Valid) (hh : inp.HashesAgree content) (hr : inp.NoRoleExchange) :
    ∃ s, inp.merge = .ok s ∧
      (∀ p, (inp.tempDir.fileAt p).map content = (inp.baseInodes.get p).map content →
        (s.tempDir.fileAt p).map content = (inp.priorDir.fileAt p).map content) ∧
      (∀ p, (inp.tempDir.fileAt p).map content ≠ (inp.baseInodes.get p).map content →
        s.tempDir.fileAt p = inp.tempDir.fileAt p) ∧
      ((∀ p, (inp.priorDir.fileAt p).map content = (inp.baseInodes.get p).map content) →
        ∀ p, (s.tempDir.fileAt p).map content = (inp.tempDir.fileAt p).map content) := by
  obtain ⟨s, hok, hfile, -, -⟩ := merge_ok hv
  have hsame : ∀ p, (inp.tempDir.fileAt p).map content = (inp.baseInodes.get p).map content →
      (s.tempDir.fileAt p).map content = (inp.priorDir.fileAt p).map content := by
    intro p hp
    rw [hfile]
    rw [← hv.nInodes_eq] at hp
    exact finalFile_of_unchanged hh hp fun _ hq => hr.rolesAgree.not_refuses hv hq
  have hchanged : ∀ p, (inp.tempDir.fileAt p).map content ≠ (inp.baseInodes.get p).map content →
      s.tempDir.fileAt p = inp.tempDir.fileAt p := by
    intro p hp
    rw [hfile, ← hv.nInodes_eq]
    rw [← hv.nInodes_eq] at hp
    exact finalFile_of_changed hh hp
  refine ⟨s, hok, hsame, hchanged, fun hprior p => ?_⟩
  by_cases hp : (inp.tempDir.fileAt p).map content = (inp.baseInodes.get p).map content
  · rw [hsame p hp, hprior p, hp]
  · rw [hchanged p hp]

/-- The merge law where prior replaced base's file and new added another one. -/
theorem merge_threeWay_replaced :
    let inp := ofTrees (.single ['a'] 1 rfl) (.single ['a'] 2 rfl) ((FileTree.single ['a'] 1 rfl).insert ['b'] (.file 3) (by decide) (by decide)) id id
    ∃ s, inp.merge = .ok s ∧ s.tempDir.fileAt ['a'] = some 2 ∧ s.tempDir.fileAt ['b'] = some 3 := by
  intro inp
  have hh : inp.HashesAgree fun i : Nat => i := ofTrees_hashesAgree _ _ _ _ _ fun _ _ => Iff.rfl
  obtain ⟨s, hok, hsame, hchanged, -⟩ := merge_threeWay
    (ofTrees_valid .. : inp.Valid) hh (by decide)
  refine ⟨s, hok, ?_, hchanged ['b'] (by decide)⟩
  have ha : (s.tempDir.fileAt ['a']).map (fun i => i) = some 2 := hsame ['a'] (by decide)
  simpa using ha

/-! ### The identity law -/

/-- An upload that changed nothing ends with prior's files if and only if no file of prior is at a directory of new
or below a file of new. -/
theorem merge_identity_iff (hv : inp.Valid) (hh : inp.HashesAgree content)
    (hnew : ∀ p, (inp.tempDir.fileAt p).map content = (inp.baseInodes.get p).map content) :
    (∃ s, inp.merge = .ok s ∧ ∀ p, (s.tempDir.fileAt p).map content = (inp.priorDir.fileAt p).map content) ↔
      inp.RolesAgree := by
  obtain ⟨s, hok, hfile, -, -⟩ := merge_ok hv
  constructor
  · rintro ⟨s', hok', hall⟩ p hp
    obtain rfl : s = s' := by rw [hok] at hok'; exact Except.ok.inj hok'
    rcases hn : inp.tempDir.fileAt p with _ | n
    · -- prior's file is not refused, as it is there in the end
      have hrefuse : (inp.hasTypeConflict p || inp.tempDir.isDir p) ≠ true := by
        intro href
        have hb : inp.baseInodes.get p = none := by
          have := hnew p
          rw [hn] at this
          simpa using this.symm
        obtain ⟨q, hq⟩ := Option.isSome_iff_exists.1 hp
        have hkeep : inp.finalFile p = none := by
          have hn' : inp.nInodes.get p = none := by rw [hv.nInodes_eq, hn]
          simp only [finalFile, outcome, hb, hq, hn', href, ↓reduceIte]
        have := hall p
        rw [hfile, hkeep, hq] at this
        cases this
      rw [ne_eq, refuses_iff hv, not_or] at hrefuse
      refine ⟨by simpa using hrefuse.1, fun d hd => ?_⟩
      by_contra hd'
      exact hrefuse.2 ⟨d, hd, Option.isSome_iff_ne_none.2 hd'⟩
    · refine ⟨FileTree.isDir_false_of_fileAt hn, fun d hd => ?_⟩
      exact FileTree.fileAt_eq_none.2 (.inr (FileTree.hasParents_of_get (FileTree.fileAt_iff.1 hn) d hd))
  · intro hr
    refine ⟨s, hok, fun p => ?_⟩
    rw [hfile]
    exact finalFile_of_unchanged hh (by rw [hv.nInodes_eq]; exact hnew p) fun _ hq => hr.not_refuses hv hq

/-- An upload that left the file `a` as it was, while the prior revision turned `a` into a directory: the merge
removes `a` and refuses `a/x`, so that nothing is left. -/
theorem merge_identity_fails :
    let inp := ofTrees (.single ['a'] 1 rfl) (treeAX 2) (.single ['a'] 1 rfl) id id
    inp.Valid ∧ inp.HashesAgree (fun i : Nat => i) ∧ (∀ p, inp.tempDir.fileAt p = inp.baseInodes.get p) ∧
      inp.priorDir.fileAt ['a', '/', 'x'] = some 2 ∧
      ∃ s, inp.merge = .ok s ∧ ∀ p, s.tempDir.fileAt p = none := by
  intro inp
  have hv : inp.Valid := ofTrees_valid ..
  obtain ⟨s, hok, hfile, -, -⟩ := merge_ok hv
  refine ⟨hv, ofTrees_hashesAgree _ _ _ _ _ fun _ _ => Iff.rfl, fun p => (FileTree.get_files _ p).symm, by decide,
    s, hok, fun p => ?_⟩
  rw [hfile]
  by_cases hp : p ∈ inp.allPaths
  · have hall : ∀ q ∈ inp.allPaths, inp.finalFile q = none := by decide
    exact hall p hp
  · rw [mem_allPaths, not_or, not_or] at hp
    simp only [Option.not_isSome_iff_eq_none] at hp
    simp only [finalFile, outcome, hp.1, hp.2.1, hp.2.2]

/-- An upload that left the file `a` as it was, while the prior revision replaced it. -/
theorem merge_identity_replaced :
    ∃ s, (ofTrees (.single ['a'] 1 rfl) (.single ['a'] 2 rfl) (.single ['a'] 1 rfl) id id).merge = .ok s ∧
      ∀ p, (s.tempDir.fileAt p).map (fun i => i) = ((FileTree.single ['a'] 2 rfl).fileAt p).map fun i => i := by
  have hh : (ofTrees (.single ['a'] 1 rfl) (.single ['a'] 2 rfl) (.single ['a'] 1 rfl) id id).HashesAgree
      fun i : Nat => i := ofTrees_hashesAgree _ _ _ _ _ fun _ _ => Iff.rfl
  exact (merge_identity_iff (ofTrees_valid ..) hh fun p => by rw [← FileTree.get_files]; rfl).2 (by decide)

end MergeInput

end TrustedReleases
