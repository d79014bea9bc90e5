import TrustedReleases.Merge.Algorithm

/-!
# What the merge does at each path

The loop of `merge` decides each path from the arguments alone: the files it adds, replaces and removes, and the
directories it makes for them, never change what it finds at a path it has not come to.  `outcome` is that decision
and `LoopInv` the invariant that carries it through the loop; `merge_ok` is the result, for all trees, also those in
which a file and a directory exchange roles.
-/

namespace TrustedReleases

open Lib

variable {ι η : Type}

/-- What the merge does at a path. -/
inductive Outcome where
  | keepNew
  | delete
  | replaceWithPrior
  | addFromPrior
  deriving DecidableEq, Repr

namespace MergeInput

@[simp] theorem get_priorInodes (inp : MergeInput ι η) (p : Str) : inp.priorInodes.get p = inp.priorDir.fileAt p :=
  FileTree.get_files _ _

private theorem mem_nDirs {inp : MergeInput ι η} {d : Str} :
    d ∈ inp.nDirs ↔ ∃ p, (inp.nInodes.get p).isSome ∧ d ∈ parents p := by
  simp [nDirs, Dict.mem_keys]

/-- A type conflict: new has a file below the path, or a file above it. -/
theorem hasTypeConflict_iff {inp : MergeInput ι η} {p : Str} :
    inp.hasTypeConflict p = true ↔
      (∃ q, (inp.nInodes.get q).isSome ∧ p ∈ parents q) ∨ ∃ d ∈ parents p, (inp.nInodes.get d).isSome := by
  simp [hasTypeConflict, mem_nDirs]

theorem mem_allPaths {inp : MergeInput ι η} {p : Str} :
    p ∈ inp.allPaths ↔
      (inp.baseInodes.get p).isSome ∨ (inp.priorDir.fileAt p).isSome ∨ (inp.nInodes.get p).isSome := by
  simp [allPaths, Dict.mem_keys]

private theorem allPaths_nodup (inp : MergeInput ι η) : inp.allPaths.Nodup := sorted_nodup (List.nodup_dedup _)

/-- The hash of the prior revision's file that the merge compares and records. -/
def priorHashAt (inp : MergeInput ι η) (path : Str) (ino : ι) : η := inp.priorHash inp.priorHashesLoad path ino

variable [DecidableEq ι] [DecidableEq η]

/-- The decision of the merge at a path. -/
def outcome (inp : MergeInput ι η) (p : Str) : Outcome :=
  match inp.baseInodes.get p, inp.priorDir.fileAt p, inp.nInodes.get p with
  | none, some _, none => if inp.hasTypeConflict p || inp.tempDir.isDir p then .keepNew else .addFromPrior
  | some b, none, some n => if b = n ∨ inp.baseHashes.get p = inp.nHashes.get p then .delete else .keepNew
  | some b, some q, some n =>
    if q = n ∨ b = q then .keepNew
    else if b = n then .replaceWithPrior
    else if inp.baseHashes.get p = inp.nHashes.get p ∧ inp.baseHashes.get p ≠ some (inp.priorHashAt p q) then
      .replaceWithPrior
    else .keepNew
  | _, _, _ => .keepNew

/-- The file at a path after the merge. -/
def finalFile (inp : MergeInput ι η) (p : Str) : Option ι :=
  match inp.outcome p with
  | .keepNew => inp.nInodes.get p
  | .delete => none
  | .replaceWithPrior | .addFromPrior => inp.priorDir.fileAt p

/-- The value recorded for a path after the merge, in a dictionary that held `new` and takes `prior` from the prior
revision's file. -/
def finalRecord {β : Type} (inp : MergeInput ι η) (new : Dict Str β) (prior : Str → ι → β) (p : Str) : Option β :=
  match inp.outcome p with
  | .keepNew => new.get p
  | .delete => none
  | .replaceWithPrior | .addFromPrior => (inp.priorDir.fileAt p).map (prior p)

omit [DecidableEq η] in
/-- The paths at which the merge indexes `base_hashes`. -/
def IndexesBase (inp : MergeInput ι η) (p : Str) : Prop :=
  ∃ b n, inp.baseInodes.get p = some b ∧ inp.nInodes.get p = some n ∧
    ∀ q, inp.priorDir.fileAt p = some q → q ≠ n ∧ b ≠ q ∧ b ≠ n

omit [DecidableEq ι] [DecidableEq η] in
/-- Every file of the new tree has a hash. -/
def NewHashed (inp : MergeInput ι η) : Prop := ∀ p, (inp.nInodes.get p).isSome → (inp.nHashes.get p).isSome

omit [DecidableEq ι] [DecidableEq η] in
/-- What `merge` expects of its arguments: `n_inodes` lists the files of the temporary directory, every one of
them has a hash, and `base_hashes` has the paths at which it is indexed. -/
structure Valid (inp : MergeInput ι η) : Prop where
  nInodes_eq : ∀ p, inp.nInodes.get p = inp.tempDir.fileAt p
  nHashes_some : inp.NewHashed
  baseHashes_some : ∀ p, inp.IndexesBase p → (inp.baseHashes.get p).isSome

/-- The invariant of the loop: the paths in `done` have their final state and all others their first one. -/
structure LoopInv (inp : MergeInput ι η) (done : List Str) (s : MergeState ι η) : Prop where
  file : ∀ p, s.tempDir.fileAt p = if p ∈ done then inp.finalFile p else inp.nInodes.get p
  dirs_mono : ∀ p, inp.tempDir.isDir p = true → s.tempDir.isDir p = true
  dirs : ∀ p, s.tempDir.isDir p = true →
    inp.tempDir.isDir p = true ∨ ∃ q, (inp.priorDir.fileAt q).isSome ∧ p ∈ parents q
  hashes : ∀ p, s.nHashes.get p =
    if p ∈ done then inp.finalRecord inp.nHashes inp.priorHashAt p else inp.nHashes.get p
  sizes : ∀ p, s.nSizes.get p =
    if p ∈ done then inp.finalRecord inp.nSizes (fun _ i => inp.stSize i) p else inp.nSizes.get p
  loaded : s.priorHashes = none ∨ s.priorHashes = some inp.priorHashesLoad

variable {inp : MergeInput ι η} {done : List Str} {s : MergeState ι η} {p : Str}

omit [DecidableEq ι] [DecidableEq η] in
private theorem priorHashesOf_eq (hl : s.priorHashes = none ∨ s.priorHashes = some inp.priorHashesLoad) :
    inp.priorHashesOf s = inp.priorHashesLoad := by
  unfold priorHashesOf
  rcases hl with h | h <;> rw [h]

omit [DecidableEq ι] [DecidableEq η] in
/-- Linking the prior revision's file to a free path records its hash and size. -/
private theorem linkPrior_ok {q : ι} (hq : inp.priorDir.fileAt p = some q) (hn : s.tempDir.get p = none)
    (hp : s.tempDir.HasParents p) (hl : s.priorHashes = none ∨ s.priorHashes = some inp.priorHashesLoad) :
    ∃ tree, inp.linkPrior p s =
        .ok ⟨tree, s.nHashes.set p (inp.priorHashAt p q), s.nSizes.set p (inp.stSize q), some inp.priorHashesLoad⟩ ∧
      ∀ x, tree.get x = if x = p then some (.file q) else s.tempDir.get x := by
  obtain ⟨tree, ht, hget⟩ := FileTree.link_ok q hn hp
  refine ⟨tree, ?_, hget⟩
  simp only [linkPrior, hq, ht, priorHashesOf_eq hl, ok_bind, mapError_ok]
  rfl

omit [DecidableEq ι] [DecidableEq η] in
/-- Replacing a file of the temporary directory by the prior revision's. -/
private theorem replaceWithPrior_ok {n q : ι} (hn : s.tempDir.fileAt p = some n)
    (hq : inp.priorDir.fileAt p = some q)
    (hl : s.priorHashes = none ∨ s.priorHashes = some inp.priorHashesLoad) :
    ∃ tree, inp.replaceWithPrior p s =
        .ok ⟨tree, s.nHashes.set p (inp.priorHashAt p q), s.nSizes.set p (inp.stSize q), some inp.priorHashesLoad⟩ ∧
      ∀ x, tree.get x = if x = p then some (.file q) else s.tempDir.get x := by
  obtain ⟨t, ht, hget⟩ := FileTree.remove_ok hn
  have hfree : t.get p = none := by rw [hget, if_pos rfl]
  have hpar : t.HasParents p := by
    intro d hd
    rw [FileTree.isDir_iff, hget, if_neg (ne_of_mem_parents hd), ← FileTree.isDir_iff]
    exact FileTree.hasParents_of_get (FileTree.fileAt_iff.1 hn) d hd
  obtain ⟨tree, htree, hget'⟩ := linkPrior_ok (s := { s with tempDir := t }) hq hfree hpar hl
  refine ⟨tree, ?_, fun x => ?_⟩
  · simp only [replaceWithPrior, ht, mapError_ok, ok_bind, htree]
  · rw [hget']
    by_cases hx : x = p <;> simp [hx, hget]

omit [DecidableEq ι] [DecidableEq η] in
/-- Adding the prior revision's file at a path that is free and has no file above it. -/
private theorem addFromPrior_ok {q : ι} (hn : s.tempDir.get p = none)
    (hpar : ∀ d ∈ parents p, s.tempDir.fileAt d = none) (hq : inp.priorDir.fileAt p = some q)
    (hl : s.priorHashes = none ∨ s.priorHashes = some inp.priorHashesLoad) :
    ∃ tree, inp.addFromPrior p s =
        .ok ⟨tree, s.nHashes.set p (inp.priorHashAt p q), s.nSizes.set p (inp.stSize q), some inp.priorHashesLoad⟩ ∧
      ∀ x, tree.get x =
        if x = p then some (.file q) else if x ∈ parents p then some .dir else s.tempDir.get x := by
  obtain ⟨t, ht, hget⟩ := FileTree.makeParents_ok hpar
  have hfree : t.get p = none := by rw [hget, if_neg fun h => ne_of_mem_parents h rfl, hn]
  have hdirs : t.HasParents p := fun d hd => by rw [FileTree.isDir_iff, hget, if_pos hd]
  obtain ⟨tree, htree, hget'⟩ := linkPrior_ok (s := { s with tempDir := t }) hq hfree hdirs hl
  refine ⟨tree, ?_, fun x => ?_⟩
  · simp only [addFromPrior, ht, mapError_ok, ok_bind, htree]
  · rw [hget', hget]

namespace LoopInv

/-- A pass of the loop that leaves all paths but `p` as they are, apart from new directories above a path of the
prior revision, and gives `p` its final state. -/
private theorem change (h : inp.LoopInv done s) {s' : MergeState ι η}
    (hfile : ∀ x, s'.tempDir.fileAt x = if x = p then inp.finalFile p else s.tempDir.fileAt x)
    (hmono : ∀ x, s.tempDir.isDir x = true → s'.tempDir.isDir x = true)
    (hdirs : ∀ x, s'.tempDir.isDir x = true →
      s.tempDir.isDir x = true ∨ ∃ q, (inp.priorDir.fileAt q).isSome ∧ x ∈ parents q)
    (hhash : ∀ x, s'.nHashes.get x =
      if x = p then inp.finalRecord inp.nHashes inp.priorHashAt p else s.nHashes.get x)
    (hsize : ∀ x, s'.nSizes.get x =
      if x = p then inp.finalRecord inp.nSizes (fun _ i => inp.stSize i) p else s.nSizes.get x)
    (hl : s'.priorHashes = none ∨ s'.priorHashes = some inp.priorHashesLoad) :
    inp.LoopInv (done ++ [p]) s' where
  file x := by
    rw [hfile]
    by_cases hx : x = p <;> simp [hx, h.file]
  dirs_mono x hx := hmono x (h.dirs_mono x hx)
  dirs x hx := (hdirs x hx).elim (h.dirs x) Or.inr
  hashes x := by
    rw [hhash]
    by_cases hx : x = p <;> simp [hx, h.hashes]
  sizes x := by
    rw [hsize]
    by_cases hx : x = p <;> simp [hx, h.sizes]
  loaded := hl

/-- A path that the merge leaves to new. -/
private theorem keep (h : inp.LoopInv done s) (hd : p ∉ done) (hout : inp.outcome p = .keepNew) :
    inp.LoopInv (done ++ [p]) s := by
  refine h.change (fun x => ?_) (fun _ => id) (fun _ => Or.inl) (fun x => ?_) (fun x => ?_) h.loaded
  · by_cases hx : x = p
    · subst hx; simp [h.file, hd, finalFile, hout]
    · simp [hx]
  · by_cases hx : x = p
    · subst hx; simp [h.hashes, hd, finalRecord, hout]
    · simp [hx]
  · by_cases hx : x = p
    · subst hx; simp [h.sizes, hd, finalRecord, hout]
    · simp [hx]

/-- A path whose file the merge removes. -/
private theorem delete (h : inp.LoopInv done s) (hd : p ∉ done) (hout : inp.outcome p = .delete) {n : ι}
    (hn : inp.nInodes.get p = some n) :
    ∃ tree, s.tempDir.remove p = .ok tree ∧
      inp.LoopInv (done ++ [p])
        { s with tempDir := tree, nHashes := s.nHashes.pop p, nSizes := s.nSizes.pop p } := by
  have hfile : s.tempDir.fileAt p = some n := by rw [h.file, if_neg hd, hn]
  obtain ⟨tree, hok, hget⟩ := FileTree.remove_ok hfile
  refine ⟨tree, hok, h.change (fun x => ?_) (fun x hx => ?_) (fun x hx => .inl ?_) (fun x => ?_) (fun x => ?_)
    h.loaded⟩
  · by_cases hx : x = p
    · subst hx; simp [FileTree.fileAt, hget, finalFile, hout]
    · simp [FileTree.fileAt, hget, hx]
  · have hne : x ≠ p := by
      rintro rfl
      rw [FileTree.isDir_false_of_fileAt hfile] at hx
      cases hx
    simpa [FileTree.isDir, hget, hne] using hx
  · by_cases hxp : x = p
    · simp [FileTree.isDir, hget, hxp] at hx
    · simpa [FileTree.isDir, hget, hxp] using hx
  · by_cases hx : x = p <;> simp [hx, finalRecord, hout]
  · by_cases hx : x = p <;> simp [hx, finalRecord, hout]

/-- A path that takes the prior revision's file: the tree changes at `p` and by directories above it. -/
private theorem takePrior (h : inp.LoopInv done s)
    (hout : inp.outcome p = .replaceWithPrior ∨ inp.outcome p = .addFromPrior) {q : ι}
    (hq : inp.priorDir.fileAt p = some q) (hfree : s.tempDir.isDir p = false) {tree : FileTree ι}
    (hget : ∀ x, tree.get x = if x = p then some (.file q) else
      if x ∈ parents p then some .dir else s.tempDir.get x)
    (hpar : ∀ d ∈ parents p, s.tempDir.fileAt d = none) :
    inp.LoopInv (done ++ [p])
      ⟨tree, s.nHashes.set p (inp.priorHashAt p q), s.nSizes.set p (inp.stSize q), some inp.priorHashesLoad⟩ := by
  refine h.change (fun x => ?_) (fun x hx => ?_) (fun x hx => ?_) (fun x => ?_) (fun x => ?_) (.inr rfl)
  · by_cases hx : x = p
    · subst hx
      rcases hout with hout | hout <;> simp [FileTree.fileAt_iff.2, hget, finalFile, hout, hq]
    · by_cases hxp : x ∈ parents p
      · simp [hx, FileTree.fileAt, hget, hxp]
        exact (hpar x hxp).symm
      · simp [hx, FileTree.fileAt, hget, hxp]
  · have hne : x ≠ p := by
      rintro rfl
      rw [hfree] at hx
      cases hx
    by_cases hxp : x ∈ parents p
    · simp [FileTree.isDir, hget, hne, hxp]
    · simpa [FileTree.isDir, hget, hne, hxp] using hx
  · by_cases hxp : x ∈ parents p
    · exact .inr ⟨p, by simp [hq], hxp⟩
    · left
      by_cases hx' : x = p
      · simp [FileTree.isDir, hget, hx'] at hx
      · simpa [FileTree.isDir, hget, hx', hxp] using hx
  · by_cases hx : x = p
    · rcases hout with hout | hout <;> simp [hx, finalRecord, hout, hq]
    · simp [hx]
  · by_cases hx : x = p
    · rcases hout with hout | hout <;> simp [hx, finalRecord, hout, hq]
    · simp [hx]

/-- Case 9 where the merge adds the prior revision's file. -/
private theorem add (h : inp.LoopInv done s) (hd : p ∉ done) {q : ι} (hq : inp.priorDir.fileAt p = some q)
    (hn : inp.nInodes.get p = none) (hout : inp.outcome p = .addFromPrior)
    (hconf : inp.hasTypeConflict p = false) (hdir : inp.tempDir.isDir p = false) :
    s.tempDir.isDir p = false ∧ ∃ s', inp.addFromPrior p s = .ok s' ∧ inp.LoopInv (done ++ [p]) s' := by
  have hclear : ∀ d ∈ parents p, inp.nInodes.get d = none := by
    intro d hdp
    by_contra hc
    have : inp.hasTypeConflict p = true := hasTypeConflict_iff.2 (.inr ⟨d, hdp, Option.isSome_iff_ne_none.2 hc⟩)
    rw [hconf] at this
    cases this
  have hsdir : s.tempDir.isDir p = false := by
    by_contra hc
    rcases h.dirs p (by simpa using hc) with hi | ⟨r, hr, hpr⟩
    · rw [hdir] at hi; cases hi
    · obtain ⟨i, hi⟩ := Option.isSome_iff_exists.1 hr
      have := FileTree.hasParents_of_get (FileTree.fileAt_iff.1 hi) p hpr
      rw [FileTree.isDir_false_of_fileAt hq] at this
      cases this
  have hfree : s.tempDir.get p = none := by
    have : s.tempDir.fileAt p = none := by rw [h.file, if_neg hd, hn]
    rcases FileTree.fileAt_eq_none.1 this with h' | h'
    · exact h'
    · rw [hsdir] at h'; cases h'
  have hpar : ∀ d ∈ parents p, s.tempDir.fileAt d = none := by
    intro d hdp
    have hprior : inp.priorDir.fileAt d = none := by
      have := FileTree.hasParents_of_get (FileTree.fileAt_iff.1 hq) d hdp
      exact FileTree.fileAt_eq_none.2 (.inr this)
    rw [h.file]
    split
    · unfold finalFile
      split <;> first | exact hclear d hdp | rfl | exact hprior
    · exact hclear d hdp
  obtain ⟨tree, hok, hget⟩ := addFromPrior_ok hfree hpar hq h.loaded
  exact ⟨hsdir, _, hok, h.takePrior (.inr hout) hq hsdir hget hpar⟩

/-- Case 11, where the prior revision's file replaces new's. -/
private theorem replace (h : inp.LoopInv done s) (hd : p ∉ done) {n q : ι} (hn : inp.nInodes.get p = some n)
    (hq : inp.priorDir.fileAt p = some q) (hout : inp.outcome p = .replaceWithPrior)
    {l : Option (Dict Str η)} (hl : l = none ∨ l = some inp.priorHashesLoad) :
    ∃ s', inp.replaceWithPrior p { s with priorHashes := l } = .ok s' ∧ inp.LoopInv (done ++ [p]) s' := by
  have hfile : s.tempDir.fileAt p = some n := by rw [h.file, if_neg hd, hn]
  have hpar : s.tempDir.HasParents p := FileTree.hasParents_of_get (FileTree.fileAt_iff.1 hfile)
  obtain ⟨tree, hok, hget⟩ := replaceWithPrior_ok (s := { s with priorHashes := l }) hfile hq hl
  refine ⟨_, hok, h.takePrior (.inl hout) hq (FileTree.isDir_false_of_fileAt hfile) (fun x => ?_) fun d hdp =>
    FileTree.fileAt_eq_none.2 (.inr (hpar d hdp))⟩
  rw [hget]
  by_cases hx : x ∈ parents p
  · simp only [hx, ↓reduceIte, FileTree.isDir_iff.1 (hpar x hx)]
  · simp only [hx, ↓reduceIte]

/-- Where the base, the prior and the new tree have the path. -/
private theorem allPresent (hnew : inp.NewHashed) (hbase : inp.IndexesBase p → (inp.baseHashes.get p).isSome)
    (h : inp.LoopInv done s) (hd : p ∉ done) {b q n : ι}
    (hb : inp.baseInodes.get p = some b) (hq : inp.priorDir.fileAt p = some q) (hn : inp.nInodes.get p = some n) :
    ∃ s', inp.mergeAllPresent p b q n s = .ok s' ∧ inp.LoopInv (done ++ [p]) s' := by
  have hout : inp.outcome p = if q = n ∨ b = q then .keepNew else if b = n then .replaceWithPrior
      else if inp.baseHashes.get p = inp.nHashes.get p ∧ inp.baseHashes.get p ≠ some (inp.priorHashAt p q) then
        .replaceWithPrior else .keepNew := by
    simp only [outcome, hb, hq, hn]
  unfold mergeAllPresent
  by_cases h1 : q = n
  · exact ⟨s, by simp [h1], h.keep hd (by rw [hout, if_pos (.inl h1)])⟩
  by_cases h2 : b = q
  · exact ⟨s, by simp [h1, h2], h.keep hd (by rw [hout, if_pos (.inr h2)])⟩
  rw [if_neg (by simp [h1, h2])] at hout
  by_cases h3 : b = n
  · rw [if_pos h3] at hout
    obtain ⟨s', hok, h'⟩ := h.replace hd hn hq hout h.loaded
    exact ⟨s', by rw [if_neg h1, if_neg h2, if_pos h3, hok], h'⟩
  rw [if_neg h3] at hout
  obtain ⟨bh, hbh⟩ := Option.isSome_iff_exists.1 (hbase ⟨b, n, hb, hn, fun q' hq' => by
    rw [hq] at hq'; cases hq'; exact ⟨h1, h2, h3⟩⟩)
  obtain ⟨nh, hnh⟩ := Option.isSome_iff_exists.1 (hnew p (by rw [hn]; rfl))
  have hsnh : s.nHashes.get p = some nh := by rw [h.hashes, if_neg hd, hnh]
  have hload := priorHashesOf_eq h.loaded
  simp only [hbh, hnh, Option.some.injEq, ne_eq] at hout
  simp only [h1, h2, h3, ↓reduceIte, index, hbh, hsnh, ok_bind, hload, pure_eq_ok]
  by_cases h4 : bh = nh
  · have hloaded : inp.LoopInv done { s with priorHashes := some inp.priorHashesLoad } :=
      ⟨h.file, h.dirs_mono, h.dirs, h.hashes, h.sizes, .inr rfl⟩
    by_cases h5 : inp.priorHashAt p q = bh
    · refine ⟨_, ?_, hloaded.keep hd (by rw [hout, if_neg (by simp [h5])])⟩
      simp only [h4, ↓reduceIte]
      rw [← h4, if_neg (by simpa [priorHashAt] using h5)]
    · rw [if_pos ⟨h4, Ne.symm h5⟩] at hout
      obtain ⟨s', hok, h'⟩ := h.replace hd hn hq hout (.inr rfl)
      refine ⟨s', ?_, h'⟩
      simp only [h4, ↓reduceIte]
      rw [← h4, if_pos (by simpa [priorHashAt] using h5), hok]
  · exact ⟨s, by simp [h4], h.keep hd (by rw [hout, if_neg (by simp [h4])])⟩

/-- A pass of the loop that finds the base hash it looks for. -/
private theorem mergePath (hnew : inp.NewHashed) (hbase : inp.IndexesBase p → (inp.baseHashes.get p).isSome)
    (h : inp.LoopInv done s) (hd : p ∉ done) :
    ∃ s', inp.mergePath s p = .ok s' ∧ inp.LoopInv (done ++ [p]) s' := by
  unfold MergeInput.mergePath
  rw [get_priorInodes]
  rcases hb : inp.baseInodes.get p with _ | b <;> rcases hq : inp.priorDir.fileAt p with _ | q <;>
    rcases hn : inp.nInodes.get p with _ | n
  case none.some.none =>
    by_cases hc : inp.hasTypeConflict p = true
    · exact ⟨s, by simp [hc], h.keep hd (by simp [outcome, hb, hq, hn, hc])⟩
    by_cases hdir : inp.tempDir.isDir p = true
    · exact ⟨s, by simp [h.dirs_mono p hdir], h.keep hd (by simp [outcome, hb, hq, hn, hdir])⟩
    simp only [Bool.not_eq_true] at hc hdir
    obtain ⟨hsdir, s', hok, h'⟩ := h.add hd hq hn (by simp [outcome, hb, hq, hn, hc, hdir]) hc hdir
    exact ⟨s', by simpa [hc, hsdir] using hok, h'⟩
  case some.none.some =>
    obtain ⟨bh, hbh⟩ := Option.isSome_iff_exists.1 (hbase ⟨b, n, hb, hn, by simp [hq]⟩)
    obtain ⟨nh, hnh⟩ := Option.isSome_iff_exists.1 (hnew p (by rw [hn]; rfl))
    have hsnh : s.nHashes.get p = some nh := by rw [h.hashes, if_neg hd, hnh]
    by_cases hm : b = n ∨ bh = nh
    · obtain ⟨tree, hok, h'⟩ := h.delete hd (by simp [outcome, hb, hq, hn, hbh, hnh, hm]) hn
      refine ⟨_, ?_, h'⟩
      have hmatch : contentMatches b n bh nh = true := by
        unfold contentMatches
        split
        · rfl
        · simpa using hm.resolve_left ‹_›
      simp [index, hbh, hsnh, hmatch, hok]
    · refine ⟨s, ?_, h.keep hd (by simp [outcome, hb, hq, hn, hbh, hnh, hm])⟩
      have hmatch : contentMatches b n bh nh = false := by
        rw [not_or] at hm
        simp [contentMatches, hm.1, hm.2]
      simp [index, hbh, hsnh, hmatch]
  case some.some.some => exact h.allPresent hnew hbase hd hb hq hn
  all_goals exact ⟨s, rfl, h.keep hd (by simp [outcome, hb, hq, hn])⟩

/-- A pass of the loop that looks for a base hash in vain. -/
private theorem mergePath_keyError (hi : inp.IndexesBase p) (hbase : inp.baseHashes.get p = none) :
    inp.mergePath s p = .error (.keyError p) := by
  obtain ⟨b, n, hb, hn, hq⟩ := hi
  unfold MergeInput.mergePath
  rw [get_priorInodes, hb, hn]
  rcases hp : inp.priorDir.fileAt p with _ | q
  · simp [index, hbase]
  · obtain ⟨h1, h2, h3⟩ := hq q hp
    simp [mergeAllPresent, index, hbase, h1, h2, h3]

end LoopInv

/-- The merge looks up the base hash of every path at which it needs one: it ends in the invariant of its loop if all
of them are there, and otherwise with the `KeyError` of one that is not.  No file operation fails in either case. -/
theorem merge_cases (hi : ∀ p, inp.nInodes.get p = inp.tempDir.fileAt p) (hnew : inp.NewHashed) :
    ((∀ p, inp.IndexesBase p → (inp.baseHashes.get p).isSome) ∧ ∃ s, inp.merge = .ok s ∧ inp.LoopInv inp.allPaths s) ∨
      ∃ p, inp.IndexesBase p ∧ inp.baseHashes.get p = none ∧ inp.merge = .error (.keyError p) := by
  have h₀ : inp.LoopInv [] inp.initial :=
    ⟨fun p => by simpa [initial] using (hi p).symm, fun _ => id, fun _ => Or.inl,
      fun p => by simp [initial], fun p => by simp [initial], .inl rfl⟩
  have hfresh : ∀ {done p rest}, inp.allPaths = done ++ p :: rest → p ∉ done := by
    intro done p rest hxs hm
    have hnd := inp.allPaths_nodup
    rw [hxs, List.nodup_append] at hnd
    exact hnd.2.2 p hm p (by simp) rfl
  have hfound : ∀ {p}, (∀ e, ¬ ((inp.IndexesBase p ∧ inp.baseHashes.get p = none) ∧ e = MergeError.keyError p)) →
      inp.IndexesBase p → (inp.baseHashes.get p).isSome := by
    intro p hgood hp
    by_contra hnone
    exact hgood _ ⟨⟨hp, by simpa using hnone⟩, rfl⟩
  rcases foldlM_ok_or_error inp.LoopInv
      (fun p e => (inp.IndexesBase p ∧ inp.baseHashes.get p = none) ∧ e = .keyError p) h₀
      (fun done p rest s hxs h hgood => h.mergePath hnew (hfound hgood) (hfresh hxs))
      (fun done p rest s e _ _ hbad => hbad.2 ▸ LoopInv.mergePath_keyError hbad.1.1 hbad.1.2) with
    ⟨hgood, s, hok, h⟩ | ⟨p, -, e, ⟨hbad, rfl⟩, herr⟩
  · refine .inl ⟨fun p hp => ?_, s, hok, h⟩
    obtain ⟨b, n, hb, -⟩ := id hp
    exact hfound (hgood p (mem_allPaths.2 (.inl (by rw [hb]; rfl)))) hp
  · exact .inr ⟨p, hbad.1, hbad.2, herr⟩

/-- Where the merge succeeds, each path has its outcome: the file there, and the recorded hash and size. -/
theorem merge_outcome (hi : ∀ p, inp.nInodes.get p = inp.tempDir.fileAt p) (hnew : inp.NewHashed)
    (hok : inp.merge = .ok s) :
    (∀ p, s.tempDir.fileAt p = inp.finalFile p) ∧
      (∀ p, s.nHashes.get p = inp.finalRecord inp.nHashes inp.priorHashAt p) ∧
      (∀ p, s.nSizes.get p = inp.finalRecord inp.nSizes (fun _ i => inp.stSize i) p) := by
  have h : inp.LoopInv inp.allPaths s := by
    rcases merge_cases hi hnew with ⟨-, s', hok', h⟩ | ⟨p, -, -, herr⟩
    · rw [hok] at hok'
      rwa [Except.ok.inj hok']
    · rw [hok] at herr
      cases herr
  -- a path that no tree has is not visited, and nothing is there
  have hout : ∀ p, p ∉ inp.allPaths → inp.outcome p = .keepNew := by
    intro p hp
    simp only [mem_allPaths, not_or, Option.not_isSome_iff_eq_none] at hp
    simp [outcome, hp.1, hp.2.1]
  refine ⟨fun p => ?_, fun p => ?_, fun p => ?_⟩
  · rw [h.file]
    split
    · rfl
    · rename_i hp; simp [finalFile, hout p hp]
  · rw [h.hashes]
    split
    · rfl
    · rename_i hp; simp [finalRecord, hout p hp]
  · rw [h.sizes]
    split
    · rfl
    · rename_i hp; simp [finalRecord, hout p hp]

/-- The merge succeeds, and each path has its outcome. -/
theorem merge_ok (hv : inp.Valid) : ∃ s, inp.merge = .ok s ∧
    (∀ p, s.tempDir.fileAt p = inp.finalFile p) ∧
    (∀ p, s.nHashes.get p = inp.finalRecord inp.nHashes inp.priorHashAt p) ∧
    (∀ p, s.nSizes.get p = inp.finalRecord inp.nSizes (fun _ i => inp.stSize i) p) := by
  rcases merge_cases hv.nInodes_eq hv.nHashes_some with ⟨-, s, hok, -⟩ | ⟨p, hp, hnone, -⟩
  · exact ⟨s, hok, merge_outcome hv.nInodes_eq hv.nHashes_some hok⟩
  · have hsome := hv.baseHashes_some p hp
    rw [hnone] at hsome
    cases hsome

/-- A path that new has and base has not is new's. -/
theorem finalFile_of_added {n : ι} (hb : inp.baseInodes.get p = none) (hn : inp.nInodes.get p = some n) :
    inp.finalFile p = some n := by
  unfold finalFile outcome
  rw [hb, hn]
  rcases inp.priorDir.fileAt p with _ | q <;> rfl

/-- A path that only prior has is prior's, where the merge does not refuse it. -/
theorem finalFile_of_prior {q : ι} (hb : inp.baseInodes.get p = none) (hq : inp.priorDir.fileAt p = some q)
    (hn : inp.nInodes.get p = none) (hr : (inp.hasTypeConflict p || inp.tempDir.isDir p) = false) :
    inp.finalFile p = some q := by
  simp only [finalFile, outcome, hb, hq, hn, hr, Bool.false_eq_true, ↓reduceIte]

end MergeInput

end TrustedReleases
