import TrustedReleases.Lib.Run
import TrustedReleases.Merge.Law
import TrustedReleases.Revision.Replay

/-!
# Two concurrent uploads

Two runs of `create_revision_with_quarantine` on one release, each of which reads the latest revision, adds files to
its tree and later commits, in any interleaving.  The merge keeps the files of both whenever it runs; it does not run
where a run had read no revision, and then the later commit publishes its own tree only.
-/

namespace TrustedReleases

open Lib

variable {ι η ρ : Type}

/-- `new` is `old` with the files of `added`, and the directories above them. -/
structure AddsOnly (old new : FileTree ι) (added : Dict Str ι) : Prop where
  keeps : ∀ p e, old.get p = some e → new.get p = some e
  adds : ∀ p i, added.get p = some i → old.get p = none ∧ new.get p = some (.file i)
  only : ∀ p e, new.get p = some e → old.get p = some e ∨ (∃ i, added.get p = some i ∧ e = .file i) ∨
    e = .dir ∧ ∃ q, (added.get q).isSome ∧ p ∈ parents q

/-- No path of one upload is a path of the other, or a directory above one. -/
def Apart (a b : Dict Str ι) : Prop :=
  ∀ p q, (a.get p).isSome → (b.get q).isSome → p ≠ q ∧ p ∉ parents q ∧ q ∉ parents p

theorem Apart.symm {a b : Dict Str ι} (h : Apart a b) : Apart b a :=
  fun p q hp hq => let ⟨h1, h2, h3⟩ := h q p hq hp; ⟨h1.symm, h3, h2⟩

/-- How far a run is: it has read nothing, is on its way to the lock, or has committed a revision. -/
inductive Progress (ι η ρ : Type) where
  | idle
  | prepared (c : Commit ι η ρ)
  | committed (c : Commit ι η ρ) (seq : Nat)

/-- The release and the two runs. -/
structure TwoRuns (ι η ρ : Type) where
  store : Store ι η ρ
  run : Bool → Progress ι η ρ

/-- The tree that an ordinary run starts from: a hard link clone of the old revision's, or an empty directory. -/
def Run.startTree (run : Run ι η ρ) : FileTree ι :=
  match run.oldRevision with
  | some old => old.tree
  | none => .empty

section Step

variable [DecidableEq ι] [DecidableEq η] [DecidableEq ρ]

/-- A step of one of the runs: it reads the latest revision and adds its files, or it takes the lock and commits. -/
inductive TwoRuns.Step (disk : Disk ι η) (dependencies : ρ → List Str) (added : Bool → Dict Str ι) :
    TwoRuns ι η ρ → TwoRuns ι η ρ → Prop
  | read (s : TwoRuns ι η ρ) (i : Bool) (c : Commit ι η ρ) (hi : s.run i = .idle) (hc : c.cloneFrom = none)
      (hread : s.store.oldRevision c.cloneFrom = .ok c.oldRevision)
      (hadd : AddsOnly c.startTree c.tempDir (added i)) :
      Step disk dependencies added s { s with run := Function.update s.run i (.prepared c) }
  | commit (s : TwoRuns ι η ρ) (i : Bool) (c : Commit ι η ρ) (store : Store ι η ρ) (hi : s.run i = .prepared c)
      (hstore : createRevision disk dependencies s.store c = .ok store) :
      Step disk dependencies added s
        ⟨store, Function.update s.run i (.committed c s.store.nextSeq)⟩

/-- The latest revision has every file that a run added. -/
def Store.KeepsBoth (s : Store ι η ρ) (added : Bool → Dict Str ι) : Prop :=
  ∀ i p ino, (added i).get p = some ino → ∃ latest, s.latestRevision = some latest ∧ latest.tree.fileAt p = some ino

/-- Both runs read the release while it had no revision, and the one that committed first added a file. -/
def TwoRuns.Blind (s : TwoRuns ι η ρ) (added : Bool → Dict Str ι) : Prop :=
  ∃ i j c c' seq seq', s.run i = .committed c seq ∧ s.run j = .committed c' seq' ∧ seq < seq' ∧
    c.oldRevision = none ∧ c'.oldRevision = none ∧ ∃ p, ((added i).get p).isSome

/-- An ordinary run that has read the revision `old` and added its files. -/
structure Run.Fresh (run : Run ι η ρ) (old : Option (Revision ι η ρ)) (added : Dict Str ι) : Prop where
  ordinary : run.cloneFrom = none
  old_eq : run.oldRevision = old
  adds : AddsOnly run.startTree run.tempDir added

variable {disk : Disk ι η} {dependencies : ρ → List Str} {added : Bool → Dict Str ι} {s₀ store store' : Store ι η ρ}

omit [DecidableEq ι] [DecidableEq η] [DecidableEq ρ] in
/-- A run that has read the latest revision need not merge. -/
theorem Run.Fresh.mergeWith_latest {run : Run ι η ρ} {added : Dict Str ι} {s : Store ι η ρ}
    (h : run.Fresh s.latestRevision added) : run.mergeWith s.latestRevision = none := by
  unfold Run.mergeWith
  rw [h.old_eq]
  rcases s.latestRevision with _ | latest
  · rfl
  · simp

/-- A run that has read the latest revision publishes its own tree. -/
private theorem createRevision_latest {added : Dict Str ι} {s : Store ι η ρ} {c : Commit ι η ρ}
    (h : c.Fresh s.latestRevision added) (hstep : createRevision disk dependencies s c = .ok store) :
    ∃ l, l.tempDir = c.tempDir ∧ store = commitNewRevision s c l := by
  obtain ⟨l, hl, -, rfl⟩ := createRevision_ok hstep
  refine ⟨l, ?_, rfl⟩
  simp only [lockAndMerge, h.mergeWith_latest] at hl
  rw [← Except.ok.inj hl]

omit [DecidableEq ι] [DecidableEq η] [DecidableEq ρ] in
private theorem AddsOnly.fileAt_added {old new : FileTree ι} {added : Dict Str ι} (h : AddsOnly old new added) {p : Str}
    {i : ι} (hp : added.get p = some i) : new.fileAt p = some i := FileTree.fileAt_iff.2 (h.adds p i hp).2

omit [DecidableEq ι] [DecidableEq η] [DecidableEq ρ] in
private theorem AddsOnly.fileAt_old {old new : FileTree ι} {added : Dict Str ι} (h : AddsOnly old new added) {p : Str}
    {i : ι} (hp : old.fileAt p = some i) : new.fileAt p = some i :=
  FileTree.fileAt_iff.2 (h.keeps p _ (FileTree.fileAt_iff.1 hp))

omit [DecidableEq ι] [DecidableEq η] [DecidableEq ρ] in
/-- A file of the new tree is an old one or an added one. -/
private theorem AddsOnly.fileAt_cases {old new : FileTree ι} {added : Dict Str ι} (h : AddsOnly old new added) {p : Str}
    {i : ι} (hp : new.fileAt p = some i) : old.fileAt p = some i ∨ added.get p = some i := by
  rcases h.only p _ (FileTree.fileAt_iff.1 hp) with ho | ⟨j, hj, he⟩ | ⟨he, -⟩
  · exact .inl (FileTree.fileAt_iff.2 ho)
  · cases he
    exact .inr hj
  · cases he

omit [DecidableEq ρ] in
/-- Two runs from the same revision: the second one merges with the first one's revision, and the merge keeps the
files of both. -/
private theorem lockAndMerge_overtaken {old prior : Revision ι η ρ} {a b : Dict Str ι} (hap : Apart a b)
    (hlatest : store.latestRevision = some prior) (hne : prior.seq ≠ old.seq)
    (hprior : AddsOnly old.tree prior.tree a) {c : Commit ι η ρ} (hc : c.Fresh (some old) b) {l : Locked ι η ρ}
    (hl : lockAndMerge disk store c = .ok l) {p : Str} {i : ι} (hp : a.get p = some i ∨ b.get p = some i) :
    l.tempDir.fileAt p = some i := by
  have hadd : AddsOnly old.tree c.tempDir b := by
    have := hc.adds
    rwa [show c.startTree = old.tree by simp [Run.startTree, hc.old_eq]] at this
  have hm : c.mergeWith store.latestRevision = some prior := by
    simp [Run.mergeWith, hc.old_eq, hlatest, Run.mergeEnabled, hc.ordinary, hne]
  have hbase : (c.mergeInput disk store.rows prior).baseInodes = old.tree.files := by
    simp [Run.mergeInput, Run.baseInodes, hc.old_eq, Run.mergeEnabled, hc.ordinary]
  -- prior and new are both hard link clones of base, so base's files have one inode in all three trees
  have hv : (c.mergeInput disk store.rows prior).Valid := by
    refine ⟨fun q => FileTree.get_files _ _, fun q hq => ?_, fun q hq => ?_⟩
    · simpa [Run.mergeInput, Run.nInodes, Run.pathToHash] using hq
    · obtain ⟨x, n, hx, hn, hall⟩ := hq
      rw [hbase, FileTree.get_files] at hx
      have hn' : c.tempDir.fileAt q = some n := by rw [← hn]; exact (FileTree.get_files _ _).symm
      have hxn : x = n := by
        have := hadd.fileAt_old hx
        rw [hn'] at this
        exact (Option.some.inj this).symm
      exact absurd hxn (hall x (hprior.fileAt_old hx)).2.2
  obtain ⟨m, hmerge, hfile, -, -⟩ := MergeInput.merge_ok hv
  have hlm : l.tempDir = m.tempDir := by
    simp only [lockAndMerge, hm, hmerge, ok_bind, pure_eq_ok] at hl
    rw [← Except.ok.inj hl]
  rw [hlm, hfile]
  have hnew : (c.mergeInput disk store.rows prior).nInodes.get p = c.tempDir.fileAt p := FileTree.get_files _ _
  rcases hp with hp | hp
  · -- a path that only the prior revision added
    have hbp : (c.mergeInput disk store.rows prior).baseInodes.get p = none := by
      rw [hbase, FileTree.get_files]
      exact FileTree.fileAt_eq_none.2 (.inl (hprior.adds p i hp).1)
    have hpp : (c.mergeInput disk store.rows prior).priorDir.fileAt p = some i := hprior.fileAt_added hp
    have hnp : (c.mergeInput disk store.rows prior).nInodes.get p = none := by
      rw [hnew]
      by_contra hsome
      obtain ⟨x, hx⟩ := Option.ne_none_iff_exists'.1 hsome
      rcases hadd.fileAt_cases hx with ho | hb
      · have := FileTree.fileAt_iff.1 ho
        rw [(hprior.adds p i hp).1] at this
        cases this
      · exact (hap p p (by rw [hp]; rfl) (by rw [hb]; rfl)).1 rfl
    refine MergeInput.finalFile_of_prior hbp hpp hnp ?_
    rw [Bool.eq_false_iff, ne_eq, MergeInput.refuses_iff hv]
    rintro (hdir | ⟨d, hd, hf⟩)
    · rcases hadd.only p _ (FileTree.isDir_iff.1 hdir) with ho | ⟨x, -, he⟩ | ⟨-, q, hq, hpq⟩
      · rw [(hprior.adds p i hp).1] at ho; cases ho
      · cases he
      · exact (hap p q (by rw [hp]; rfl) hq).2.1 hpq
    · obtain ⟨x, hx⟩ := Option.isSome_iff_exists.1 hf
      rcases hadd.fileAt_cases hx with ho | hb
      · have := FileTree.hasParents_of_get (FileTree.fileAt_iff.1 hpp) d hd
        rw [show (c.mergeInput disk store.rows prior).priorDir = prior.tree from rfl,
          FileTree.isDir_false_of_fileAt (hprior.fileAt_old ho)] at this
        cases this
      · exact (hap p d (by rw [hp]; rfl) (by rw [hb]; rfl)).2.2 hd
  · -- a path that this run added
    have hbp : (c.mergeInput disk store.rows prior).baseInodes.get p = none := by
      rw [hbase, FileTree.get_files]
      exact FileTree.fileAt_eq_none.2 (.inl (hadd.adds p i hp).1)
    exact MergeInput.finalFile_of_added hbp (by rw [hnew]; exact hadd.fileAt_added hp)

/-- The second commit, after a run with the files of `a` has committed on `s₀`. -/
private theorem secondCommit_keeps_iff {i : Bool} {c c' : Commit ι η ρ} {l : Locked ι η ρ}
    (hap : ∀ j, Apart (added j) (added !j)) (hc : c.Fresh s₀.latestRevision (added i)) (hl : l.tempDir = c.tempDir)
    (hc' : c'.Fresh s₀.latestRevision (added !i) ∨ c'.Fresh (commitNewRevision s₀ c l).latestRevision (added !i))
    (hstep : createRevision disk dependencies (commitNewRevision s₀ c l) c' = .ok store) :
    store.KeepsBoth added ↔
      ¬ (c.oldRevision = none ∧ c'.oldRevision = none ∧ ∃ p, ((added i).get p).isSome) := by
  obtain ⟨l', hl', -, rfl⟩ := createRevision_ok hstep
  have hkeep : (commitNewRevision (commitNewRevision s₀ c l) c' l').KeepsBoth added ↔
      ∀ p ino, ((added i).get p = some ino ∨ (added !i).get p = some ino) → l'.tempDir.fileAt p = some ino := by
    constructor
    · rintro h p ino (hp | hp) <;>
      · obtain ⟨latest, hlatest, hf⟩ := h _ p ino hp
        rw [← Option.some.inj hlatest] at hf
        exact hf
    · intro h j p ino hp
      refine ⟨_, rfl, h p ino ?_⟩
      rcases Bool.eq_or_eq_not j i with rfl | rfl
      · exact .inl hp
      · exact .inr hp
  rw [hkeep]
  rcases hc' with hc' | hc'
  · rcases hold : s₀.latestRevision with _ | old
    · -- both runs have read no revision, so the second one publishes its own files only
      rw [hold] at hc hc'
      have hnone : c'.mergeWith (commitNewRevision s₀ c l).latestRevision = none := by
        simp [Run.mergeWith, hc'.old_eq]
      have hl'' : l'.tempDir = c'.tempDir := by
        simp only [lockAndMerge, hnone] at hl'
        rw [← Except.ok.inj hl']
      have hstart : c'.startTree = .empty := by simp [Run.startTree, hc'.old_eq]
      have hadd := hc'.adds
      rw [hstart] at hadd
      rw [hl'']
      constructor
      · rintro h ⟨-, -, p, hp⟩
        obtain ⟨ino, hp⟩ := Option.isSome_iff_exists.1 hp
        rcases hadd.fileAt_cases (h p ino (.inl hp)) with ho | ho
        · cases ho
        · exact (hap i p p (by rw [hp]; rfl) (by rw [ho]; rfl)).1 rfl
      · rintro h p ino (hp | hp)
        · exact absurd ⟨hc.old_eq, hc'.old_eq, p, by rw [hp]; rfl⟩ h
        · exact hadd.fileAt_added hp
    · -- the second run has been overtaken and merges
      rw [hold] at hc hc'
      refine ⟨fun _ hb => ?_, fun _ p ino hp => ?_⟩
      · rw [hc.old_eq] at hb; cases hb.1
      · have hadd : AddsOnly old.tree (newRevision s₀ c l).tree (added i) := by
          have := hc.adds
          rwa [show c.startTree = old.tree by simp [Run.startTree, hc.old_eq], ← hl] at this
        have hseq : (newRevision s₀ c l).seq ≠ old.seq :=
          ne_of_gt (Nat.lt_succ_of_le (s₀.seq_le old (Store.latest_mem hold)))
        exact lockAndMerge_overtaken (hap i) rfl hseq hadd hc' hl' hp
  · -- the second run has read the first one's revision
    have hl'' : l'.tempDir = c'.tempDir := by
      simp only [lockAndMerge, hc'.mergeWith_latest] at hl'
      rw [← Except.ok.inj hl']
    have hstart : c'.startTree = c.tempDir := by
      have : c'.oldRevision = some (newRevision s₀ c l) := hc'.old_eq
      simp only [Run.startTree, this]
      exact hl
    have hadd := hc'.adds
    rw [hstart] at hadd
    refine ⟨fun _ hb => ?_, ?_⟩
    · have := hb.2.1
      rw [hc'.old_eq] at this
      cases this
    · rintro - p ino (hp | hp)
      · rw [hl'']
        exact hadd.fileAt_old (hc.adds.fileAt_added hp)
      · rw [hl'']
        exact hadd.fileAt_added hp

/-! ### All interleavings -/

/-- How far the two runs are together, with what is known then. -/
inductive Stage (s₀ : Store ι η ρ) (added : Bool → Dict Str ι) (s : TwoRuns ι η ρ) : Prop
  | before (hs : s.store = s₀)
      (h : ∀ i, s.run i = .idle ∨ ∃ c, s.run i = .prepared c ∧ c.Fresh s₀.latestRevision (added i))
  | between (i : Bool) (c : Commit ι η ρ) (l : Locked ι η ρ) (hi : s.run i = .committed c s₀.nextSeq)
      (hc : c.Fresh s₀.latestRevision (added i)) (hl : l.tempDir = c.tempDir) (hs : s.store = commitNewRevision s₀ c l)
      (h : s.run (!i) = .idle ∨ ∃ c', s.run (!i) = .prepared c' ∧
        (c'.Fresh s₀.latestRevision (added !i) ∨ c'.Fresh s.store.latestRevision (added !i)))
  | after (i : Bool) (c c' : Commit ι η ρ) (hi : s.run i = .committed c s₀.nextSeq)
      (hi' : s.run (!i) = .committed c' (s₀.nextSeq + 1))
      (h : s.store.KeepsBoth added ↔
        ¬ (c.oldRevision = none ∧ c'.oldRevision = none ∧ ∃ p, ((added i).get p).isSome))

theorem Stage.step {s s' : TwoRuns ι η ρ} (hap : ∀ j, Apart (added j) (added !j)) (h : Stage s₀ added s)
    (hstep : TwoRuns.Step disk dependencies added s s') : Stage s₀ added s' := by
  cases hstep with
  | read i c hi hc hread hadd =>
    have hfresh : c.Fresh s.store.latestRevision (added i) := by
      refine ⟨hc, ?_, hadd⟩
      rw [hc] at hread
      exact (Except.ok.inj hread).symm
    cases h with
    | before hs h =>
      refine .before hs fun j => ?_
      by_cases hj : j = i
      · subst hj
        exact .inr ⟨c, Function.update_self .., hs ▸ hfresh⟩
      · simpa [Function.update_of_ne hj] using h j
    | between j c₁ l hj hc₁ hl hs h =>
      have hij : i = !j := by
        rcases Bool.eq_or_eq_not i j with rfl | h'
        · rw [hi] at hj; cases hj
        · exact h'
      subst hij
      refine .between j c₁ l ?_ hc₁ hl hs (.inr ⟨c, Function.update_self .., .inr hfresh⟩)
      simpa using hj
    | after j c₁ c₂ hj hj' h =>
      rcases Bool.eq_or_eq_not i j with rfl | rfl
      · rw [hi] at hj; cases hj
      · rw [hi] at hj'; cases hj'
  | commit i c store hi hstore =>
    cases h with
    | before hs h =>
      have hfresh : c.Fresh s₀.latestRevision (added i) := by
        rcases h i with h' | ⟨c', h', hc'⟩
        · rw [hi] at h'; cases h'
        · rw [hi] at h'; cases h'; exact hc'
      rw [hs] at hstore
      obtain ⟨l, hl, rfl⟩ := createRevision_latest hfresh hstore
      refine .between i c l (by simp [hs]) hfresh hl rfl ?_
      have hne : (!i) ≠ i := by simp
      rcases h (!i) with h' | ⟨c', h', hc'⟩
      · exact .inl (by simpa [Function.update_of_ne hne] using h')
      · exact .inr ⟨c', by simpa [Function.update_of_ne hne] using h', .inl hc'⟩
    | between j c₁ l hj hc₁ hl hs h =>
      have hij : i = !j := by
        rcases Bool.eq_or_eq_not i j with rfl | h'
        · rw [hi] at hj; cases hj
        · exact h'
      subst hij
      have hc' : c.Fresh s₀.latestRevision (added !j) ∨ c.Fresh s.store.latestRevision (added !j) := by
        rcases h with h' | ⟨c', h', hc'⟩
        · rw [hi] at h'; cases h'
        · rw [hi] at h'; cases h'; exact hc'
      rw [hs] at hstore hc'
      refine .after j c₁ c (by simpa using hj) ?_ (secondCommit_keeps_iff hap hc₁ hl hc' hstore)
      simp [hs, commitNewRevision, Store.nextSeq]
    | after j c₁ c₂ hj hj' h =>
      rcases Bool.eq_or_eq_not i j with rfl | rfl
      · rw [hi] at hj; cases hj
      · rw [hi] at hj'; cases hj'

/-- Of two runs that add files apart from each other and have both committed, in any interleaving and on any release,
the latest revision has all files if and only if it is not the case that both runs had read no revision and the first
one to commit added a file. -/
theorem twoRuns_keepsBoth_iff {s : TwoRuns ι η ρ} (hap : Apart (added false) (added true))
    (hrun : Reaches (TwoRuns.Step disk dependencies added) ⟨s₀, fun _ => .idle⟩ s)
    (hdone : ∀ i, ∃ c seq, s.run i = .committed c seq) : s.store.KeepsBoth added ↔ ¬ s.Blind added := by
  have hap' : ∀ j, Apart (added j) (added !j) := fun j => by cases j <;> [exact hap; exact hap.symm]
  have hstage := hrun.invariant (fun _ _ h hstep => Stage.step hap' h hstep) (.before rfl fun _ => .inl rfl)
  cases hstage with
  | before hs h =>
    obtain ⟨c, seq, hc⟩ := hdone true
    rcases h true with h' | ⟨c', h', -⟩ <;> rw [hc] at h' <;> cases h'
  | between i c l hi hc hl hs h =>
    obtain ⟨c', seq, hc'⟩ := hdone (!i)
    rcases h with h' | ⟨c'', h', -⟩ <;> rw [hc'] at h' <;> cases h'
  | after i c c' hi hi' h =>
    rw [h, not_iff_not]
    constructor
    · rintro ⟨ho, ho', hp⟩
      exact ⟨i, !i, c, c', _, _, hi, hi', Nat.lt_succ_self _, ho, ho', hp⟩
    · rintro ⟨j, k, d, d', seq, seq', hj, hk, hlt, ho, ho', hp⟩
      -- the second number is the larger one, so the runs are the first and the second one
      have hboth : ∀ m e x, s.run m = .committed e x → m = i ∧ e = c ∧ x = s₀.nextSeq ∨
          m = (!i) ∧ e = c' ∧ x = s₀.nextSeq + 1 := by
        intro m e x hm
        rcases Bool.eq_or_eq_not m i with rfl | rfl
        · rw [hi] at hm; cases hm; exact .inl ⟨rfl, rfl, rfl⟩
        · rw [hi'] at hm; cases hm; exact .inr ⟨rfl, rfl, rfl⟩
      rcases hboth j d seq hj with ⟨rfl, rfl, rfl⟩ | ⟨rfl, rfl, rfl⟩ <;>
        rcases hboth k d' seq' hk with ⟨-, rfl, rfl⟩ | ⟨-, rfl, rfl⟩
      · exact absurd hlt (lt_irrefl _)
      · exact ⟨ho, ho', hp⟩
      · exact absurd hlt (Nat.not_lt.2 (Nat.le_succ _))
      · exact absurd hlt (lt_irrefl _)

end Step

/-! ### Two first uploads -/

/-- Adding a file to a directory that exists. -/
private theorem addsOnly_insert (t : FileTree ι) (p : Str) (i : ι) (hp : t.HasParents p) (hn : t.get p = none) :
    AddsOnly t (t.insert p (.file i) hp hn) ((∅ : Dict Str ι).set p i) where
  keeps q e hq := by
    have hqp : q ≠ p := by rintro rfl; rw [hn] at hq; cases hq
    rw [FileTree.get_insert, if_neg hqp, hq]
  adds q j hq := by
    rw [Dict.get_set] at hq
    split at hq
    · rename_i hqp
      subst hqp
      obtain rfl := Option.some.inj hq
      exact ⟨hn, by simp⟩
    · cases hq
  only q e hq := by
    rw [FileTree.get_insert] at hq
    split at hq
    · rename_i hqp
      exact .inr (.inl ⟨i, by simp [hqp], (Option.some.inj hq).symm⟩)
    · exact .inl hq

/-- One run adds the file `a` and the other the file `b`. -/
def twoFiles (i : Bool) : Dict Str Nat := if i then (∅ : Dict Str Nat).set ['b'] 2 else (∅ : Dict Str Nat).set ['a'] 1

private theorem twoFiles_apart : Apart (twoFiles false) (twoFiles true) := by
  intro p q hp hq
  have hp' : p = ['a'] := by by_contra h; simp [twoFiles, h] at hp
  have hq' : q = ['b'] := by by_contra h; simp [twoFiles, h] at hq
  subst hp' hq'
  decide

/-- Both runs read a release without revisions, and commit one after the other: the second revision has the file `b`
only. -/
theorem twoRuns_loses_first :
    ∃ s : TwoRuns Nat Nat Unit, Apart (twoFiles false) (twoFiles true) ∧
      Reaches (TwoRuns.Step ⟨id, id⟩ (fun _ => []) twoFiles) ⟨.empty 0, fun _ => .idle⟩ s ∧
      (∀ i, ∃ c seq, s.run i = .committed c seq) ∧
      (twoFiles false).get ['a'] = some 1 ∧
      ∃ latest, s.store.latestRevision = some latest ∧ latest.seq = 2 ∧ latest.tree.fileAt ['a'] = none := by
  let c₂ : Commit Nat Nat Unit := commitOf none none (.single ['b'] 2 rfl)
  have h₁ : Reaches (TwoRuns.Step ⟨id, id⟩ (fun _ => []) twoFiles) ⟨.empty 0, fun _ => .idle⟩ _ :=
    .single (.read _ false firstCommit rfl rfl rfl (addsOnly_insert .empty ['a'] 1 (by decide) (by decide)))
  have h₂ := h₁.tail (.read _ true c₂ rfl rfl rfl (addsOnly_insert .empty ['b'] 2 (by decide) (by decide)))
  have h₃ := h₂.tail (.commit _ false firstCommit store₁ rfl rfl)
  have h₄ := h₃.tail (.commit _ true c₂ (storeAfter store₁ c₂) rfl rfl)
  refine ⟨_, twoFiles_apart, h₄, fun i => ?_, rfl, _, rfl, rfl, by decide⟩
  cases i <;> exact ⟨_, _, rfl⟩

/-- The second run reads the revision of the first one: both files are kept. -/
theorem twoRuns_keepsBoth_sequential :
    ∃ s : TwoRuns Nat Nat Unit, Reaches (TwoRuns.Step ⟨id, id⟩ (fun _ => []) twoFiles) ⟨.empty 0, fun _ => .idle⟩ s ∧
      s.store.KeepsBoth twoFiles := by
  let c₂ : Commit Nat Nat Unit := commitOf none store₁.latestRevision
    ((FileTree.single ['a'] 1 rfl).insert ['b'] (.file 2) (by decide) (by decide))
  have h₁ : Reaches (TwoRuns.Step ⟨id, id⟩ (fun _ => []) twoFiles) ⟨.empty 0, fun _ => .idle⟩ _ :=
    .single (.read _ false firstCommit rfl rfl rfl (addsOnly_insert .empty ['a'] 1 (by decide) (by decide)))
  have h₂ := h₁.tail (.commit _ false firstCommit store₁ rfl rfl)
  have h₃ := h₂.tail (.read _ true c₂ rfl rfl rfl (addsOnly_insert _ ['b'] 2 (by decide) (by decide)))
  have h₄ := h₃.tail (.commit _ true c₂ (storeAfter store₁ c₂) rfl rfl)
  refine ⟨_, h₄, (twoRuns_keepsBoth_iff twoFiles_apart h₄ fun i => ?_).2 ?_⟩
  · cases i <;> exact ⟨_, _, rfl⟩
  · rintro ⟨i, j, c, c', seq, seq', hi, hj, hlt, -, ho', -⟩
    -- the run that read no revision is the first one, and no other run committed before it
    cases j
    · cases i
      · rw [hi] at hj
        cases hj
        exact absurd hlt (lt_irrefl _)
      · cases hi
        cases hj
        exact absurd hlt (by decide)
    · cases hj
      cases ho'

end TrustedReleases
