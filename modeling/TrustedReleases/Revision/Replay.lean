import TrustedReleases.Lib.Run
import TrustedReleases.Revision.Store

/-!
# Reading revisions back from the file state rows

A revision writes its rows against the attestable data of its delta base, and `release_file_hashes_at` reads a
revision back from the rows of all revisions before it.  The two agree as long as the delta base is the revision
before, which it is for ordinary and merged revisions, but not for a revision cloned from an earlier one:
`RestoreAgrees` is what a clone has to meet for its files to be read back.
-/

namespace TrustedReleases

open Lib

variable {ι η ρ : Type}

/-- The revision that a run says it read is one of the release, the one to clone from if there is one. -/
def Run.ReadFrom (run : Run ι η ρ) (s : Store ι η ρ) : Prop :=
  (∀ r, run.oldRevision = some r → r ∈ s.revisions) ∧
    ∀ number, run.cloneFrom = some number → ∃ r, run.oldRevision = some r ∧ r.seq = number

/-- Every revision is read back with the hashes it was committed with. -/
def Store.ReadsBack (s : Store ι η ρ) : Prop :=
  ∀ k ∈ s.revisions, ∀ p, (releaseFileHashesAt s.rows k.seq).get p = k.pathToHash.get p

private theorem Store.empty_readsBack (n : Nat) : (Store.empty n : Store ι η ρ).ReadsBack := by
  intro k hk
  cases hk

/-- The revisions of a release are told apart by their numbers. -/
theorem Store.eq_of_seq {s : Store ι η ρ} {a b : Revision ι η ρ} (ha : a ∈ s.revisions) (hb : b ∈ s.revisions)
    (h : a.seq = b.seq) : a = b := by
  have hsymm : Std.Symm fun a b : Revision ι η ρ => a.seq ≠ b.seq := ⟨fun _ _ => Ne.symm⟩
  have hne := (s.seq_lt.imp fun {a b} hab => ne_of_gt hab : s.revisions.Pairwise fun a b => a.seq ≠ b.seq).forall
  by_contra hab
  exact hne ha hb hab h

/-- The latest revision has the largest number. -/
theorem Store.seq_le_latest {s : Store ι η ρ} {latest r : Revision ι η ρ} (hl : s.latestRevision = some latest)
    (hr : r ∈ s.revisions) : r.seq ≤ latest.seq := by
  have hlt := s.seq_lt
  unfold latestRevision at hl
  cases hrev : s.revisions with
  | nil => rw [hrev] at hr; cases hr
  | cons a rest =>
    rw [hrev] at hl hr hlt
    obtain rfl := Option.some.inj hl
    rcases List.mem_cons.1 hr with rfl | hr
    · exact le_rfl
    · exact le_of_lt ((List.pairwise_cons.1 hlt).1 r hr)

theorem Store.latest_mem {s : Store ι η ρ} {latest : Revision ι η ρ} (hl : s.latestRevision = some latest) :
    latest ∈ s.revisions := List.mem_of_mem_head? hl

/-- A release without a latest revision has no revisions and no rows. -/
private theorem Store.eq_nil_of_latest {s : Store ι η ρ} (hl : s.latestRevision = none) :
    s.revisions = [] ∧ s.rows = [] := by
  have hrev : s.revisions = [] := List.head?_eq_none_iff.1 hl
  refine ⟨hrev, List.eq_nil_iff_forall_not_mem.2 fun row hrow => ?_⟩
  obtain ⟨r, hr, -⟩ := s.row_revision row hrow
  rw [hrev] at hr
  cases hr

/-- The hash of a path in the latest revision. -/
def Store.latestHash (s : Store ι η ρ) (p : Str) : Option η := s.latestRevision.bind (·.pathToHash.get p)

/-- The hash that the attestable data of a revision has for a path. -/
private theorem Revision.baseEntry_hash (r : Revision ι η ρ) (p : Str) :
    (baseEntry (some r.attestable) p).map (·.contentHash) = r.pathToHash.get p := by
  obtain ⟨paths, ha, hp⟩ := r.recorded
  rw [ha, ← hp]
  rfl

section Commit

variable [DecidableEq ι] [DecidableEq η] [DecidableEq ρ] {disk : Disk ι η} {dependencies : ρ → List Str}
  {s s' : Store ι η ρ} {c : Commit ι η ρ} {l : Locked ι η ρ}

omit [DecidableEq ι] in
/-- The revisions before a commit are read back as before. -/
private theorem releaseFileHashesAt_commit {k : Revision ι η ρ} (hk : k ∈ s.revisions) :
    releaseFileHashesAt (commitNewRevision s c l).rows k.seq = releaseFileHashesAt s.rows k.seq := by
  refine releaseFileHashesAt_append fun row hrow => ?_
  rw [newRows_seq hrow]
  exact Nat.lt_succ_of_le (s.seq_le k hk)

omit [DecidableEq ι] in
private theorem Store.ReadsBack.of_commit (h : (commitNewRevision s c l).ReadsBack) : s.ReadsBack := by
  intro k hk p
  rw [← releaseFileHashesAt_commit hk]
  exact h k (List.mem_cons_of_mem _ hk) p

omit [DecidableEq ι] [DecidableEq η] [DecidableEq ρ] in
/-- Without a latest revision nothing is read back, and with one its files are. -/
private theorem releaseFileHashesAt_latest (h : s.ReadsBack) (p : Str) :
    ∃ before < s.nextSeq, (∀ row ∈ s.rows, row.sinceRevisionSeq ≤ before) ∧
      (releaseFileHashesAt s.rows before).get p = s.latestHash p := by
  rcases hl : s.latestRevision with _ | latest
  · obtain ⟨-, hrows⟩ := Store.eq_nil_of_latest hl
    refine ⟨0, Nat.succ_pos _, by simp [hrows], ?_⟩
    simp only [Store.latestHash, hl, hrows]
    rfl
  · refine ⟨latest.seq, Nat.lt_succ_of_le (s.seq_le latest (Store.latest_mem hl)), fun row hrow => ?_, ?_⟩
    · obtain ⟨r, hr, he⟩ := s.row_revision row hrow
      rw [← he]
      exact Store.seq_le_latest hl hr
    · rw [h latest (Store.latest_mem hl)]
      simp only [Store.latestHash, hl, Option.bind_some]

omit [DecidableEq ι] in
/-- A new revision is read back if and only if every path at which it has the entry of its delta base has in the
latest revision the hash it has in the new one: at all other paths it writes a row. -/
private theorem readsBack_commit_iff
    (hw : canWriteFileStateRows l.previousAttestable (s.latestRevision.map (·.seq)) = true)
    (h : s.ReadsBack) :
    (commitNewRevision s c l).ReadsBack ↔
      ∀ p, newEntry l.pathToHash (c.classifications l) (c.effectiveProvenance l) p = baseEntry l.previousAttestable p →
        s.latestHash p = l.pathToHash.get p := by
  have hbase := base_of_canWrite hw
  have hrows : newRows s c l = computeFileStateRows s.nextSeq l.pathToHash (c.classifications l)
      l.previousAttestable (c.effectiveProvenance l) := if_pos hw
  have hread : ∀ p, (releaseFileHashesAt (commitNewRevision s c l).rows s.nextSeq).get p =
      if newEntry l.pathToHash (c.classifications l) (c.effectiveProvenance l) p = baseEntry l.previousAttestable p
      then s.latestHash p else l.pathToHash.get p := by
    intro p
    obtain ⟨before, hlt, hle, hlatest⟩ := releaseFileHashesAt_latest h p
    obtain ⟨hrow, hno⟩ :=
      get_releaseFileHashesAt_append (newRows_unique s c l) hle hlt (fun row hr => newRows_seq hr) p
    split
    · rename_i he
      rw [← hlatest]
      refine hno fun row hr hp => ?_
      rw [hrows] at hr
      exact (exists_row_iff _ hbase).1 ⟨row, hr, hp⟩ he
    · rename_i hne
      obtain ⟨row, hr, hp⟩ := (exists_row_iff s.nextSeq hbase).2 hne
      have hh := (row_eq hbase hr).2
      rw [← hrows] at hr
      rw [← hp, ← hh, hp]
      exact hrow row hr hp
  constructor
  · intro hnew p he
    have := hnew (newRevision s c l) List.mem_cons_self p
    rw [show (newRevision s c l).seq = s.nextSeq from rfl, hread, if_pos he] at this
    exact this
  · intro hagree k hk p
    rcases List.mem_cons.1 hk with rfl | hk
    · rw [show (newRevision s c l).seq = s.nextSeq from rfl, hread]
      split
      · rename_i he; exact hagree p he
      · rfl
    · rw [releaseFileHashesAt_commit hk]
      exact h k hk p

/-! ### Histories -/

/-- The commit writes file state rows: it is the first one, or it has version 2 data of its delta base. -/
def Commit.WritesRows (c : Commit ι η ρ) (disk : Disk ι η) (s : Store ι η ρ) : Prop :=
  ∀ l, lockAndMerge disk s c = .ok l →
    canWriteFileStateRows l.previousAttestable (s.latestRevision.map (·.seq)) = true

/-- The entry that a clone of `old` records for a path. -/
def Commit.restoredEntry (c : Commit ι η ρ) (disk : Disk ι η) (old : Revision ι η ρ) (p : Str) :
    Option (PathEntryV2 η ρ) :=
  newEntry (c.pathToHash disk) (c.context.computeClassifications (c.pathToHash disk))
    (effectivePathProvenance c.pathProvenance (c.pathToHash disk) (some old.attestable)) p

/-- Where a clone of `old` has the entry that `old` has, the latest revision has the hash that `old` has. -/
def Commit.RestoreAgrees (c : Commit ι η ρ) (disk : Disk ι η) (s : Store ι η ρ) : Prop :=
  ∀ old latest, c.cloneFrom.isSome → c.oldRevision = some old → s.latestRevision = some latest →
    ∀ p, c.restoredEntry disk old p = baseEntry (some old.attestable) p →
      latest.pathToHash.get p = old.pathToHash.get p

omit [DecidableEq ρ] in
/-- The delta base of a commit that is not a clone is the latest revision. -/
private theorem base_eq_latest (hl : lockAndMerge disk s c = .ok l) (hr : c.ReadFrom s)
    (hw : canWriteFileStateRows l.previousAttestable (s.latestRevision.map (·.seq)) = true)
    (hc : c.cloneFrom = none) :
    l.previousAttestable = s.latestRevision.map (·.attestable) := by
  unfold lockAndMerge at hl
  cases hlatest : s.latestRevision with
  | none =>
    -- a run has read no revision of a release that has none
    have hold : c.oldRevision = none := by
      rcases ho : c.oldRevision with _ | old
      · rfl
      · have := hr.1 old ho
        rw [(Store.eq_nil_of_latest hlatest).1] at this
        cases this
    simp only [hlatest, Run.mergeWith, hold, Run.previousAttestable] at hl
    rw [← Except.ok.inj hl]
    simp
  | some latest =>
    have hsome : l.previousAttestable ≠ none := by
      intro hnone
      simp [canWriteFileStateRows, hnone, hlatest] at hw
    cases hm : c.mergeWith (some latest) with
    | some prior =>
      have hprior : prior = latest := by
        unfold Run.mergeWith at hm
        split at hm
        · rename_i h
          split at hm
          · rw [← Option.some.inj hm, ← Option.some.inj h]
          · cases hm
        · cases hm
      subst hprior
      simp only [hlatest, hm] at hl
      obtain ⟨merged, -, hl⟩ := bind_eq_ok hl
      have hl := Except.ok.inj hl
      rw [← hl] at hsome ⊢
      by_cases hread : c.context.priorReadable
      · simp [hread]
      · simp [hread] at hsome
    | none =>
      simp only [hlatest, hm] at hl
      have hl := Except.ok.inj hl
      rw [← hl] at hsome ⊢
      unfold Run.previousAttestable at hsome ⊢
      split at hsome
      · rename_i hread
        rw [if_pos hread]
        cases ho : c.oldRevision with
        | none => simp [ho] at hsome
        | some old =>
          -- the run has not been overtaken, so it read the latest revision
          have hseq : latest.seq = old.seq := by
            by_contra hne
            simp [Run.mergeWith, ho, Run.mergeEnabled, hc, hne] at hm
          rw [Store.eq_of_seq (Store.latest_mem hlatest) (hr.1 old ho) hseq]
      · exact absurd rfl hsome

omit [DecidableEq ρ] in
/-- A clone is not merged, and its delta base is the revision it is cloned from. -/
private theorem lockAndMerge_clone {old : Revision ι η ρ} (hl : lockAndMerge disk s c = .ok l)
    (ho : c.oldRevision = some old)
    (hw : canWriteFileStateRows l.previousAttestable (s.latestRevision.map (·.seq)) = true)
    (hr : c.ReadFrom s) (hc : c.cloneFrom.isSome) :
    l.previousAttestable = some old.attestable ∧ l.pathToHash = c.pathToHash disk := by
  have hm : c.mergeWith s.latestRevision = none := by
    unfold Run.mergeWith
    split
    · rw [if_neg]
      simp [Run.mergeEnabled, Option.isNone_eq_false_iff.2 hc]
    · rfl
  simp only [lockAndMerge, hm] at hl
  have hl := Except.ok.inj hl
  rw [← hl] at hw ⊢
  refine ⟨?_, rfl⟩
  by_cases hread : c.attestableReadable
  · simp [Run.previousAttestable, hread, ho]
  · rcases hlatest : s.latestRevision with _ | latest
    · have := hr.1 old ho
      rw [(Store.eq_nil_of_latest hlatest).1] at this
      cases this
    · simp [canWriteFileStateRows, Run.previousAttestable, hread, hlatest] at hw

/-- A commit to a release that reads back gives one that does if and only if it agrees with the latest revision where
it restores an earlier one. -/
private theorem createRevision_readsBack_iff (hstep : createRevision disk dependencies s c = .ok s') (hr : c.ReadFrom s)
    (hw : c.WritesRows disk s) (h : s.ReadsBack) : s'.ReadsBack ↔ c.RestoreAgrees disk s := by
  obtain ⟨l, hl, -, rfl⟩ := createRevision_ok hstep
  have hw := hw l hl
  rw [readsBack_commit_iff hw h]
  -- where the new revision has its base's entry it has its base's hash
  have hhash : ∀ p, newEntry l.pathToHash (c.classifications l) (c.effectiveProvenance l) p =
      baseEntry l.previousAttestable p →
      l.pathToHash.get p = (baseEntry l.previousAttestable p).map (·.contentHash) := by
    intro p he
    rw [← he]
    simp [newEntry, Function.comp_def]
  rcases hc : c.cloneFrom with _ | number
  · have hbase := base_eq_latest hl hr hw hc
    refine ⟨fun _ old latest hsome => ?_, fun _ p he => ?_⟩
    · rw [hc] at hsome; cases hsome
    · rw [hhash p he, hbase]
      unfold Store.latestHash
      rcases s.latestRevision with _ | latest
      · rfl
      · exact (latest.baseEntry_hash p).symm
  · obtain ⟨old, ho, -⟩ := hr.2 number hc
    have hcs : c.cloneFrom.isSome := by rw [hc]; rfl
    obtain ⟨hbase, hp2h⟩ := lockAndMerge_clone hl ho hw hr hcs
    have hentry : ∀ p, newEntry l.pathToHash (c.classifications l) (c.effectiveProvenance l) p =
        c.restoredEntry disk old p := by
      intro p
      unfold Commit.restoredEntry Commit.classifications Commit.effectiveProvenance
      rw [hbase, hp2h]
    rcases hlatest : s.latestRevision with _ | latest
    · have := hr.1 old ho
      rw [(Store.eq_nil_of_latest hlatest).1] at this
      cases this
    · have hlh : ∀ p, s.latestHash p = latest.pathToHash.get p := fun p => by simp [Store.latestHash, hlatest]
      constructor
      · intro hagree old' latest' _ ho' hlatest' p he
        obtain rfl : old = old' := by rw [ho] at ho'; exact Option.some.inj ho'
        obtain rfl : latest = latest' := by rw [hlatest] at hlatest'; exact Option.some.inj hlatest'
        have he' := (hentry p).trans (hbase.symm ▸ he)
        rw [← hlh, hagree p he', hhash p he', hbase, old.baseEntry_hash]
      · intro hagree p he
        have he' := (hentry p).symm.trans (hbase ▸ he)
        rw [hlh, hagree old latest hcs ho hlatest p he', hhash p he, hbase, old.baseEntry_hash]

/-- In every history whose commits all write their rows, every revision is read back with the hashes it was committed
with if and only if every clone of an earlier revision agrees with the revision before it on the paths that it leaves
as they are in the earlier one. -/
theorem history_readsBack_iff {n : Nat} {history : List (Commit ι η ρ)}
    (hrun : runAll (createRevision disk dependencies) (Store.empty n) history = .ok s')
    (hdom : Along (createRevision disk dependencies) (fun s c => c.ReadFrom s ∧ c.WritesRows disk s) (Store.empty n)
      history) :
    (∀ k ∈ s'.revisions, ∀ p, (releaseFileHashesAt s'.rows k.seq).get p = k.pathToHash.get p) ↔
      Along (createRevision disk dependencies) (fun s c => c.RestoreAgrees disk s) (Store.empty n) history := by
  refine Along.good_iff Store.ReadsBack (fun s c s₁ _ hstep h => ?_) (fun s c s₁ hd hstep h => ?_) hrun hdom
    (Store.empty_readsBack n)
  · obtain ⟨l, -, -, rfl⟩ := createRevision_ok hstep
    exact h.of_commit
  · exact createRevision_readsBack_iff hstep hd.1 hd.2 h

end Commit

/-! ### A restored revision that is not read back -/

/-- A commit of the given tree; the hash of a file is its inode. -/
def commitOf (cloneFrom : Option Nat) (old : Option (Revision Nat Nat Unit)) (tree : FileTree Nat) :
    Commit Nat Nat Unit where
  cloneFrom := cloneFrom
  oldRevision := old
  attestableReadable := true
  tempDir := tree
  pathProvenance := ∅
  sourceOverride := false
  expectedRevision := none
  context := ⟨true, fun _ _ => ['s']⟩

/-- What the lock gives such a commit, where nothing is merged. -/
def lockedOf (s : Store Nat Nat Unit) (c : Commit Nat Nat Unit) : Locked Nat Nat Unit where
  previousAttestable := c.previousAttestable
  mergeBaseRevisionKey := none
  priorRevisionKey := s.latestRevision.map (·.seq)
  tempDir := c.tempDir
  pathToHash := c.pathToHash ⟨id, id⟩

/-- The release after such a commit. -/
def storeAfter (s : Store Nat Nat Unit) (c : Commit Nat Nat Unit) : Store Nat Nat Unit :=
  commitNewRevision s c (lockedOf s c)

/-- A first revision with the file `a`. -/
def firstCommit : Commit Nat Nat Unit := commitOf none none (.single ['a'] 1 rfl)

def store₁ : Store Nat Nat Unit := storeAfter (.empty 0) firstCommit

/-- A revision that replaces the file `a`. -/
def replacingCommit : Commit Nat Nat Unit := commitOf none store₁.latestRevision (.single ['a'] 2 rfl)

def store₂ : Store Nat Nat Unit := storeAfter store₁ replacingCommit

/-- The first revision restored. -/
def restoringCommit : Commit Nat Nat Unit := commitOf (some 1) store₁.latestRevision (.single ['a'] 1 rfl)

private theorem writesRows_of_locked {s : Store Nat Nat Unit} {c : Commit Nat Nat Unit}
    (hl : lockAndMerge ⟨id, id⟩ s c = .ok (lockedOf s c))
    (hw : canWriteFileStateRows c.previousAttestable (s.latestRevision.map (·.seq)) = true) :
    c.WritesRows ⟨id, id⟩ s := by
  intro l hl'
  rw [hl] at hl'
  rw [← Except.ok.inj hl']
  exact hw

theorem firstCommit_readFrom : firstCommit.ReadFrom (.empty 0) :=
  ⟨by simp [firstCommit, commitOf], by simp [firstCommit, commitOf]⟩

theorem replacingCommit_readFrom : replacingCommit.ReadFrom store₁ :=
  ⟨fun _ hr => Store.latest_mem (s := store₁) hr, by simp [replacingCommit, commitOf]⟩

theorem restoringCommit_readFrom : restoringCommit.ReadFrom store₂ :=
  ⟨fun _ hr => List.mem_cons_of_mem _ (Store.latest_mem (s := store₁) hr), fun _ hn => ⟨_, rfl, Option.some.inj hn⟩⟩

/-- A revision with `a`, one that replaces it, and the first one restored: the restored revision has the entry of its
delta base and writes no row, so the file of the second one is read back. -/
theorem history_readsBack_fails :
    ∃ s, runAll (createRevision ⟨id, id⟩ fun _ => []) (.empty 0) [firstCommit, replacingCommit, restoringCommit] = .ok s ∧
      Along (createRevision ⟨id, id⟩ fun _ => []) (fun s c => c.ReadFrom s ∧ c.WritesRows ⟨id, id⟩ s) (.empty 0)
        [firstCommit, replacingCommit, restoringCommit] ∧
      ∃ k ∈ s.revisions, k.pathToHash.get ['a'] = some 1 ∧ (releaseFileHashesAt s.rows k.seq).get ['a'] = some 2 := by
  refine ⟨storeAfter store₂ restoringCommit, rfl, ?_, _, List.mem_cons_self, rfl, by decide⟩
  refine Along.cons (t := store₁) rfl ⟨firstCommit_readFrom, writesRows_of_locked rfl rfl⟩ ?_
  refine Along.cons (t := store₂) rfl ⟨replacingCommit_readFrom, writesRows_of_locked rfl rfl⟩ ?_
  exact Along.cons rfl ⟨restoringCommit_readFrom, writesRows_of_locked rfl rfl⟩ trivial

/-- A revision that has the first file again. -/
def revertingCommit : Commit Nat Nat Unit := commitOf none store₂.latestRevision (.single ['a'] 1 rfl)

def store₃ : Store Nat Nat Unit := storeAfter store₂ revertingCommit

private theorem revertingCommit_readFrom : revertingCommit.ReadFrom store₂ :=
  ⟨fun _ hr => Store.latest_mem (s := store₂) hr, by simp [revertingCommit, commitOf]⟩

private theorem restoringCommit_readFrom_again : restoringCommit.ReadFrom store₃ :=
  ⟨fun _ hr => List.mem_cons_of_mem _ (List.mem_cons_of_mem _ (Store.latest_mem (s := store₁) hr)),
    fun _ hn => ⟨_, rfl, Option.some.inj hn⟩⟩

/-- The first revision is restored where the latest one has its files: every revision is read back. -/
theorem history_readsBack_reverted :
    ∃ s, runAll (createRevision ⟨id, id⟩ fun _ => []) (.empty 0)
        [firstCommit, replacingCommit, revertingCommit, restoringCommit] = .ok s ∧
      s.revisions.map (fun k => k.pathToHash.get ['a']) = [some 1, some 1, some 2, some 1] ∧
      ∀ k ∈ s.revisions, ∀ p, (releaseFileHashesAt s.rows k.seq).get p = k.pathToHash.get p := by
  have hrun : runAll (createRevision ⟨id, id⟩ fun _ => []) (.empty 0)
      [firstCommit, replacingCommit, revertingCommit, restoringCommit] = .ok (storeAfter store₃ restoringCommit) := rfl
  refine ⟨_, hrun, by decide, (history_readsBack_iff hrun ?_).2 ?_⟩
  · refine Along.cons (t := store₁) rfl ⟨firstCommit_readFrom, writesRows_of_locked rfl rfl⟩ ?_
    refine Along.cons (t := store₂) rfl ⟨replacingCommit_readFrom, writesRows_of_locked rfl rfl⟩ ?_
    refine Along.cons (t := store₃) rfl ⟨revertingCommit_readFrom, writesRows_of_locked rfl rfl⟩ ?_
    exact Along.cons rfl ⟨restoringCommit_readFrom_again, writesRows_of_locked rfl rfl⟩ trivial
  · refine Along.cons (t := store₁) rfl (fun old latest h => by cases h) ?_
    refine Along.cons (t := store₂) rfl (fun old latest h => by cases h) ?_
    refine Along.cons (t := store₃) rfl (fun old latest h => by cases h) ?_
    refine Along.cons rfl (fun old latest _ hold hlatest p _ => ?_) trivial
    obtain rfl := Option.some.inj hold
    obtain rfl := Option.some.inj hlatest
    rfl

end TrustedReleases
