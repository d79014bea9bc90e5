import TrustedReleases.Attestable.Hashes
import TrustedReleases.Revision.Replay

/-!
# The attribution records of a release

Every commit writes the hash entries of its revision next to its files, rebuilt from the entries of one revision
before: the one that it merges with, or else the one that it read.  A history holds the revisions of a release
together with their entries and with what each of them was built on.
-/

namespace TrustedReleases

open Lib

variable {ι η ρ : Type}

/-- A commit and the user who makes it. -/
structure AttributedCommit (ι η ρ : Type) extends Commit ι η ρ where
  asfUid : Str

namespace Commit

/-- The revision that a commit builds on: the one that it merges with, or the one that it read. -/
def builtOn (c : Commit ι η ρ) (s : Store ι η ρ) : Option (Revision ι η ρ) :=
  match c.mergeWith s.latestRevision with
  | some prior => some prior
  | none => c.oldRevision

/-- The revision whose attestable data a commit is handed: the one that it builds on, if its data can be read. -/
def previousRevision (c : Commit ι η ρ) (s : Store ι η ρ) : Option (Revision ι η ρ) :=
  match c.mergeWith s.latestRevision with
  | some prior => if c.context.priorReadable then some prior else none
  | none => if c.attestableReadable then c.oldRevision else none

end Commit

/-- A committed revision with the hash entries of its attestable data and the revision that it was built on. -/
structure RevisionRecord (ι η ρ : Type) where
  revision : Revision ι η ρ
  builtOn : Option (Revision ι η ρ)
  hashes : Dict η HashEntry

/-- The entries of a revision name uploaders, and only in revisions up to it. -/
structure RevisionRecord.Uploaded [DecidableEq η] (r : RevisionRecord ι η ρ) : Prop where
  nonempty : ∀ h, (r.hashes.get h).isSome → uploadersOf r.hashes h ≠ []
  number_le : ∀ h, ∀ u ∈ uploadersOf r.hashes h, u.2 ≤ r.revision.seq

/-- A release with the records of its revisions, the latest one first. -/
structure Records (ι η ρ : Type) [DecidableEq η] where
  store : Store ι η ρ
  recorded : List (RevisionRecord ι η ρ)
  complete : recorded.map (·.revision) = store.revisions
  uploaded : ∀ r ∈ recorded, r.Uploaded

section Writer

variable [DecidableEq η]

namespace Records

/-- A release without revisions. -/
def empty (lastAllocatedNumber : Nat) : Records ι η ρ where
  store := .empty lastAllocatedNumber
  recorded := []
  complete := rfl
  uploaded := by simp

/-- The hash entries in the attestable data of a revision. -/
def hashesOf (s : Records ι η ρ) (seq : Nat) : Dict η HashEntry :=
  ((s.recorded.find? fun r => decide (r.revision.seq = seq)).map (·.hashes)).getD ∅

/-- The hash entries that a commit is handed. -/
def previousHashes (s : Records ι η ρ) (c : Commit ι η ρ) : Dict η HashEntry :=
  match c.previousRevision s.store with
  | some r => s.hashesOf r.seq
  | none => ∅

theorem revision_mem {s : Records ι η ρ} {r : RevisionRecord ι η ρ} (hr : r ∈ s.recorded) :
    r.revision ∈ s.store.revisions := by
  rw [← s.complete]
  exact List.mem_map_of_mem hr

/-- Reading the entries of a revision gives those that were recorded for it. -/
theorem hashesOf_revision {s : Records ι η ρ} {k : Revision ι η ρ} (hk : k ∈ s.store.revisions) :
    ∃ r ∈ s.recorded, r.revision = k ∧ s.hashesOf k.seq = r.hashes := by
  unfold hashesOf
  cases hfind : s.recorded.find? fun r => decide (r.revision.seq = k.seq) with
  | none =>
    rw [← s.complete] at hk
    obtain ⟨r, hr, he⟩ := List.mem_map.1 hk
    have hne := List.find?_eq_none.1 hfind r hr
    simp [he] at hne
  | some r =>
    have hr := List.mem_of_find?_eq_some hfind
    have hseq : r.revision.seq = k.seq := by simpa using List.find?_some hfind
    exact ⟨r, hr, Store.eq_of_seq (revision_mem hr) hk hseq, rfl⟩

/-- A commit is handed no entries, or those of a recorded revision. -/
theorem previousHashes_cases (s : Records ι η ρ) (c : Commit ι η ρ) :
    s.previousHashes c = ∅ ∨ ∃ r ∈ s.recorded, s.previousHashes c = r.hashes := by
  unfold previousHashes
  cases c.previousRevision s.store with
  | none => exact .inl rfl
  | some k =>
    show s.hashesOf k.seq = ∅ ∨ ∃ r ∈ s.recorded, s.hashesOf k.seq = r.hashes
    unfold hashesOf
    cases hfind : s.recorded.find? fun r => decide (r.revision.seq = k.seq) with
    | none => exact .inl rfl
    | some r => exact .inr ⟨r, List.mem_of_find?_eq_some hfind, rfl⟩

end Records

variable [DecidableEq ι] [DecidableEq ρ]

/-- The record that `_commit_new_revision` writes. -/
def newRecord (s : Records ι η ρ) (c : AttributedCommit ι η ρ) (l : Locked ι η ρ) : RevisionRecord ι η ρ where
  revision := newRevision s.store c.toCommit l
  builtOn := c.builtOn s.store
  hashes := computeHashesWithAttribution l.pathToHash ((l.previousAttestable.map (·.pathHashes)).getD ∅)
    (s.previousHashes c.toCommit) (c.asfUid, s.store.nextSeq)

omit [DecidableEq ι] [DecidableEq ρ] in
private theorem newRecord_uploaded (s : Records ι η ρ) (c : AttributedCommit ι η ρ) (l : Locked ι η ρ) :
    (newRecord s c l).Uploaded := by
  have hprevious : ∀ h, ((s.previousHashes c.toCommit).get h).isSome →
      uploadersOf (s.previousHashes c.toCommit) h ≠ [] := by
    intro h hsome
    rcases s.previousHashes_cases c.toCommit with hempty | ⟨r, hr, he⟩
    · simp [hempty] at hsome
    · rw [he] at hsome ⊢
      exact (s.uploaded r hr).nonempty h hsome
  constructor
  · intro h hsome
    have hmem : ∃ u, u ∈ uploadersOf (newRecord s c l).hashes h := by
      cases hget : (s.previousHashes c.toCommit).get h with
      | none =>
        have hnew : h ∈ contents l.pathToHash := by
          have hcases := isSome_computeHashes.1 hsome
          simpa [hget] using hcases
        exact ⟨_, mem_uploadersOf_computeHashes.2 (.inr ⟨rfl, hnew, .inl hget⟩)⟩
      | some e =>
        obtain ⟨u, hu⟩ := List.exists_mem_of_ne_nil _ (hprevious h (by simp [hget]))
        exact ⟨u, mem_uploadersOf_computeHashes.2 (.inl hu)⟩
    obtain ⟨u, hu⟩ := hmem
    exact List.ne_nil_of_mem hu
  · intro h u hu
    show u.2 ≤ s.store.nextSeq
    rcases mem_uploadersOf_computeHashes.1 hu with hold | ⟨rfl, -, -⟩
    · rcases s.previousHashes_cases c.toCommit with hempty | ⟨r, hr, he⟩
      · simp [hempty, uploadersOf] at hold
      · rw [he] at hold
        have hle := (s.uploaded r hr).number_le h u hold
        have hlast := s.store.seq_le _ (Records.revision_mem hr)
        unfold Store.nextSeq
        omega
    · exact le_rfl

/-- The release after a commit. -/
def Records.add (s : Records ι η ρ) (c : AttributedCommit ι η ρ) (l : Locked ι η ρ) : Records ι η ρ where
  store := commitNewRevision s.store c.toCommit l
  recorded := newRecord s c l :: s.recorded
  complete := by
    rw [List.map_cons, s.complete]
    rfl
  uploaded := by
    intro r hr
    rcases List.mem_cons.1 hr with rfl | hr
    · exact newRecord_uploaded s c l
    · exact s.uploaded r hr

/-- `createRevision` with the record of its revision. -/
def createRecorded (disk : Disk ι η) (dependencies : ρ → List Str) (s : Records ι η ρ) (c : AttributedCommit ι η ρ) :
    Except RevisionError (Records ι η ρ) := do
  let l ← (lockAndMerge disk s.store c.toCommit).mapError .merge
  checkLocked dependencies c.toRun l
  return s.add c l

/-- A commit that ends well adds its revision and its record. -/
theorem createRecorded_ok {disk : Disk ι η} {dependencies : ρ → List Str} {s s' : Records ι η ρ}
    {c : AttributedCommit ι η ρ} (h : createRecorded disk dependencies s c = .ok s') :
    ∃ l, lockAndMerge disk s.store c.toCommit = .ok l ∧ s' = s.add c l := by
  obtain ⟨l, hl, h⟩ := bind_eq_ok h
  obtain ⟨_, -, h⟩ := bind_eq_ok h
  exact ⟨l, mapError_eq_ok.1 hl, (Except.ok.inj h).symm⟩

variable {disk : Disk ι η} {s : Store ι η ρ} {c : Commit ι η ρ} {l : Locked ι η ρ}

omit [DecidableEq ρ] in
/-- The attestable data that the lock hands to the commit. -/
theorem lockAndMerge_previous (hl : lockAndMerge disk s c = .ok l) :
    l.previousAttestable = (c.previousRevision s).map (·.attestable) := by
  unfold lockAndMerge at hl
  unfold Commit.previousRevision
  cases hm : c.mergeWith s.latestRevision with
  | some prior =>
    simp only [hm] at hl
    obtain ⟨merged, -, hl⟩ := bind_eq_ok hl
    rw [← Except.ok.inj hl]
    by_cases hread : c.context.priorReadable
    · simp [hread]
    · simp [hread]
  | none =>
    simp only [hm] at hl
    rw [← Except.ok.inj hl]
    by_cases hread : c.attestableReadable
    · simp [Run.previousAttestable, hread]
    · simp [Run.previousAttestable, hread]

omit [DecidableEq ρ] in
/-- Without a merge the files are those of the run. -/
theorem lockAndMerge_alone (hl : lockAndMerge disk s c = .ok l) (hm : c.mergeWith s.latestRevision = none) :
    l.pathToHash = c.pathToHash disk := by
  simp only [lockAndMerge, hm] at hl
  rw [← Except.ok.inj hl]

omit [DecidableEq ι] [DecidableEq η] [DecidableEq ρ] in
/-- A commit merges with the latest revision only. -/
theorem mergeWith_latest {latest : Option (Revision ι η ρ)} {prior : Revision ι η ρ}
    (hm : c.mergeWith latest = some prior) : latest = some prior := by
  unfold Run.mergeWith at hm
  split at hm
  · split at hm
    · rw [Option.some.inj hm]
    · cases hm
  · cases hm

omit [DecidableEq ι] [DecidableEq η] [DecidableEq ρ] in
/-- What a commit builds on is a revision of the release. -/
theorem builtOn_mem (hr : c.ReadFrom s) {k : Revision ι η ρ} (hk : c.builtOn s = some k) : k ∈ s.revisions := by
  unfold Commit.builtOn at hk
  cases hm : c.mergeWith s.latestRevision with
  | some prior =>
    rw [hm] at hk
    obtain rfl := Option.some.inj hk
    exact Store.latest_mem (mergeWith_latest hm)
  | none =>
    rw [hm] at hk
    exact hr.1 k hk

omit [DecidableEq ι] [DecidableEq η] [DecidableEq ρ] in
theorem builtOn_of_previous {k : Revision ι η ρ} (hk : c.previousRevision s = some k) : c.builtOn s = some k := by
  unfold Commit.previousRevision at hk
  unfold Commit.builtOn
  cases hm : c.mergeWith s.latestRevision with
  | some prior =>
    simp only [hm] at hk
    split at hk
    · exact hk
    · cases hk
  | none =>
    simp only [hm] at hk
    split at hk
    · exact hk
    · cases hk

end Writer

end TrustedReleases
