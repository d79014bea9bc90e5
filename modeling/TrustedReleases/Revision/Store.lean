import TrustedReleases.Attestable.FileState
import TrustedReleases.Merge.Algorithm

/-!
# Revisions and their commits

The revisions of one release and the writer that adds to them (`atr/storage/writers/revision.py`).  A run of
`create_revision_with_quarantine` first reads the revision that it builds on and makes its directory from it (`Run`),
outside of any transaction; later `createRevision` takes the write lock, merges with the revision committed in
between, if there is one, and commits.  A revision's number and key are spellings of its sequence number and stand
for it here.  The phase check and the quarantine of archives belong to the release's state machine.
-/

namespace TrustedReleases

open Lib

variable {ι η ρ : Type}

/-- A committed revision: its directory, the hashes it was committed with and its attestable data. -/
structure Revision (ι η ρ : Type) where
  seq : Nat
  parentKey : Option Nat
  mergeBaseRevisionKey : Option Nat
  tree : FileTree ι
  pathToHash : Dict Str η
  attestable : Attestable η ρ
  recorded : ∃ paths, attestable = .v2 paths ∧ ∀ p, (paths.get p).map (·.contentHash) = pathToHash.get p

/-- The revisions of a release, the latest one first, with the counter that numbers them and their file state rows.
Every row belongs to a revision, and to one only. -/
structure Store (ι η ρ : Type) where
  revisions : List (Revision ι η ρ)
  lastAllocatedNumber : Nat
  rows : List (ReleaseFileState η ρ)
  seq_lt : revisions.Pairwise fun a b => b.seq < a.seq
  seq_le : ∀ r ∈ revisions, r.seq ≤ lastAllocatedNumber
  row_revision : ∀ row ∈ rows, ∃ r ∈ revisions, r.seq = row.sinceRevisionSeq
  row_unique : UniqueRows rows

/-- What a run reads of the disk by inode. -/
structure Disk (ι η : Type) where
  computeFileHash : ι → η
  stSize : ι → Nat

/-- The errors of a run. -/
inductive RevisionError where
  | revisionDoesNotExist (cloneFrom : Nat)
  | merge (e : MergeError)
  | sourceReleaseChanged
  | noLongerLatest (expectedRevision : Nat)
  | provenanceReplaced (dependencyRel generatedRel : Str)
  deriving DecidableEq, Repr

/-- The texts of the errors that the writer raises itself. -/
def RevisionError.message : RevisionError → Option String
  | revisionDoesNotExist cloneFrom => some s!"Revision {cloneFrom} does not exist"
  | merge _ => none
  | sourceReleaseChanged => some "The release has changed, please refresh and try again"
  | noLongerLatest expectedRevision =>
    some s!"Cannot create revision: revision {expectedRevision} is no longer the latest"
  | provenanceReplaced dependencyRel generatedRel =>
    let dependency := String.ofList dependencyRel
    let generated := String.ofList generatedRel
    some s!"A concurrent revision replaced {dependency}; please regenerate {generated}."

namespace Store

/-- A release without revisions.  The counter outlives the releases of its key. -/
def empty (lastAllocatedNumber : Nat) : Store ι η ρ where
  revisions := []
  lastAllocatedNumber := lastAllocatedNumber
  rows := []
  seq_lt := List.Pairwise.nil
  seq_le := by simp
  row_revision := by simp
  row_unique := by simp [UniqueRows]

/-- `latest_revision`. -/
def latestRevision (s : Store ι η ρ) : Option (Revision ι η ρ) := s.revisions.head?

/-- The revision that a run builds on: the one to clone from, or the latest one. -/
def oldRevision (s : Store ι η ρ) (cloneFrom : Option Nat) : Except RevisionError (Option (Revision ι η ρ)) :=
  match cloneFrom with
  | none => .ok s.latestRevision
  | some number =>
    match s.revisions.find? fun r => decide (r.seq = number) with
    | some r => .ok (some r)
    | none => .error (.revisionDoesNotExist number)

end Store

/-- A run of `create_revision_with_quarantine` when it comes to the write lock: what it was called with, the revision
that it read, whether that revision's attestable data could be read, and its directory after `modify`. -/
structure Run (ι η ρ : Type) where
  cloneFrom : Option Nat
  oldRevision : Option (Revision ι η ρ)
  attestableReadable : Bool
  tempDir : FileTree ι
  pathProvenance : Dict Str ρ
  sourceOverride : Bool
  expectedRevision : Option Nat

namespace Run

variable (run : Run ι η ρ)

def mergeEnabled : Bool := run.cloneFrom.isNone

/-- `previous_attestable`, loaded before the lock is taken. -/
def previousAttestable : Option (Attestable η ρ) :=
  if run.attestableReadable then run.oldRevision.map (·.attestable) else none

def baseInodes : Dict Str ι :=
  match run.oldRevision with
  | some old => if run.mergeEnabled then old.tree.files else ∅
  | none => ∅

def baseHashes : Dict Str η :=
  if run.mergeEnabled && run.oldRevision.isSome then (run.previousAttestable.map (·.pathHashes)).getD ∅ else ∅

def nInodes : Dict Str ι := run.tempDir.files

def pathToHash (disk : Disk ι η) : Dict Str η := run.tempDir.files.mapVals fun _ i => disk.computeFileHash i

def pathToSize (disk : Disk ι η) : Dict Str Nat := run.tempDir.files.mapVals fun _ i => disk.stSize i

/-- The arguments of the merge with the prior revision. -/
def mergeInput (disk : Disk ι η) (rows : List (ReleaseFileState η ρ)) (prior : Revision ι η ρ) : MergeInput ι η where
  baseInodes := run.baseInodes
  baseHashes := run.baseHashes
  priorDir := prior.tree
  tempDir := run.tempDir
  nInodes := run.nInodes
  nHashes := run.pathToHash disk
  nSizes := run.pathToSize disk
  releaseFileHashesAt := releaseFileHashesAt rows prior.seq
  computeFileHash := disk.computeFileHash
  stSize := disk.stSize

end Run

/-- What `_lock_and_merge` returns, and the run's directory and hashes after it. -/
structure Locked (ι η ρ : Type) where
  previousAttestable : Option (Attestable η ρ)
  mergeBaseRevisionKey : Option Nat
  priorRevisionKey : Option Nat
  tempDir : FileTree ι
  pathToHash : Dict Str η

/-- The condition under which `_lock_and_merge` merges, with the prior revision. -/
def Run.mergeWith (run : Run ι η ρ) (latest : Option (Revision ι η ρ)) : Option (Revision ι η ρ) :=
  match run.oldRevision, latest with
  | some old, some latest => if run.mergeEnabled && decide (latest.seq ≠ old.seq) then some latest else none
  | _, _ => none

/-- The part of a commit that the run does not determine: whether the prior revision's attestable data can be read
when the lock is held, and the classifications of the paths. -/
structure CommitContext (η : Type) where
  priorReadable : Bool
  computeClassifications : Dict Str η → Str → Str

/-- A run and the context of its commit. -/
structure Commit (ι η ρ : Type) extends Run ι η ρ where
  context : CommitContext η

section Writer

variable [DecidableEq ι] [DecidableEq η] [DecidableEq ρ]

/-- `_lock_and_merge`, after `begin_immediate`. -/
def lockAndMerge (disk : Disk ι η) (s : Store ι η ρ) (c : Commit ι η ρ) : Except MergeError (Locked ι η ρ) :=
  let latest := s.latestRevision
  let priorRevisionKey := latest.map (·.seq)
  match c.mergeWith latest with
  | some prior => do
    let merged ← (c.mergeInput disk s.rows prior).merge
    return {
      previousAttestable := if c.context.priorReadable then some prior.attestable else none
      mergeBaseRevisionKey := priorRevisionKey
      priorRevisionKey := priorRevisionKey
      tempDir := merged.tempDir
      pathToHash := merged.nHashes }
  | none =>
    .ok {
      previousAttestable := c.previousAttestable
      mergeBaseRevisionKey := none
      priorRevisionKey := priorRevisionKey
      tempDir := c.tempDir
      pathToHash := c.pathToHash disk }

/-- `_verify_provenance_sources_unchanged`: the first dependency that a merge replaced, and the path generated from
it.  `dependencies` are the source paths and the signature path in the metadata of an entry. -/
def provenanceReplaced (dependencies : ρ → List Str) (run : Run ι η ρ) (tempDir : FileTree ι) : Option (Str × Str) :=
  run.pathProvenance.entries.findSome? fun e =>
    ((dependencies e.2).find? fun dependency =>
      (run.nInodes.get dependency).isNone || decide (tempDir.fileAt dependency ≠ run.nInodes.get dependency)).map
      fun dependency => (dependency, e.1)

/-- The checks between the lock and the commit. -/
def checkLocked (dependencies : ρ → List Str) (run : Run ι η ρ) (l : Locked ι η ρ) : Except RevisionError Unit :=
  if run.sourceOverride ∧ run.oldRevision.isNone ∧ l.priorRevisionKey.isSome then .error .sourceReleaseChanged
  else
    match run.expectedRevision with
    | some expected =>
      if l.priorRevisionKey ≠ some expected then .error (.noLongerLatest expected) else provenance
    | none => provenance
where
  provenance : Except RevisionError Unit :=
    if l.mergeBaseRevisionKey.isSome then
      match provenanceReplaced dependencies run l.tempDir with
      | some (dependency, generated) => .error (.provenanceReplaced dependency generated)
      | none => .ok ()
    else .ok ()

/-- The sequence number that the next revision gets (`populate_revision_sequence_and_key`). -/
def Store.nextSeq (s : Store ι η ρ) : Nat := s.lastAllocatedNumber + 1

/-- The provenance that a commit records. -/
def Commit.effectiveProvenance (c : Commit ι η ρ) (l : Locked ι η ρ) : Dict Str ρ :=
  effectivePathProvenance c.pathProvenance l.pathToHash l.previousAttestable

/-- The classifications that a commit records. -/
def Commit.classifications (c : Commit ι η ρ) (l : Locked ι η ρ) : Str → Str :=
  c.context.computeClassifications l.pathToHash

/-- The revision that `_commit_new_revision` adds. -/
def newRevision (s : Store ι η ρ) (c : Commit ι η ρ) (l : Locked ι η ρ) : Revision ι η ρ where
  seq := s.nextSeq
  parentKey := s.latestRevision.map (·.seq)
  mergeBaseRevisionKey := l.mergeBaseRevisionKey
  tree := l.tempDir
  pathToHash := l.pathToHash
  attestable := generateFilesData l.pathToHash (c.classifications l) (c.effectiveProvenance l)
  recorded := ⟨_, rfl, fun p => by simp [Function.comp_def]⟩

/-- The rows that `_commit_new_revision` adds. -/
def newRows (s : Store ι η ρ) (c : Commit ι η ρ) (l : Locked ι η ρ) : List (ReleaseFileState η ρ) :=
  if canWriteFileStateRows l.previousAttestable (s.latestRevision.map (·.seq)) then
    computeFileStateRows s.nextSeq l.pathToHash (c.classifications l) l.previousAttestable (c.effectiveProvenance l)
  else []

omit [DecidableEq ι] [DecidableEq η] [DecidableEq ρ] in
theorem base_of_canWrite {previous : Option (Attestable η ρ)} {parentName : Option Nat}
    (h : canWriteFileStateRows previous parentName = true) : previous = none ∨ ∃ paths, previous = some (.v2 paths) := by
  rcases previous with _ | (paths | paths)
  · exact .inl rfl
  · simp [canWriteFileStateRows, Attestable.isV2] at h
  · exact .inr ⟨paths, rfl⟩

omit [DecidableEq ι] in
theorem newRows_seq {s : Store ι η ρ} {c : Commit ι η ρ} {l : Locked ι η ρ} {row : ReleaseFileState η ρ}
    (h : row ∈ newRows s c l) : row.sinceRevisionSeq = s.nextSeq := by
  unfold newRows at h
  split at h
  · rename_i hw
    exact (row_eq (base_of_canWrite hw) h).1
  · cases h

omit [DecidableEq ι] [DecidableEq η] [DecidableEq ρ] in
private theorem Store.row_lt_nextSeq (s : Store ι η ρ) {row : ReleaseFileState η ρ} (h : row ∈ s.rows) :
    row.sinceRevisionSeq < s.nextSeq := by
  obtain ⟨r, hr, he⟩ := s.row_revision row h
  rw [← he]
  exact Nat.lt_succ_of_le (s.seq_le r hr)

omit [DecidableEq ι] in
/-- No two rows have the same key after the new revision's rows are added. -/
theorem newRows_unique (s : Store ι η ρ) (c : Commit ι η ρ) (l : Locked ι η ρ) :
    UniqueRows (s.rows ++ newRows s c l) := by
  intro a ha b hb hp hs
  rcases List.mem_append.1 ha with ha | ha <;> rcases List.mem_append.1 hb with hb | hb
  · exact s.row_unique a ha b hb hp hs
  · have := s.row_lt_nextSeq ha
    rw [hs, newRows_seq hb] at this
    exact absurd this (lt_irrefl _)
  · have := s.row_lt_nextSeq hb
    rw [← hs, newRows_seq ha] at this
    exact absurd this (lt_irrefl _)
  · unfold newRows at ha hb
    split at ha
    · rename_i hw
      rw [if_pos hw] at hb
      exact TrustedReleases.row_unique (base_of_canWrite hw) ha hb hp
    · cases ha

/-- `_commit_new_revision`. -/
def commitNewRevision (s : Store ι η ρ) (c : Commit ι η ρ) (l : Locked ι η ρ) : Store ι η ρ where
  revisions := newRevision s c l :: s.revisions
  lastAllocatedNumber := s.nextSeq
  rows := s.rows ++ newRows s c l
  seq_lt := List.pairwise_cons.2 ⟨fun r hr => Nat.lt_succ_of_le (s.seq_le r hr), s.seq_lt⟩
  seq_le r hr := by
    rcases List.mem_cons.1 hr with rfl | hr
    · exact le_rfl
    · exact le_trans (s.seq_le r hr) (Nat.le_succ _)
  row_revision row hrow := by
    rcases List.mem_append.1 hrow with h | h
    · obtain ⟨r, hr, he⟩ := s.row_revision row h
      exact ⟨r, List.mem_cons_of_mem _ hr, he⟩
    · exact ⟨_, List.mem_cons_self, (newRows_seq h).symm⟩
  row_unique := newRows_unique s c l

/-- The locked part of `create_revision_with_quarantine`, where no archive is quarantined. -/
def createRevision (disk : Disk ι η) (dependencies : ρ → List Str) (s : Store ι η ρ) (c : Commit ι η ρ) :
    Except RevisionError (Store ι η ρ) := do
  let l ← (lockAndMerge disk s c).mapError .merge
  checkLocked dependencies c.toRun l
  return commitNewRevision s c l

/-- A commit that ends well is one of what `_lock_and_merge` returned. -/
theorem createRevision_ok {disk : Disk ι η} {dependencies : ρ → List Str} {s s' : Store ι η ρ} {c : Commit ι η ρ}
    (h : createRevision disk dependencies s c = .ok s') :
    ∃ l, lockAndMerge disk s c = .ok l ∧ checkLocked dependencies c.toRun l = .ok () ∧ s' = commitNewRevision s c l := by
  obtain ⟨l, hl, h⟩ := bind_eq_ok h
  obtain ⟨_, hcheck, h⟩ := bind_eq_ok h
  exact ⟨l, mapError_eq_ok.1 hl, hcheck, (Except.ok.inj h).symm⟩

end Writer

end TrustedReleases
