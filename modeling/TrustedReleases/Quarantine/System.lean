import TrustedReleases.Merge.Outcome
import TrustedReleases.Quarantine.Detection
import TrustedReleases.Revision.Records

/-!
# The quarantine of a release

An upload with archives that need quarantine does not commit: its directory waits until the validation task
(`atr/tasks/quarantine.py`) has extracted the archives, one after the other, and then commits it, merged with the
revisions committed in between.  Extracted archives are kept in directories that are named by the hash of their
content; an archive whose directory is there is not extracted again.  Whether an archive can be extracted is a function
of its content and its suffix.
-/

namespace TrustedReleases

open Lib

variable {ι η ρ : Type}

/-- A run of `create_revision_with_quarantine`: whether it sets path sources, and whether it changes the files. -/
structure Upload (ι η ρ : Type) extends AttributedCommit ι η ρ where
  pathSources : Bool
  modify : Bool

/-- An upload in quarantine: its directory, the latest revision when it was made, and the archives that are still to
be validated, each with the hash that was recorded for it. -/
structure QuarantinedUpload (ι η : Type) where
  quarantineDir : FileTree ι
  priorRevisionKey : Option Nat
  archives : List (Str × η)
  asfUid : Str

/-- A successful extraction of a content from a file with the suffix, when `lastRevision` was the last number
allocated. -/
structure Extraction (η : Type) where
  content : η
  suffix : Str
  lastRevision : Nat
  deriving DecidableEq

/-- A release with its uploads in quarantine, the hashes of the directories of extracted archives, and the extractions
that succeeded. -/
structure Quarantine (ι η ρ : Type) [DecidableEq η] where
  records : Records ι η ρ
  quarantined : Dict Nat (QuarantinedUpload ι η)
  nextId : Nat
  archiveDirs : List η
  extractions : List (Extraction η)
  extracted_le : ∀ e ∈ extractions, e.lastRevision ≤ records.store.lastAllocatedNumber

/-- The errors of a step. -/
inductive QuarantineError where
  | revision (e : RevisionError)
  | sourceNeedsValidation
  | notFound (quarantinedId : Nat)
  | notValidated (quarantinedId : Nat)
  deriving DecidableEq, Repr

/-- The text of the error that the writer raises for archives whose source is to be set. -/
def QuarantineError.message : QuarantineError → Option String
  | revision e => e.message
  | sourceNeedsValidation => some "Source archives need validation before their source can be set."
  | notFound _ | notValidated _ => none

/-- What happens to a release. -/
inductive QuarantineEvent (ι η ρ : Type) where
  | upload (c : Upload ι η ρ)
  /-- the validation task comes to the next archive; `early` is a look for its directory before another task made it -/
  | validate (quarantinedId : Nat) (early : Bool)
  | promote (quarantinedId : Nat) (attestableReadable : Bool) (context : CommitContext η)
  | fail (quarantinedId : Nat)

namespace Quarantine

variable [DecidableEq η]

/-- A release without revisions, and the directories that are there for its key. -/
def empty (lastAllocatedNumber : Nat) (archiveDirs : List η) : Quarantine ι η ρ where
  records := .empty lastAllocatedNumber
  quarantined := ∅
  nextId := 0
  archiveDirs := archiveDirs
  extractions := []
  extracted_le := by simp

/-- The release without an upload, when it has failed or has been promoted. -/
def dropped (s : Quarantine ι η ρ) (quarantinedId : Nat) : Quarantine ι η ρ :=
  { s with quarantined := s.quarantined.pop quarantinedId }

/-- The first archive of an upload is validated. -/
def passed (s : Quarantine ι η ρ) (quarantinedId : Nat) (q : QuarantinedUpload ι η) (rest : List (Str × η)) :
    Quarantine ι η ρ :=
  { s with quarantined := s.quarantined.set quarantinedId { q with archives := rest } }

/-- `_quarantine_archives` -/
def quarantine (s : Quarantine ι η ρ) (c : Upload ι η ρ) (l : Locked ι η ρ) (deduped : List (Str × η)) :
    Quarantine ι η ρ :=
  { s with
    quarantined := s.quarantined.set s.nextId ⟨l.tempDir, l.priorRevisionKey, deduped, c.asfUid⟩
    nextId := s.nextId + 1 }

/-- The hash entries that a commit is handed, if there are any. -/
def previousEntries (s : Quarantine ι η ρ) (c : Commit ι η ρ) : Option (Dict η HashEntry) :=
  (c.previousRevision s.records.store).map fun r => s.records.hashesOf r.seq

/-- The content of a file of an upload and its suffix, if it is an archive that can be extracted. -/
def extractArchive (disk : Disk ι η) (extracts : η → Str → Bool) (q : QuarantinedUpload ι η) (relPath : Str) :
    Option (η × Str) :=
  match q.quarantineDir.fileAt relPath, pathSuffix relPath with
  | some i, some suffix =>
    if extracts (disk.computeFileHash i) suffix then some (disk.computeFileHash i, suffix) else none
  | _, _ => none

/-- The release after a successful extraction, whose directory is named by the recorded hash. -/
def extracted (s : Quarantine ι η ρ) (contentHash : η) (found : η × Str) : Quarantine ι η ρ :=
  { s with
    archiveDirs := contentHash :: s.archiveDirs
    extractions := ⟨found.1, found.2, s.records.store.lastAllocatedNumber⟩ :: s.extractions
    extracted_le := by
      intro e he
      rcases List.mem_cons.1 he with rfl | he
      · exact le_rfl
      · exact s.extracted_le e he }

/-- The validation task skips the archive. -/
def Skips (s : Quarantine ι η ρ) (contentHash : η) (early : Bool) : Prop :=
  contentHash ∈ s.archiveDirs ∧ early = false

instance decidableSkips (s : Quarantine ι η ρ) (contentHash : η) (early : Bool) :
    Decidable (s.Skips contentHash early) := instDecidableAnd

/-- A pass of the loop of `_extract_archives`.  An archive that cannot be extracted fails the upload. -/
def validateNext (disk : Disk ι η) (extracts : η → Str → Bool) (s : Quarantine ι η ρ) (quarantinedId : Nat)
    (early : Bool) : Quarantine ι η ρ :=
  match s.quarantined.get quarantinedId with
  | none => s
  | some q =>
    match q.archives with
    | [] => s
    | (relPath, contentHash) :: rest =>
      if s.Skips contentHash early then s.passed quarantinedId q rest
      else
        match extractArchive disk extracts q relPath with
        | some found => (s.extracted contentHash found).passed quarantinedId q rest
        | none => s.dropped quarantinedId

/-- The commit of an upload that has been validated: it builds on the revision that was the latest when it was made,
and is merged like any other. -/
def promotion (s : Quarantine ι η ρ) (q : QuarantinedUpload ι η) (attestableReadable : Bool) (context : CommitContext η) :
    AttributedCommit ι η ρ where
  cloneFrom := none
  oldRevision := q.priorRevisionKey.bind fun number =>
    s.records.store.revisions.find? fun r => decide (r.seq = number)
  attestableReadable := attestableReadable
  tempDir := q.quarantineDir
  pathProvenance := ∅
  sourceOverride := false
  expectedRevision := none
  context := context
  asfUid := q.asfUid

section Steps

variable [DecidableEq ι] [DecidableEq ρ] (disk : Disk ι η) (dependencies : ρ → List Str) (extracts : η → Str → Bool)

/-- `_commit_new_revision` -/
def commit (s : Quarantine ι η ρ) (c : AttributedCommit ι η ρ) (l : Locked ι η ρ) : Quarantine ι η ρ :=
  { s with
    records := s.records.add c l
    extracted_le := by
      intro e he
      exact Nat.le_succ_of_le (s.extracted_le e he) }

/-- The end of `create_revision_with_quarantine`: the commit, or the quarantine of its archives. -/
def commitOrQuarantine (s : Quarantine ι η ρ) (c : Upload ι η ρ) (l : Locked ι η ρ) :
    Except QuarantineError (Quarantine ι η ρ) :=
  let archivePaths := detectArchivesRequiringQuarantine l.pathToHash (s.previousEntries c.toCommit)
  let deduped := deduplicateQuarantineArchives archivePaths l.pathToHash
  if archivePaths = [] then .ok (s.commit c.toAttributedCommit l)
  -- setting the source on its own brings no new files
  else if (c.sourceOverride ∨ c.pathSources) ∧ ¬ c.modify then .error .sourceNeedsValidation
  else if deduped = [] then .ok (s.commit c.toAttributedCommit l)
  else .ok (s.quarantine c l deduped)

/-- The locked part of `create_revision_with_quarantine`. -/
def upload (s : Quarantine ι η ρ) (c : Upload ι η ρ) : Except QuarantineError (Quarantine ι η ρ) := do
  let l ← (lockAndMerge disk s.records.store c.toCommit).mapError fun e => .revision (.merge e)
  (checkLocked dependencies c.toRun l).mapError .revision
  s.commitOrQuarantine c l

/-- `_promote` -/
def promote (s : Quarantine ι η ρ) (quarantinedId : Nat) (attestableReadable : Bool) (context : CommitContext η) :
    Except QuarantineError (Quarantine ι η ρ) := do
  let q ← demand (s.quarantined.get quarantinedId) (.notFound quarantinedId)
  raiseIf (q.archives ≠ []) (.notValidated quarantinedId)
  let c := s.promotion q attestableReadable context
  let l ← (lockAndMerge disk s.records.store c.toCommit).mapError fun e => .revision (.merge e)
  return (s.commit c l).dropped quarantinedId

/-- A step of the release. -/
def step (s : Quarantine ι η ρ) : QuarantineEvent ι η ρ → Except QuarantineError (Quarantine ι η ρ)
  | .upload c => s.upload disk dependencies c
  | .validate quarantinedId early => .ok (s.validateNext disk extracts quarantinedId early)
  | .promote quarantinedId attestableReadable context => s.promote disk quarantinedId attestableReadable context
  | .fail quarantinedId => .ok (s.dropped quarantinedId)

end Steps

end Quarantine

/-! ### What the lock gives -/

section Locked

variable [DecidableEq ι] [DecidableEq η] {disk : Disk ι η} {s : Store ι η ρ} {c : Commit ι η ρ} {l : Locked ι η ρ}

omit [DecidableEq ι] [DecidableEq η] in
/-- The hash of a prior file that a merge records was computed from the file or read from a row of its path. -/
private theorem priorHashAt_cases {prior : Revision ι η ρ} {p : Str} {i : ι} (hi : prior.tree.fileAt p = some i) :
    (c.mergeInput disk s.rows prior).priorHashAt p i = disk.computeFileHash i ∨
      ∃ row ∈ s.rows, row.path = p ∧ row.hash = some ((c.mergeInput disk s.rows prior).priorHashAt p i) := by
  unfold MergeInput.priorHashAt MergeInput.priorHash
  cases hget : (c.mergeInput disk s.rows prior).priorHashesLoad.get p with
  | none => exact .inl rfl
  | some h =>
    unfold MergeInput.priorHashesLoad at hget
    split at hget
    · left
      have hfile : (c.mergeInput disk s.rows prior).priorInodes.get p = some i := by
        rw [MergeInput.get_priorInodes]
        exact hi
      rw [Dict.get_mapVals, hfile] at hget
      exact (Option.some.inj hget).symm
    · right
      obtain ⟨row, hrow, hp, hhash⟩ := (get_releaseFileHashesAt s.row_unique).1 hget
      exact ⟨row, hrow.mem, hp, hhash⟩

/-- What a merge leaves at a path: the run's own file with its hash, or the file of the prior revision. -/
private theorem mergeInput_outcome {prior : Revision ι η ρ} {merged : MergeState ι η}
    (hm : (c.mergeInput disk s.rows prior).merge = .ok merged) (p : Str) :
    (merged.tempDir.fileAt p = c.tempDir.fileAt p ∧ merged.nHashes.get p = (c.pathToHash disk).get p) ∨
      (merged.tempDir.fileAt p = prior.tree.fileAt p ∧
        merged.nHashes.get p = (prior.tree.fileAt p).map ((c.mergeInput disk s.rows prior).priorHashAt p)) ∨
      (merged.tempDir.fileAt p = none ∧ merged.nHashes.get p = none) := by
  have hi : ∀ q, (c.mergeInput disk s.rows prior).nInodes.get q =
      (c.mergeInput disk s.rows prior).tempDir.fileAt q := fun q => FileTree.get_files _ _
  have hnew : (c.mergeInput disk s.rows prior).NewHashed := by
    intro q hq
    show ((c.pathToHash disk).get q).isSome
    have hq' : (c.tempDir.files.get q).isSome := hq
    simpa [Run.pathToHash] using hq'
  obtain ⟨hfile, hhash, -⟩ := MergeInput.merge_outcome hi hnew hm
  rw [hfile, hhash]
  unfold MergeInput.finalFile MergeInput.finalRecord
  cases (c.mergeInput disk s.rows prior).outcome p with
  | keepNew => exact .inl ⟨hi p, rfl⟩
  | delete => exact .inr (.inr ⟨rfl, rfl⟩)
  | replaceWithPrior => exact .inr (.inl ⟨rfl, rfl⟩)
  | addFromPrior => exact .inr (.inl ⟨rfl, rfl⟩)

omit [DecidableEq ι] [DecidableEq η] in
/-- The hash of a file of the run. -/
private theorem get_pathToHash (p : Str) :
    (c.pathToHash disk).get p = (c.tempDir.fileAt p).map disk.computeFileHash := by
  unfold Run.pathToHash
  rw [Dict.get_mapVals, FileTree.get_files]

/-- The files after the lock are the run's own, with their hash, or those of a committed revision. -/
theorem lockAndMerge_file (hl : lockAndMerge disk s c = .ok l) {p : Str} {i : ι} (hi : l.tempDir.fileAt p = some i) :
    (c.tempDir.fileAt p = some i ∧ l.pathToHash.get p = some (disk.computeFileHash i)) ∨
      ∃ prior ∈ s.revisions, prior.tree.fileAt p = some i := by
  unfold lockAndMerge at hl
  cases hm : c.mergeWith s.latestRevision with
  | none =>
    simp only [hm] at hl
    rw [← Except.ok.inj hl] at hi ⊢
    exact .inl ⟨hi, by rw [get_pathToHash, hi]; rfl⟩
  | some prior =>
    simp only [hm] at hl
    obtain ⟨merged, hmerged, hl⟩ := bind_eq_ok hl
    rw [← Except.ok.inj hl] at hi ⊢
    rcases mergeInput_outcome hmerged p with ⟨hfile, hhash⟩ | ⟨hfile, -⟩ | ⟨hfile, -⟩
    · have hown : c.tempDir.fileAt p = some i := hfile.symm.trans hi
      exact .inl ⟨hown, by rw [hhash, get_pathToHash, hown]; rfl⟩
    · exact .inr ⟨prior, Store.latest_mem (mergeWith_latest hm), hfile.symm.trans hi⟩
    · rw [hfile] at hi
      cases hi

/-- The hashes after the lock are those of the files there, or were read from a row of the path. -/
theorem lockAndMerge_hash (hl : lockAndMerge disk s c = .ok l) {p : Str} {h : η} (hh : l.pathToHash.get p = some h) :
    (∃ i, l.tempDir.fileAt p = some i ∧ disk.computeFileHash i = h) ∨
      ∃ row ∈ s.rows, row.path = p ∧ row.hash = some h := by
  have hown : ∀ {file : Option ι}, (c.pathToHash disk).get p = some h → file = c.tempDir.fileAt p →
      ∃ i, file = some i ∧ disk.computeFileHash i = h := by
    intro file hget hfile
    rw [get_pathToHash, Option.map_eq_some_iff] at hget
    obtain ⟨i, hi, he⟩ := hget
    exact ⟨i, hfile.trans hi, he⟩
  unfold lockAndMerge at hl
  cases hm : c.mergeWith s.latestRevision with
  | none =>
    simp only [hm] at hl
    rw [← Except.ok.inj hl] at hh ⊢
    exact .inl (hown hh rfl)
  | some prior =>
    simp only [hm] at hl
    obtain ⟨merged, hmerged, hl⟩ := bind_eq_ok hl
    rw [← Except.ok.inj hl] at hh ⊢
    rcases mergeInput_outcome hmerged p with ⟨hfile, hhash⟩ | ⟨hfile, hhash⟩ | ⟨-, hhash⟩
    · exact .inl (hown (hhash.symm.trans hh) hfile)
    · have hprior := hhash.symm.trans hh
      rw [Option.map_eq_some_iff] at hprior
      obtain ⟨i, hi, he⟩ := hprior
      rcases priorHashAt_cases hi with hcomputed | hrow
      · exact .inl ⟨i, hfile.trans hi, hcomputed.symm.trans he⟩
      · rw [he] at hrow
        exact .inr hrow
    · have hnone := hhash.symm.trans hh
      cases hnone

end Locked

end TrustedReleases
