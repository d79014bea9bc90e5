import TrustedReleases.Lib.FileTree

/-!
# The three-way merge of revisions

The merge that `_lock_and_merge` runs when another revision was committed since an upload read its base
(`atr/merge.py`).  The new tree in `tempDir` is brought up to date with the prior revision: what the upload left as it
was in the base takes the prior revision's state, and what the upload changed stays.  Files are compared by inode
first and by content hash where the inodes differ; `nHashes` and `nSizes` are updated along with the tree.  File and
directory permissions are not modelled.
-/

namespace TrustedReleases

open Lib

variable {ι η : Type}

/-- The arguments of `merge` and what it reads of the disk (`computeFileHash`, `stSize`, by inode) and of the
database (`releaseFileHashesAt`, the rows of the prior revision). -/
structure MergeInput (ι η : Type) where
  baseInodes : Dict Str ι
  baseHashes : Dict Str η
  priorDir : FileTree ι
  tempDir : FileTree ι
  nInodes : Dict Str ι
  nHashes : Dict Str η
  nSizes : Dict Str Nat
  releaseFileHashesAt : Dict Str η
  computeFileHash : ι → η
  stSize : ι → Nat

/-- What the loop of `merge` changes: the temporary directory, `n_hashes`, `n_sizes` and the prior hashes, which are
loaded when they are first needed. -/
structure MergeState (ι η : Type) where
  tempDir : FileTree ι
  nHashes : Dict Str η
  nSizes : Dict Str Nat
  priorHashes : Option (Dict Str η)

/-- A merge fails with the error of a file operation or with the `KeyError` of a dictionary. -/
inductive MergeError where
  | os (e : FsError)
  | keyError (path : Str)
  deriving DecidableEq, Repr

/-- `d[path]`. -/
def index {β : Type} (d : Dict Str β) (path : Str) : Except MergeError β :=
  match d.get path with
  | some v => .ok v
  | none => .error (.keyError path)

namespace MergeInput

/-- `paths_to_inodes(prior_dir)`. -/
def priorInodes (inp : MergeInput ι η) : Dict Str ι := inp.priorDir.files

/-- The implicit directory paths of the new files. -/
def nDirs (inp : MergeInput ι η) : List Str := inp.nInodes.keys.flatMap parents

/-- `base_inodes.keys() | prior_inodes.keys() | n_inodes.keys()`, sorted. -/
def allPaths (inp : MergeInput ι η) : List Str :=
  sorted (inp.baseInodes.keys ++ inp.priorInodes.keys ++ inp.nInodes.keys).dedup

/-- `_has_type_conflict`: new has a directory at the path, or a file above it. -/
def hasTypeConflict (inp : MergeInput ι η) (path : Str) : Bool :=
  decide (path ∈ inp.nDirs) || (parents path).any fun d => (inp.nInodes.get d).isSome

/-- `_prior_hashes_load`: the stored rows, or the hashes of the files where there are no rows. -/
def priorHashesLoad (inp : MergeInput ι η) : Dict Str η :=
  if inp.releaseFileHashesAt.keys.isEmpty then inp.priorInodes.mapVals fun _ i => inp.computeFileHash i
  else inp.releaseFileHashesAt

/-- The hash recorded for the prior revision's file: the loaded one, or else the one computed from the file. -/
def priorHash (inp : MergeInput ι η) (loaded : Dict Str η) (path : Str) (ino : ι) : η :=
  match loaded.get path with
  | some h => h
  | none => inp.computeFileHash ino

/-- The prior hashes, loaded if they are not there yet. -/
def priorHashesOf (inp : MergeInput ι η) (s : MergeState ι η) : Dict Str η :=
  match s.priorHashes with
  | some d => d
  | none => inp.priorHashesLoad

/-- What `_add_from_prior` and `_replace_with_prior` share: the hard link of the prior revision's file at `path` and
the update of `n_hashes` and `n_sizes` in place. -/
def linkPrior (inp : MergeInput ι η) (path : Str) (s : MergeState ι η) : Except MergeError (MergeState ι η) := do
  let ino ← match inp.priorDir.fileAt path with
    | some i => Except.ok i
    | none => .error (.os (.fileNotFound path))
  let tree ← (s.tempDir.link path ino).mapError .os
  let loaded := inp.priorHashesOf s
  return {
    tempDir := tree
    nHashes := s.nHashes.set path (inp.priorHash loaded path ino)
    nSizes := s.nSizes.set path (inp.stSize ino)
    priorHashes := some loaded }

/-- `_add_from_prior`. -/
def addFromPrior (inp : MergeInput ι η) (path : Str) (s : MergeState ι η) : Except MergeError (MergeState ι η) := do
  let tree ← (s.tempDir.makeParents path).mapError .os
  inp.linkPrior path { s with tempDir := tree }

/-- `_replace_with_prior`. -/
def replaceWithPrior (inp : MergeInput ι η) (path : Str) (s : MergeState ι η) :
    Except MergeError (MergeState ι η) := do
  let tree ← (s.tempDir.remove path).mapError .os
  inp.linkPrior path { s with tempDir := tree }

variable [DecidableEq ι] [DecidableEq η]

/-- `_content_matches`. -/
def contentMatches (bIno nIno : ι) (bHash nHash : η) : Bool :=
  if bIno = nIno then true else decide (bHash = nHash)

/-- `_merge_all_present`: the base, the prior and the new tree have the path. -/
def mergeAllPresent (inp : MergeInput ι η) (path : Str) (bIno pIno nIno : ι) (s : MergeState ι η) :
    Except MergeError (MergeState ι η) := do
  -- cases 6, 8: prior and new share an inode so they already agree
  if pIno = nIno then
    return s
  -- cases 4, 5: base and prior share an inode so there was no intervening change
  if bIno = pIno then
    return s
  -- case 11 via inode: base and new share an inode so prior wins
  if bIno = nIno then
    return ← inp.replaceWithPrior path s
  -- cases 4, 5, 8, 11, 15: all inodes differ
  let bHash ← index inp.baseHashes path
  let nHash ← index s.nHashes path
  if bHash = nHash then
    let loaded := inp.priorHashesOf s
    let s := { s with priorHashes := some loaded }
    if inp.priorHash loaded path pIno ≠ bHash then
      -- case 11 via hash
      return ← inp.replaceWithPrior path s
    return s
  return s

/-- The body of the loop of `merge`. -/
def mergePath (inp : MergeInput ι η) (s : MergeState ι η) (path : Str) : Except MergeError (MergeState ι η) :=
  match inp.baseInodes.get path, inp.priorInodes.get path, inp.nInodes.get path with
  -- case 9: only the prior revision introduced this path
  | none, some _, none =>
    if inp.hasTypeConflict path then .ok s
    else if s.tempDir.isDir path then .ok s
    else inp.addFromPrior path s
  -- the prior revision deleted a path that both base and new have
  | some bIno, none, some nIno => do
    let bHash ← index inp.baseHashes path
    let nHash ← index s.nHashes path
    if contentMatches bIno nIno bHash nHash then
      -- case 10: new still has the base content so the deletion applies
      let tree ← (s.tempDir.remove path).mapError .os
      return { s with tempDir := tree, nHashes := s.nHashes.pop path, nSizes := s.nSizes.pop path }
    -- case 13: new has different content so new wins
    return s
  | some bIno, some pIno, some nIno => inp.mergeAllPresent path bIno pIno nIno s
  | _, _, _ => .ok s

/-- The state in which the loop of `merge` starts. -/
def initial (inp : MergeInput ι η) : MergeState ι η := ⟨inp.tempDir, inp.nHashes, inp.nSizes, none⟩

/-- `merge`: the temporary directory, `n_hashes` and `n_sizes` after it. -/
def merge (inp : MergeInput ι η) : Except MergeError (MergeState ι η) :=
  inp.allPaths.foldlM inp.mergePath inp.initial

end MergeInput

end TrustedReleases
