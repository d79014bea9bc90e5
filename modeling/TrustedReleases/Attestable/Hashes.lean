import TrustedReleases.Lib.Accumulate
import TrustedReleases.Lib.Str

/-!
# Hash entries

The hash entries of attestable data (`atr/attestable.py`): for every content who uploaded it, in which revision, and
under which basenames.  `_compute_hashes_with_attribution` starts from the entries of the previous attestable data and
adds the files of the new revision to them.
-/

namespace TrustedReleases

open Lib

variable {η : Type}

/-- `HashEntryV2`.  The numbers of the uploaders' revisions are sequence numbers; the basenames are missing where they
have not been set. -/
structure HashEntry where
  uploaders : List (Str × Nat)
  basenames : Option (List Str)
  deriving DecidableEq

/-- The basenames that are read from an entry. -/
def HashEntry.names (e : HashEntry) : List Str := e.basenames.getD []

/-- `_path_basename` -/
def pathBasename (pathKey : Str) : Str := (pathKey.reverse.takeWhile (· ≠ '/')).reverse

section Attribution

variable [DecidableEq η]

/-- The paths of a content, `hash_to_paths`. -/
def hashToPaths (pathToHash : Dict Str η) (hashRef : η) : List Str :=
  pathToHash.keys.filter fun p => decide (pathToHash.get p = some hashRef)

/-- The contents of the paths. -/
def contents (pathToHash : Dict Str η) : List η := (pathToHash.keys.filterMap pathToHash.get).dedup

/-- The basenames with one more. -/
def addBasename (basenames : List Str) (basename : Str) : List Str :=
  if basename ∈ basenames then basenames else basenames ++ [basename]

/-- The entry of a content that has paths in the new revision. -/
def attributed (currentPaths previousPaths : List Str) (uploader : Str × Nat) : Option HashEntry → HashEntry
  | none => ⟨[uploader], some (sorted (currentPaths.map pathBasename).dedup)⟩
  | some entry =>
    let currentBasenames := (currentPaths.map pathBasename).dedup
    let basenames := (sorted currentBasenames).foldl addBasename entry.names
    if previousPaths.length < currentPaths.length ∧ uploader ∉ entry.uploaders then
      ⟨entry.uploaders ++ [uploader], some basenames⟩
    else ⟨entry.uploaders, some basenames⟩

/-- `_compute_hashes_with_attribution`, from the paths and the hash entries of the previous attestable data. -/
def computeHashesWithAttribution (pathToHash previousPaths : Dict Str η) (previousHashes : Dict η HashEntry)
    (uploader : Str × Nat) : Dict η HashEntry :=
  (previousHashes.mapVals fun _ e => { e with basenames := some e.names }).accumulate id
    (fun hashRef => attributed (hashToPaths pathToHash hashRef) (hashToPaths previousPaths hashRef) uploader)
    (contents pathToHash)

/-! ### What the entries hold -/

/-- The uploaders of a content. -/
def uploadersOf (hashes : Dict η HashEntry) (hashRef : η) : List (Str × Nat) :=
  ((hashes.get hashRef).map (·.uploaders)).getD []

/-- The basenames of a content. -/
def namesOf (hashes : Dict η HashEntry) (hashRef : η) : List Str := ((hashes.get hashRef).map (·.names)).getD []

variable {pathToHash previousPaths : Dict Str η} {previousHashes : Dict η HashEntry} {uploader : Str × Nat} {h : η}

theorem mem_hashToPaths {p : Str} : p ∈ hashToPaths pathToHash h ↔ pathToHash.get p = some h := by
  unfold hashToPaths
  simp only [List.mem_filter, decide_eq_true_eq]
  constructor
  · intro hp
    exact hp.2
  · intro hp
    exact ⟨Dict.mem_keys_of_get hp, hp⟩

private theorem mem_contents : h ∈ contents pathToHash ↔ ∃ p, pathToHash.get p = some h := by
  unfold contents
  simp only [List.mem_dedup, List.mem_filterMap]
  constructor
  · intro hp
    obtain ⟨p, -, hp⟩ := hp
    exact ⟨p, hp⟩
  · intro hp
    obtain ⟨p, hp⟩ := hp
    exact ⟨p, Dict.mem_keys_of_get hp, hp⟩

theorem hashToPaths_pos : 0 < (hashToPaths pathToHash h).length ↔ h ∈ contents pathToHash := by
  rw [List.length_pos_iff_exists_mem, mem_contents]
  simp only [mem_hashToPaths]

private theorem mem_foldl_addBasename (basenames new : List Str) (b : Str) :
    b ∈ new.foldl addBasename basenames ↔ b ∈ basenames ∨ b ∈ new := by
  induction new generalizing basenames with
  | nil => simp
  | cons a new ih =>
    rw [List.foldl_cons, ih]
    unfold addBasename
    by_cases ha : a ∈ basenames
    · have hmem : b = a → b ∈ basenames := fun he => he ▸ ha
      simp only [ha, if_true, List.mem_cons]
      tauto
    · simp [ha, or_assoc]

private theorem get_computeHashes :
    (computeHashesWithAttribution pathToHash previousPaths previousHashes uploader).get h =
    if h ∈ contents pathToHash then
      some (attributed (hashToPaths pathToHash h) (hashToPaths previousPaths h) uploader
        ((previousHashes.get h).map fun e => { e with basenames := some e.names }))
    else (previousHashes.get h).map fun e => { e with basenames := some e.names } := by
  have hnd : (contents pathToHash).Nodup := List.nodup_dedup _
  unfold computeHashesWithAttribution
  rw [Dict.get_accumulate_nodup hnd]
  simp

/-- The contents with an entry are those that had one and those of the new paths. -/
theorem isSome_computeHashes :
    ((computeHashesWithAttribution pathToHash previousPaths previousHashes uploader).get h).isSome ↔
      (previousHashes.get h).isSome ∨ h ∈ contents pathToHash := by
  rw [get_computeHashes]
  by_cases hc : h ∈ contents pathToHash
  · simp [hc]
  · simp [hc]

/-- The basenames are those that were there and those of the new paths. -/
theorem mem_namesOf_computeHashes {b : Str} :
    b ∈ namesOf (computeHashesWithAttribution pathToHash previousPaths previousHashes uploader) h ↔
      b ∈ namesOf previousHashes h ∨ ∃ p, pathToHash.get p = some h ∧ pathBasename p = b := by
  have hnew : b ∈ (hashToPaths pathToHash h).map pathBasename ↔
      ∃ p, pathToHash.get p = some h ∧ pathBasename p = b := by
    simp only [List.mem_map, mem_hashToPaths]
  rw [← hnew]
  unfold namesOf
  rw [get_computeHashes]
  by_cases hc : h ∈ contents pathToHash
  · rw [if_pos hc]
    cases he : previousHashes.get h with
    | none => simp [attributed, HashEntry.names]
    | some e =>
      simp only [Option.map_some, Option.getD_some, attributed]
      split <;> simp [HashEntry.names, mem_foldl_addBasename]
  · have hnone : ¬ b ∈ (hashToPaths pathToHash h).map pathBasename := by
      rw [hnew]
      intro hp
      obtain ⟨p, hp, -⟩ := hp
      exact hc (mem_contents.2 ⟨p, hp⟩)
    rw [if_neg hc]
    cases he : previousHashes.get h with
    | none => simpa using hnone
    | some e => simp only [Option.map_some, HashEntry.names, Option.getD_some, hnone, or_false]

/-- A new uploader is recorded for a content without an entry, and for one that has more paths than before. -/
theorem mem_uploadersOf_computeHashes {u : Str × Nat} :
    u ∈ uploadersOf (computeHashesWithAttribution pathToHash previousPaths previousHashes uploader) h ↔
      u ∈ uploadersOf previousHashes h ∨ (u = uploader ∧ h ∈ contents pathToHash ∧
        (previousHashes.get h = none ∨ (hashToPaths previousPaths h).length < (hashToPaths pathToHash h).length)) := by
  unfold uploadersOf
  rw [get_computeHashes]
  by_cases hc : h ∈ contents pathToHash
  · rw [if_pos hc]
    cases he : previousHashes.get h with
    | none => simp [attributed, hc]
    | some e =>
      simp only [Option.map_some, Option.getD_some, attributed]
      by_cases hlt : (hashToPaths previousPaths h).length < (hashToPaths pathToHash h).length
      · by_cases hu : uploader ∈ e.uploaders
        · have hmem : u = uploader → u ∈ e.uploaders := fun he => he ▸ hu
          simp only [hlt, hu, not_true, and_false, if_false]
          tauto
        · simp [hlt, hu, hc]
      · simp [hlt]
  · rw [if_neg hc]
    cases he : previousHashes.get h with
    | none => simp [hc]
    | some e => simp [hc]

end Attribution

end TrustedReleases
