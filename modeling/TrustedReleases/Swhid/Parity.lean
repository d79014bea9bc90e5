import TrustedReleases.Attestable.Hashes
import TrustedReleases.Lib.Run
import TrustedReleases.Swhid.Merkle

/-!
# Archives of one release in several formats

The identifier of the directory in an archive is computed when the archive is unpacked in quarantine
(`atr/tasks/quarantine.py`), and carried from the attestable data of one revision to the next by the hash of the archive
(`atr/attestable.py`).  The parity check compares the identifiers of archives that differ in their format only
(`atr/tasks/checks/parity.py`).  After every history of revisions what it reports is right about the contents of the
archives (`acrossFormats_right`).
-/

namespace TrustedReleases

open Lib

namespace Swhid

/-- Attestable data with what its hash entries record of the directories in archives: `AttestableV1` and
`AttestableV2`. -/
inductive Attestable where
  | v1 (paths : Dict Str Str) (hashes : List Str)
  | v2 (paths : Dict Str Str) (hashes : Dict Str (Option Str))

namespace Attestable

/-- `path_hashes` -/
def pathHashes : Attestable → Dict Str Str
  | v1 paths _ => paths
  | v2 paths _ => paths

/-- `carried` of `compute_swhid_dirs` -/
def carried : Attestable → Str → Option Str
  | v1 _ _, _ => none
  | v2 _ hashes, h => (hashes.get h).bind id

/-- `path_swhid_dir` -/
def pathSwhidDir (a : Attestable) (pathKey : Str) : Option Str :=
  match a with
  | v1 _ _ => none
  | v2 paths hashes => (paths.get pathKey).bind fun h => (hashes.get h).bind id

/-- The entries with which `_compute_hashes_with_attribution` starts. -/
def entries : Attestable → Dict Str (Option Str)
  | v1 _ hashes => Dict.ofKeys hashes fun _ => none
  | v2 _ hashes => hashes

end Attestable

/-- `compute_swhid_dirs` -/
def computeSwhidDirs (pathToHash : Dict Str Str) (previous : Option Attestable) (extracted : Dict Str Str) :
    Dict Str Str :=
  (Dict.ofKeys (contents pathToHash) fun h => (extracted.get h).or (previous.bind fun a => a.carried h)).filterMap
    fun _ swhidDirInner => swhidDirInner

/-- `_compute_hashes_with_attribution` -/
def computeHashes (pathToHash : Dict Str Str) (previous : Option Attestable) : Dict Str (Option Str) :=
  ((previous.map Attestable.entries).getD ∅).accumulate id (fun _ entry => entry.getD none) (contents pathToHash)

/-- `_generate_files_data` -/
def generateFilesData (pathToHash : Dict Str Str) (previous : Option Attestable) (swhidDirs : Dict Str Str) :
    Attestable :=
  .v2 pathToHash ((computeHashes pathToHash previous).mapVals fun h entry => (swhidDirs.get h).or entry)

/-! ### Unpacking -/

def APPLE_DOUBLE : Bytes := ascii "._".toList

/-- `single_root_dir` -/
def singleRootDir (entries : Entries) : Option Bytes :=
  let seen := entries.filter fun e => ¬ APPLE_DOUBLE <+: e.1
  let subdirs := seen.filterMap fun e =>
    match e.2 with
    | .directory _ => some e.1
    | _ => none
  if subdirs.length = 1 ∧ seen.length = subdirs.length then subdirs.head? else none

/-- The directory with a name. -/
def subdirectory (entries : Entries) (name : Bytes) : Option Entries :=
  entries.findSome? fun e =>
    match e.2 with
    | .directory children => if e.1 = name then some children else none
    | _ => none

/-- The directory in an archive, if all of it is in one. -/
def innerEntries (entries : Entries) : Option Entries := (singleRootDir entries).bind (subdirectory entries)

/-- What happens when an archive is unpacked: it may be refused, and its files may not be read. -/
structure Attempt where
  extracted : Bool
  readable : Bool

/-- `filesystem_archives_key` -/
def filesystemArchivesKey (contentHash : Str) : Str := contentHash.map fun c => if c = ':' then '_' else c

section Extraction

variable (sha1 : Bytes → Digest) (unpack : Str → Directory) (attempt : Str → Attempt)

/-- `_extract_archive_to_dir`, of the archive with a hash.  The suffix of its name does not matter: revisions are only made
of files whose contents are of the kind that the suffix says, and there is one way to unpack each kind. -/
def extractArchiveToDir (contentHash : Str) : Option (Option Str) :=
  if (attempt contentHash).extracted then
    if (attempt contentHash).readable then
      some ((innerEntries (unpack contentHash).entries).map fun inner => (directoryIdSync sha1 inner).str)
    else some none
  else none

/-- `_extract_archives`, with the keys of the directories of archives that there are; nothing is returned when an
archive is refused. -/
def extractArchives : List Str → List Str → Dict Str Str → List Str × Option (Dict Str Str)
  | [], dirs, swhidDirs => (dirs, some swhidDirs)
  | h :: archives, dirs, swhidDirs =>
    if filesystemArchivesKey h ∈ dirs then extractArchives archives dirs swhidDirs
    else
      match extractArchiveToDir sha1 unpack attempt h with
      | none => (dirs, none)
      | some none => extractArchives archives (filesystemArchivesKey h :: dirs) swhidDirs
      | some (some swhidDirInner) =>
        extractArchives archives (filesystemArchivesKey h :: dirs) (swhidDirs.set h swhidDirInner)

end Extraction

/-! ### The check -/

/-- `os.path.dirname` -/
def dirname (path : Str) : Str :=
  let head := (path.reverse.dropWhile (· ≠ '/')).reverse
  if head.all (· = '/') then head else (head.reverse.dropWhile (· = '/')).reverse

def ARCHIVE_FORMAT_SUFFIXES : List Str :=
  [".tar.bz2".toList, ".tar.gz".toList, ".tar.xz".toList, ".tgz".toList, ".zip".toList]

/-- `archive_format_stem` -/
def archiveFormatStem (name : Str) : Option Str :=
  (ARCHIVE_FORMAT_SUFFIXES.find? fun suffix => suffix <:+ name).map fun suffix => name.take (name.length - suffix.length)

/-- The other path names the same archive in another format. -/
def IsSibling (primary path : Str) : Prop :=
  path ≠ primary ∧ dirname path = dirname primary ∧ (archiveFormatStem (pathBasename primary)).isSome ∧
    archiveFormatStem (pathBasename path) = archiveFormatStem (pathBasename primary)

instance decidableIsSibling (primary path : Str) : Decidable (IsSibling primary path) :=
  inferInstanceAs (Decidable (_ ∧ _))

/-- `cross_format_siblings` -/
def crossFormatSiblings (a : Attestable) (primary : Str) : Dict Str (Option Str) :=
  a.pathHashes.filterMap fun path _ => if IsSibling primary path then some (a.pathSwhidDir path) else none

/-- A concern or a note of the check, with its data. -/
inductive Finding where
  | concern (relPath swhid : Str) (matched : List Str) (mismatched : List (Str × Option Str))
  | note (relPath swhid : Str) (matched : List Str)
  deriving DecidableEq

namespace Finding

def matched : Finding → List Str
  | concern _ _ matched _ => matched
  | note _ _ matched => matched

def mismatched : Finding → List (Str × Option Str)
  | concern _ _ _ mismatched => mismatched
  | note _ _ _ => []

end Finding

/-- `across_formats` -/
def acrossFormats (a : Attestable) (primary : Str) : Option Finding :=
  match a.pathSwhidDir primary with
  | none => none
  | some ownSwhid =>
    let siblings := crossFormatSiblings a primary
    let matched := sorted (siblings.keys.filter fun path => siblings.get path = some (some ownSwhid))
    let mismatched := sorted (siblings.keys.filter fun path =>
      (siblings.get path).any fun swhid => swhid.isSome && swhid ≠ some ownSwhid)
    if mismatched ≠ [] then
      some (.concern primary ownSwhid matched (mismatched.map fun path => (path, (siblings.get path).bind id)))
    else if matched ≠ [] then some (.note primary ownSwhid matched)
    else none

/-! ### Histories -/

/-- The attestable data of all revisions of a release, and the keys of the directories of its archives. -/
structure State where
  revisions : List Attestable
  dirs : List Str

section Histories

variable (sha1 : Bytes → Digest) (unpack : Str → Directory)

/-- What happens to a release: attestable data of the first version is there from before, a revision is made or
promoted from quarantine, on the attestable data of another or on none, and directories of archives are removed. -/
inductive Step : State → State → Prop where
  | legacy {s : State} (paths : Dict Str Str) (hashes : List Str) :
      Step s { s with revisions := .v1 paths hashes :: s.revisions }
  | finalise {s : State} (pathToHash : Dict Str Str) (previous : Option Attestable)
      (hprevious : ∀ a, previous = some a → a ∈ s.revisions) :
      Step s { s with revisions :=
        generateFilesData pathToHash previous (computeSwhidDirs pathToHash previous ∅) :: s.revisions }
  | promote {s : State} {dirs : List Str} {extracted : Dict Str Str} (attempt : Str → Attempt) (archives : List Str)
      (pathToHash : Dict Str Str) (previous : Option Attestable)
      (hprevious : ∀ a, previous = some a → a ∈ s.revisions)
      (hextract : extractArchives sha1 unpack attempt archives s.dirs ∅ = (dirs, some extracted)) :
      Step s ⟨generateFilesData pathToHash previous (computeSwhidDirs pathToHash previous extracted) :: s.revisions, dirs⟩
  | refuse {s : State} {dirs : List Str} (attempt : Str → Attempt) (archives : List Str)
      (hextract : extractArchives sha1 unpack attempt archives s.dirs ∅ = (dirs, none)) : Step s { s with dirs := dirs }
  | remove {s : State} (key : Str) : Step s { s with dirs := s.dirs.filter (· ≠ key) }

/-- A release without revisions. -/
def State.init : State := ⟨[], []⟩

/-- What is recorded of a content is the identifier of the directory in it. -/
def RightOf (contentHash swhid : Str) : Prop :=
  ∃ inner, innerEntries (unpack contentHash).entries = some inner ∧ swhid = (directoryIdSync sha1 inner).str

/-- Whatever the hash entries of attestable data record is right. -/
def Right (a : Attestable) : Prop := ∀ h swhid, a.carried h = some swhid → RightOf sha1 unpack h swhid

end Histories

variable {sha1 : Bytes → Digest} {unpack : Str → Directory}

private theorem extractArchives_right {attempt : Str → Attempt} {archives dirs dirs' : List Str}
    {found extracted : Dict Str Str}
    (hfound : ∀ h swhid, found.get h = some swhid → RightOf sha1 unpack h swhid)
    (h : extractArchives sha1 unpack attempt archives dirs found = (dirs', some extracted)) :
    ∀ h swhid, extracted.get h = some swhid → RightOf sha1 unpack h swhid := by
  induction archives generalizing dirs found with
  | nil =>
    obtain ⟨-, heq⟩ := Prod.mk.inj h
    rw [← Option.some.inj heq]
    exact hfound
  | cons contentHash archives ih =>
    rw [extractArchives] at h
    split at h
    · exact ih hfound h
    split at h
    · exact absurd (Prod.mk.inj h).2 (by simp)
    · exact ih hfound h
    next swhidDirInner hextract =>
      refine ih (fun h' swhid hget => ?_) h
      rw [Dict.get_set] at hget
      split at hget
      next heq =>
        obtain rfl := Option.some.inj hget
        rw [extractArchiveToDir] at hextract
        split_ifs at hextract
        · obtain ⟨inner, hinner, rfl⟩ := Option.map_eq_some_iff.1 (Option.some.inj hextract)
          exact ⟨inner, heq ▸ hinner, rfl⟩
        · exact absurd hextract (by simp)
      next => exact hfound h' swhid hget

private theorem computeSwhidDirs_right {pathToHash : Dict Str Str} {previous : Option Attestable}
    {extracted : Dict Str Str}
    (hprevious : ∀ a, previous = some a → Right sha1 unpack a)
    (hextracted : ∀ h swhid, extracted.get h = some swhid → RightOf sha1 unpack h swhid) {h swhid : Str}
    (hget : (computeSwhidDirs pathToHash previous extracted).get h = some swhid) : RightOf sha1 unpack h swhid := by
  rw [computeSwhidDirs, Dict.get_filterMap, Dict.get_ofKeys] at hget
  split at hget
  · rw [Option.bind_some, Option.or_eq_some_iff] at hget
    rcases hget with hget | ⟨-, hget⟩
    · exact hextracted h swhid hget
    · obtain ⟨a, ha, hcarried⟩ := Option.bind_eq_some_iff.1 hget
      exact hprevious a ha h swhid hcarried
  · exact absurd hget (by simp)

private theorem computeHashes_right {pathToHash : Dict Str Str} {previous : Option Attestable}
    (hprevious : ∀ a, previous = some a → Right sha1 unpack a) {h swhid : Str}
    (hget : (computeHashes pathToHash previous).get h = some (some swhid)) : RightOf sha1 unpack h swhid := by
  have hentries : ∀ entry, ((previous.map Attestable.entries).getD ∅).get h = some (some entry) →
      RightOf sha1 unpack h entry := by
    intro entry hentry
    cases previous with
    | none => exact absurd hentry (by simp)
    | some a =>
      cases a with
      | v1 paths hashes =>
        simp only [Option.map_some, Option.getD_some, Attestable.entries, Dict.get_ofKeys] at hentry
        split at hentry <;> exact absurd hentry (by simp)
      | v2 paths hashes =>
        refine hprevious _ rfl h entry ?_
        simp only [Option.map_some, Option.getD_some, Attestable.entries] at hentry
        rw [Attestable.carried, hentry]
        rfl
  have hnodup : (contents pathToHash).Nodup := List.nodup_dedup _
  rw [computeHashes, Dict.get_accumulate_nodup hnodup] at hget
  split at hget
  · refine hentries swhid ?_
    cases hentry : ((previous.map Attestable.entries).getD ∅).get h with
    | none =>
      rw [hentry] at hget
      exact absurd hget (by simp)
    | some entry =>
      rw [hentry] at hget
      exact hget
  · exact hentries swhid hget

private theorem generateFilesData_right {pathToHash : Dict Str Str} {previous : Option Attestable}
    {extracted : Dict Str Str}
    (hprevious : ∀ a, previous = some a → Right sha1 unpack a)
    (hextracted : ∀ h swhid, extracted.get h = some swhid → RightOf sha1 unpack h swhid) :
    Right sha1 unpack (generateFilesData pathToHash previous (computeSwhidDirs pathToHash previous extracted)) := by
  intro h swhid hcarried
  rw [generateFilesData, Attestable.carried, Dict.get_mapVals] at hcarried
  obtain ⟨entry, hentry, hid⟩ := Option.bind_eq_some_iff.1 hcarried
  obtain ⟨old, hold, rfl⟩ := Option.map_eq_some_iff.1 hentry
  rcases Option.or_eq_some_iff.1 hid with hnew | ⟨-, hkept⟩
  · exact computeSwhidDirs_right hprevious hextracted hnew
  · exact computeHashes_right hprevious (hkept ▸ hold)

/-- Whatever is recorded in the attestable data of a release is right. -/
def State.Right (sha1 : Bytes → Digest) (unpack : Str → Directory) (s : State) : Prop :=
  ∀ a ∈ s.revisions, Swhid.Right sha1 unpack a

theorem Step.right {s s' : State} (h : s.Right sha1 unpack) (hstep : Step sha1 unpack s s') :
    s'.Right sha1 unpack := by
  have hempty : ∀ h swhid, (∅ : Dict Str Str).get h = some swhid → RightOf sha1 unpack h swhid := by
    intro h swhid hget
    exact absurd hget (by simp)
  cases hstep with
  | legacy paths hashes =>
    intro a ha
    rcases List.mem_cons.1 ha with rfl | ha
    · intro h swhid hcarried
      exact absurd hcarried (by simp [Attestable.carried])
    · exact h a ha
  | finalise pathToHash previous hprevious =>
    intro a ha
    rcases List.mem_cons.1 ha with rfl | ha
    · exact generateFilesData_right (fun a ha => h a (hprevious a ha)) hempty
    · exact h a ha
  | promote attempt archives pathToHash previous hprevious hextract =>
    intro a ha
    rcases List.mem_cons.1 ha with rfl | ha
    · exact generateFilesData_right (fun a ha => h a (hprevious a ha)) (extractArchives_right hempty hextract)
    · exact h a ha
  | refuse attempt archives hextract => exact h
  | remove key => exact h

private theorem reaches_right {s : State} (hrun : Reaches (Step sha1 unpack) State.init s) : s.Right sha1 unpack :=
  hrun.invariant (fun _ _ h hstep => hstep.right h) fun a ha => by cases ha

/-! ### What the check reports -/

variable {a : Attestable} {primary path swhid : Str}

/-- The directory in the archive at a path. -/
def innerAt (unpack : Str → Directory) (a : Attestable) (path : Str) : Option Entries :=
  (a.pathHashes.get path).bind fun h => innerEntries (unpack h).entries

private theorem Right.pathSwhidDir (h : Right sha1 unpack a) (hpath : a.pathSwhidDir path = some swhid) :
    ∃ inner, innerAt unpack a path = some inner ∧ swhid = (directoryIdSync sha1 inner).str := by
  cases a with
  | v1 paths hashes => exact absurd hpath (by simp [Attestable.pathSwhidDir])
  | v2 paths hashes =>
    obtain ⟨contentHash, hget, hcarried⟩ := Option.bind_eq_some_iff.1 hpath
    obtain ⟨inner, hinner, rfl⟩ := h contentHash swhid hcarried
    refine ⟨inner, ?_, rfl⟩
    rw [innerAt, Attestable.pathHashes, hget]
    exact hinner

private theorem wellFormed_of_innerAt {inner : Entries} (h : innerAt unpack a path = some inner) :
    WellFormed inner := by
  obtain ⟨contentHash, -, hinner⟩ := Option.bind_eq_some_iff.1 h
  obtain ⟨name, -, hsub⟩ := Option.bind_eq_some_iff.1 hinner
  obtain ⟨e, he, hfound⟩ := List.exists_of_findSome?_eq_some hsub
  obtain ⟨ename, node⟩ := e
  cases node with
  | directory children =>
    simp only at hfound
    split_ifs at hfound
    obtain rfl := Option.some.inj hfound
    exact (unpack contentHash).wellFormed.children he
  | link target => exact absurd hfound (by simp)
  | file mode content => exact absurd hfound (by simp)
  | other => exact absurd hfound (by simp)

private theorem get_siblings (path : Str) (value : Option Str) :
    (crossFormatSiblings a primary).get path = some value ↔
      IsSibling primary path ∧ (a.pathHashes.get path).isSome ∧ a.pathSwhidDir path = value := by
  rw [crossFormatSiblings, Dict.get_filterMap]
  cases a.pathHashes.get path with
  | none => simp
  | some h =>
    by_cases hsibling : IsSibling primary path
    · simp [hsibling]
    · simp [hsibling]

private theorem isSome_of_pathSwhidDir (h : a.pathSwhidDir path = some swhid) : (a.pathHashes.get path).isSome := by
  cases a with
  | v1 paths hashes => exact absurd h (by simp [Attestable.pathSwhidDir])
  | v2 paths hashes =>
    obtain ⟨contentHash, hget, -⟩ := Option.bind_eq_some_iff.1 h
    rw [Attestable.pathHashes, hget]
    rfl

/-- The siblings whose directory has a given identifier. -/
private theorem mem_matched {own : Str} :
    path ∈ (crossFormatSiblings a primary).keys.filter (fun p => (crossFormatSiblings a primary).get p = some (some own)) ↔
      IsSibling primary path ∧ a.pathSwhidDir path = some own := by
  rw [List.mem_filter, decide_eq_true_eq, get_siblings]
  constructor
  · rintro ⟨-, hsibling, -, hpath⟩
    exact ⟨hsibling, hpath⟩
  · rintro ⟨hsibling, hpath⟩
    have hfull := get_siblings path (some own) |>.2 ⟨hsibling, isSome_of_pathSwhidDir hpath, hpath⟩
    exact ⟨Dict.mem_keys_of_get hfull, hsibling, isSome_of_pathSwhidDir hpath, hpath⟩

/-- The siblings whose directory has another identifier. -/
private theorem mem_mismatched {own : Str} :
    path ∈ (crossFormatSiblings a primary).keys.filter (fun p => ((crossFormatSiblings a primary).get p).any fun swhid =>
      swhid.isSome && swhid ≠ some own) ↔
      IsSibling primary path ∧ ∃ swhid, a.pathSwhidDir path = some swhid ∧ swhid ≠ own := by
  rw [List.mem_filter]
  constructor
  · rintro ⟨-, hany⟩
    obtain ⟨value, hget, hvalue⟩ := (Option.any_eq_true _ _).1 hany
    obtain ⟨hsibling, -, hpath⟩ := (get_siblings _ _).1 hget
    rw [Bool.and_eq_true, decide_eq_true_eq] at hvalue
    obtain ⟨swhid, rfl⟩ := Option.isSome_iff_exists.1 hvalue.1
    exact ⟨hsibling, swhid, hpath, fun heq => hvalue.2 (heq ▸ rfl)⟩
  · rintro ⟨hsibling, swhid, hpath, hne⟩
    have hfull := get_siblings path (some swhid) |>.2 ⟨hsibling, isSome_of_pathSwhidDir hpath, hpath⟩
    refine ⟨Dict.mem_keys_of_get hfull, ?_⟩
    rw [hfull]
    simp [hne]

private theorem mem_mismatched_pairs {own : Str} {value : Option Str} :
    (path, value) ∈ (sorted ((crossFormatSiblings a primary).keys.filter fun p =>
      ((crossFormatSiblings a primary).get p).any fun swhid => swhid.isSome && swhid ≠ some own)).map
        (fun p => (p, ((crossFormatSiblings a primary).get p).bind id)) ↔
      IsSibling primary path ∧ a.pathSwhidDir path = value ∧ value.isSome ∧ value ≠ some own := by
  have hvalue : ∀ {swhid}, IsSibling primary path → a.pathSwhidDir path = some swhid →
      ((crossFormatSiblings a primary).get path).bind id = some swhid := by
    intro swhid hsibling hpath
    rw [(get_siblings path (some swhid)).2 ⟨hsibling, isSome_of_pathSwhidDir hpath, hpath⟩]
    rfl
  rw [List.mem_map]
  constructor
  · rintro ⟨p, hp, heq⟩
    obtain ⟨rfl, rfl⟩ := Prod.mk.inj heq
    obtain ⟨hsibling, swhid, hpath, hne⟩ := mem_mismatched.1 (mem_sorted.1 hp)
    rw [hvalue hsibling hpath]
    exact ⟨hsibling, hpath, rfl, fun h => hne (Option.some.inj h)⟩
  · rintro ⟨hsibling, hpath, hsome, hne⟩
    obtain ⟨swhid, rfl⟩ := Option.isSome_iff_exists.1 hsome
    refine ⟨path, mem_sorted.2 (mem_mismatched.2 ⟨hsibling, swhid, hpath, fun h => hne (h ▸ rfl)⟩), ?_⟩
    rw [hvalue hsibling hpath]

/-- What is reported: the siblings with a recorded identifier, those with the one of the archive as matching. -/
private theorem acrossFormats_spec {own : Str} (hown : a.pathSwhidDir primary = some own) :
    (∀ f, acrossFormats a primary = some f →
      (∀ path, path ∈ f.matched ↔ IsSibling primary path ∧ a.pathSwhidDir path = some own) ∧
        ∀ path value, (path, value) ∈ f.mismatched ↔
          IsSibling primary path ∧ a.pathSwhidDir path = value ∧ value.isSome ∧ value ≠ some own) ∧
      (acrossFormats a primary = none → ∀ path, IsSibling primary path → a.pathSwhidDir path = none) := by
  unfold acrossFormats
  rw [hown]
  dsimp only
  have hmatched := fun path => mem_sorted.trans (@mem_matched a primary path own)
  have hmismatched := fun path value => @mem_mismatched_pairs a primary path own value
  split_ifs with hmis hmat
  · refine ⟨fun f hf => ?_, fun h => absurd h (by simp)⟩
    obtain rfl := Option.some.inj hf
    exact ⟨hmatched, hmismatched⟩
  · rw [ne_eq, not_not] at hmis
    refine ⟨fun f hf => ?_, fun h => absurd h (by simp)⟩
    obtain rfl := Option.some.inj hf
    refine ⟨hmatched, fun path value => ?_⟩
    rw [← hmismatched, hmis]
    rfl
  · rw [ne_eq, not_not] at hmis hmat
    refine ⟨fun f hf => absurd hf (by simp), fun _ path hsibling => ?_⟩
    by_contra hne
    by_cases hsame : a.pathSwhidDir path = some own
    · have hmem := (hmatched path).2 ⟨hsibling, hsame⟩
      rw [hmat] at hmem
      exact List.not_mem_nil hmem
    · have hmem := (hmismatched path _).2 ⟨hsibling, rfl, Option.isSome_iff_ne_none.2 hne, hsame⟩
      rw [hmis] at hmem
      exact List.not_mem_nil hmem

private theorem str_directoryIdSync_inj {entries entries' : Entries}
    (h : (directoryIdSync sha1 entries).str = (directoryIdSync sha1 entries').str) :
    directoryIdSync sha1 entries = directoryIdSync sha1 entries' := by
  have hleft := (parse_iff _ _).2 ⟨valid_hex .directory (rootDigest sha1 entries), rfl⟩
  have hright := (parse_iff _ _).2 ⟨valid_hex .directory (rootDigest sha1 entries'), rfl⟩
  exact Except.ok.inj (hleft.symm.trans ((congrArg parse h).trans hright))

/-- In every history of a release: the archives that the check says match an archive have a directory with the same
files, or there are two objects with one digest; those that it says differ have not; and every sibling is reported for
which an identifier is recorded. -/
theorem acrossFormats_right {s : State} (hrun : Reaches (Step sha1 unpack) State.init s) {a : Attestable}
    (ha : a ∈ s.revisions) (primary : Str) :
    (∀ f, acrossFormats a primary = some f → ∃ inner, innerAt unpack a primary = some inner ∧
      (∀ path ∈ f.matched, IsSibling primary path ∧ ∃ inner', innerAt unpack a path = some inner' ∧
        (Same inner inner' ∨ Collision sha1 inner inner')) ∧
      ∀ path value, (path, value) ∈ f.mismatched → IsSibling primary path ∧
        ∃ inner', innerAt unpack a path = some inner' ∧ ¬ Same inner inner') ∧
    ∀ path, IsSibling primary path → (a.pathSwhidDir primary).isSome → (a.pathSwhidDir path).isSome →
      ∃ f, acrossFormats a primary = some f ∧ (path ∈ f.matched ∨ (path, a.pathSwhidDir path) ∈ f.mismatched) := by
  have hright : Right sha1 unpack a := reaches_right hrun a ha
  constructor
  · intro f hf
    cases hown : a.pathSwhidDir primary with
    | none =>
      rw [acrossFormats, hown] at hf
      exact absurd hf (by simp)
    | some own =>
      obtain ⟨hmatched, hmismatched⟩ := (acrossFormats_spec hown).1 f hf
      obtain ⟨inner, hinner, rfl⟩ := hright.pathSwhidDir hown
      have hwf := wellFormed_of_innerAt hinner
      refine ⟨inner, hinner, fun path hpath => ?_, fun path value hpath => ?_⟩
      · obtain ⟨hsibling, hswhid⟩ := (hmatched path).1 hpath
        obtain ⟨inner', hinner', heq⟩ := hright.pathSwhidDir hswhid
        refine ⟨hsibling, inner', hinner', ?_⟩
        exact same_of_directoryIdSync_eq hwf (wellFormed_of_innerAt hinner') (str_directoryIdSync_inj heq)
      · obtain ⟨hsibling, rfl, hsome, hne⟩ := (hmismatched path value).1 hpath
        obtain ⟨swhid, hswhid⟩ := Option.isSome_iff_exists.1 hsome
        obtain ⟨inner', hinner', rfl⟩ := hright.pathSwhidDir hswhid
        refine ⟨hsibling, inner', hinner', fun hsame => hne ?_⟩
        rw [hswhid, hsame.directoryIdSync_eq hwf (wellFormed_of_innerAt hinner')]
  · intro path hsibling hprimary hpath
    obtain ⟨own, hown⟩ := Option.isSome_iff_exists.1 hprimary
    obtain ⟨hreport, hsilent⟩ := acrossFormats_spec hown
    cases hf : acrossFormats a primary with
    | none =>
      rw [hsilent hf path hsibling] at hpath
      exact absurd hpath (by simp)
    | some f =>
      refine ⟨f, rfl, ?_⟩
      by_cases hsame : a.pathSwhidDir path = some own
      · exact .inl (((hreport f hf).1 path).2 ⟨hsibling, hsame⟩)
      · exact .inr (((hreport f hf).2 path _).2 ⟨hsibling, rfl, hpath, hsame⟩)

/-- A directory with one file in it, of the given content. -/
def oneFile (content : Str) : Directory where
  entries := [(ascii "t".toList, .directory [(ascii "a".toList, .file 0o644 (ascii content))])]
  wellFormed := by
    refine .mk ?_ (List.nodup_singleton _) fun name children h => ?_
    · rw [List.forall_mem_singleton]
      exact (by decide : ascii "t".toList ≠ [] ∧ nul ∉ ascii "t".toList ∧ slash ∉ ascii "t".toList)
    obtain ⟨-, heq⟩ := Prod.mk.inj (List.mem_singleton.1 h)
    obtain rfl := Node.directory.inj heq
    refine .mk ?_ (List.nodup_singleton _) fun name children h => ?_
    · rw [List.forall_mem_singleton]
      exact (by decide : ascii "a".toList ≠ [] ∧ nul ∉ ascii "a".toList ∧ slash ∉ ascii "a".toList)
    · exact absurd (Prod.mk.inj (List.mem_singleton.1 h)).2 (by simp)

/-- The last bytes of a byte string, the last one first. -/
def lastBytes (bs : Bytes) : Digest := ⟨(bs.reverse ++ List.replicate 20 0).take 20, by simp⟩

def twoFormats : Dict Str Str := ((∅ : Dict Str Str).set "x.zip".toList "1".toList).set "x.tgz".toList "2".toList

/-- What `_extract_archives` makes of the two. -/
def twoExtracted : List Str × Option (Dict Str Str) :=
  extractArchives lastBytes oneFile (fun _ => ⟨true, true⟩) ["1".toList, "2".toList] [] ∅

def twoAttested : Attestable :=
  generateFilesData twoFormats none (computeSwhidDirs twoFormats none (twoExtracted.2.getD ∅))

/-- Archives with different files in two formats, promoted from quarantine. -/
theorem acrossFormats_right_promoted :
    ∃ (s : State) (f : Finding) (inner : Entries), Reaches (Step lastBytes oneFile) State.init s ∧
      twoAttested ∈ s.revisions ∧ acrossFormats twoAttested "x.zip".toList = some f ∧
      f.mismatched.map Prod.fst = ["x.tgz".toList] ∧ innerAt oneFile twoAttested "x.zip".toList = some inner ∧
      ∀ path value, (path, value) ∈ f.mismatched →
        ∃ inner', innerAt oneFile twoAttested path = some inner' ∧ ¬ Same inner inner' := by
  have hextract : extractArchives lastBytes oneFile (fun _ => ⟨true, true⟩) ["1".toList, "2".toList] State.init.dirs ∅ =
      (twoExtracted.1, some (twoExtracted.2.getD ∅)) := by
    have hsome : twoExtracted.2.isSome = true := by decide +kernel
    obtain ⟨extracted, heq⟩ := Option.isSome_iff_exists.1 hsome
    rw [heq]
    exact Prod.ext rfl heq
  have hrun : Reaches (Step lastBytes oneFile) State.init ⟨[twoAttested], twoExtracted.1⟩ :=
    .single (.promote _ _ twoFormats none (fun _ h => by cases h) hextract)
  have hfound : (acrossFormats twoAttested "x.zip".toList).map (fun f => f.mismatched.map Prod.fst) =
      some ["x.tgz".toList] := by decide +kernel
  obtain ⟨f, hf, hpaths⟩ := Option.map_eq_some_iff.1 hfound
  obtain ⟨inner, hinner, -, hmismatched⟩ :=
    (acrossFormats_right hrun List.mem_cons_self "x.zip".toList).1 f hf
  exact ⟨_, f, inner, hrun, List.mem_cons_self, hf, hpaths, hinner, fun path value h => (hmismatched path value h).2⟩

end Swhid

end TrustedReleases
