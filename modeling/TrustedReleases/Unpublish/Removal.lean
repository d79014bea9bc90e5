import TrustedReleases.Dist.Analysis
import TrustedReleases.Lib.FileTree

/-!
# Unpublishing a release

The plan of the paths that are removed from dist when a release is unpublished, made from the files that are recorded
for the release and from the tree of dist at the base revision.
-/

namespace TrustedReleases

open Lib

namespace Unpublish

/-- The columns of an artifact row that say where its files are. -/
structure Artifact where
  artifactPath : Str
  signaturePath : Option Str
  checksumPath : Option Str
  sbomPath : Option Str
  downloadPathSuffix : Option Str
  deriving DecidableEq

/-- A directory of dist and the names of the files that are wanted from it. -/
abbrev Pair := Str × List Str

/-- What `__removal_wanted` returns, no directory twice. -/
structure Wanted where
  pairs : List Pair
  exact : Bool
  alternatives : Bool
  nodup : (pairs.map Prod.fst).Nodup

/-! ### What is wanted -/

/-- The directories, each at its first place. -/
def ordered (directories : List Str) : List Str :=
  directories.foldl (fun ordered directory => if directory ∈ ordered then ordered else ordered ++ [directory]) []

private theorem ordered_nodup (directories : List Str) : (ordered directories).Nodup := by
  have hfold : ∀ (directories acc : List Str), acc.Nodup →
      (directories.foldl (fun ordered directory => if directory ∈ ordered then ordered else ordered ++ [directory])
        acc).Nodup := by
    intro directories
    induction directories with
    | nil => exact fun acc hacc => hacc
    | cons directory directories ih =>
      intro acc hacc
      rw [List.foldl_cons]
      apply ih
      by_cases hmem : directory ∈ acc
      · rwa [if_pos hmem]
      · rw [if_neg hmem]
        exact List.nodup_append_comm.1 (List.nodup_cons.2 ⟨hmem, hacc⟩)
  exact hfold directories [] List.nodup_nil

/-- The directory of an artifact: its own, or that of the release if it has none. -/
def Artifact.directory (releaseDir : Str) (a : Artifact) : Str :=
  match a.downloadPathSuffix with
  | some (c :: suffix) => c :: suffix
  | _ => releaseDir

/-- The files of one artifact are wanted from its directory.  An artifact without any name is a `KeyError` where nothing
is wanted from its directory so far. -/
def wantArtifact (releaseDir : Str) (wanted : Dict Str (List Str)) (a : Artifact) : Option (Dict Str (List Str)) :=
  let directory := a.directory releaseDir
  let names := ([some a.artifactPath, a.signaturePath, a.checksumPath, a.sbomPath].reduceOption).filter (· ≠ [])
  let wanted := if names = [] then wanted
    else wanted.set directory ((wanted.get directory).getD [] ++ names)
  (wanted.get directory).map fun names =>
    wanted.set directory (names ++ Dist.METADATA_SUFFIXES.map fun suffix => a.artifactPath ++ '.' :: suffix.toList)

/-- The directories that the artifact rows give. -/
def artifactDirs (artifacts : List Artifact) : List Str :=
  sorted ((artifacts.filterMap fun a => a.downloadPathSuffix.filter (· ≠ [])).dedup)

/-- `__removal_wanted`: the names of the manifest, from each of the directories where the files may be, or without a
manifest the names of the artifact rows. -/
def removalWanted (artifacts : List Artifact) (releaseDir : Str) (manifest : Option (List Str)) : Option Wanted :=
  match manifest with
  | some names => some
    { pairs := (ordered (artifactDirs artifacts ++ [releaseDir])).map fun directory => (directory, names)
      exact := true
      alternatives := true
      nodup := by
        rw [List.map_map]
        exact (List.map_id (ordered _)).symm ▸ ordered_nodup _ }
  | none => (artifacts.foldlM (wantArtifact releaseDir) ∅).map fun wanted =>
    { pairs := wanted.entries.map fun e => (e.1, e.2)
      exact := false
      alternatives := false
      nodup := by
        rw [List.map_map]
        exact wanted.nodupKeys }

/-! ### What is planned -/

/-- The name of an entry in its directory. -/
def baseName (p : Str) : Str := (p.reverse.takeWhile (· ≠ '/')).reverse

/-- The path of an entry below a directory, from there on. -/
def relativeTo (directory p : Str) : Option Str :=
  if directory ++ ['/'] <+: p then some (p.drop (directory.length + 1)) else none

/-- `__list_present`: the files below the path, or the name of the file at the path. -/
def listPresent (t : FileTree Unit) (path : Str) : Option (List Str) :=
  match t.get path with
  | none => none
  | some (.file _) => some [baseName path]
  | some .dir => some (t.files.keys.filterMap (relativeTo path))

structure Plan where
  relPaths : List Str
  leftover : List Str
  deriving DecidableEq

/-- What one directory that is present adds to the plan: itself if it holds nothing but wanted files, or else the wanted
files that it holds. -/
def planPresent (version : Str) (exact : Bool) (directory : Str) (names present : List Str) : Plan :=
  if present ≠ [] ∧ ∀ name ∈ present, name ∈ names then ⟨[directory], []⟩
  else
    { relPaths := ((sorted names.dedup).filter (· ∈ present)).map fun name => directory ++ '/' :: name
      leftover :=
        if exact = false ∧ version <:+: directory then
          (sorted (present.filter (· ∉ names))).map fun other => directory ++ '/' :: other
        else [] }

def planDirectory (t : FileTree Unit) (version : Str) (exact : Bool) (pair : Pair) : Plan :=
  match listPresent t pair.1 with
  | none => ⟨[], []⟩
  | some present => planPresent version exact pair.1 pair.2 present

/-- The loop of `__plan_removals`.  The first directory that has any of the files ends it if the directories are
alternatives. -/
def planPairs (t : FileTree Unit) (version : Str) (exact alternatives : Bool) : List Pair → Plan
  | [] => ⟨[], []⟩
  | pair :: pairs =>
    let found := planDirectory t version exact pair
    if found.relPaths ≠ [] ∧ alternatives = true then found
    else
      let rest := planPairs t version exact alternatives pairs
      ⟨found.relPaths ++ rest.relPaths, found.leftover ++ rest.leftover⟩

/-- `__plan_removals` -/
def planRemovals (t : FileTree Unit) (version : Str) (wanted : Wanted) : Plan :=
  let plan := planPairs t version wanted.exact wanted.alternatives wanted.pairs
  ⟨sorted plan.relPaths, sorted plan.leftover⟩

/-- How an unpublish ends: nothing is recorded, nothing is left in dist, or the paths are removed in one commit. -/
inductive SvnUnpublish where
  | nothingRecorded
  | alreadyAbsent
  | removed (plan : Plan)
  deriving DecidableEq

/-- `unpublish_from_svn_execute`, with dist after it. -/
def unpublishFromSvnExecute (t : FileTree Unit) (version : Str) (wanted : Wanted) : FileTree Unit × SvnUnpublish :=
  if wanted.pairs = [] then (t, .nothingRecorded)
  else
    let plan := planRemovals t version wanted
    if plan.relPaths = [] then (t, .alreadyAbsent) else (t.without plan.relPaths, .removed plan)

/-! ### Listings -/

private theorem relativeTo_eq_some {directory p name : Str} :
    relativeTo directory p = some name ↔ p = directory ++ '/' :: name := by
  unfold relativeTo
  constructor
  · intro h
    split_ifs at h with hprefix
    obtain ⟨rest, rfl⟩ := hprefix
    have hdrop : (directory ++ ['/'] ++ rest).drop (directory.length + 1) = rest :=
      List.drop_left' (by rw [List.length_append, List.length_singleton])
    rw [hdrop] at h
    rw [← Option.some.inj h, List.append_assoc, List.singleton_append]
  · intro h
    subst h
    have hassoc : directory ++ '/' :: name = directory ++ ['/'] ++ name := by simp
    rw [hassoc, if_pos (List.prefix_append _ _)]
    exact congrArg some (List.drop_left' (by rw [List.length_append, List.length_singleton]))

/-- The files of the tree that the wanted names of a directory stand for.  A candidate that is a file is listed under
its own name. -/
def taken (t : FileTree Unit) (pair : Pair) : List Str :=
  t.files.keys.filter fun f => (∃ name ∈ pair.2, f = pair.1 ++ '/' :: name) ∨ (f = pair.1 ∧ baseName pair.1 ∈ pair.2)

theorem mem_taken {t : FileTree Unit} {pair : Pair} {f : Str} :
    f ∈ taken t pair ↔ (t.fileAt f).isSome ∧
      ((∃ name ∈ pair.2, f = pair.1 ++ '/' :: name) ∨ (f = pair.1 ∧ baseName pair.1 ∈ pair.2)) := by
  unfold taken
  rw [List.mem_filter, FileTree.mem_files_keys, decide_eq_true_iff]

/-- A directory that holds files, and only files that are wanted from it. -/
def Owned (t : FileTree Unit) (pair : Pair) : Prop :=
  t.isDir pair.1 = true ∧ (∃ f ∈ t.files.keys, pair.1 ∈ parents f) ∧
    ∀ f ∈ t.files.keys, pair.1 ∈ parents f → f ∈ taken t pair

instance ownedDecidable (t : FileTree Unit) (pair : Pair) : Decidable (Owned t pair) :=
  inferInstanceAs (Decidable (_ ∧ _ ∧ ∀ f ∈ t.files.keys, pair.1 ∈ parents f → f ∈ taken t pair))

theorem mem_taken_of_dir {t : FileTree Unit} {pair : Pair} {f : Str} (hdir : t.isDir pair.1 = true) :
    f ∈ taken t pair ↔ (t.fileAt f).isSome ∧ ∃ name ∈ pair.2, f = pair.1 ++ '/' :: name := by
  rw [mem_taken]
  constructor
  · rintro ⟨hfile, hname | ⟨rfl, -⟩⟩
    · exact ⟨hfile, hname⟩
    · obtain ⟨i, hi⟩ := Option.isSome_iff_exists.1 hfile
      rw [FileTree.isDir_false_of_fileAt hi] at hdir
      cases hdir
  · exact fun h => ⟨h.1, .inl h.2⟩

/-- Files are below directories only. -/
private theorem taken_of_not_dir {t : FileTree Unit} {pair : Pair} {f : Str} (hdir : t.isDir pair.1 = false) :
    f ∈ taken t pair ↔ (t.fileAt f).isSome ∧ f = pair.1 ∧ baseName pair.1 ∈ pair.2 := by
  rw [mem_taken]
  constructor
  · rintro ⟨hfile, ⟨name, -, rfl⟩ | hself⟩
    · obtain ⟨i, hi⟩ := Option.isSome_iff_exists.1 hfile
      have habove := FileTree.hasParents_of_get (FileTree.fileAt_iff.1 hi) pair.1 (mem_parents.2 ⟨name, rfl⟩)
      rw [hdir] at habove
      cases habove
    · exact ⟨hfile, hself⟩
  · exact fun h => ⟨h.1, .inr h.2⟩

/-! ### One directory -/

theorem mem_present {t : FileTree Unit} {directory name : Str} :
    name ∈ t.files.keys.filterMap (relativeTo directory) ↔ (t.fileAt (directory ++ '/' :: name)).isSome := by
  rw [List.mem_filterMap]
  constructor
  · rintro ⟨f, hf, hname⟩
    rw [relativeTo_eq_some.1 hname] at hf
    exact FileTree.mem_files_keys.1 hf
  · intro hfile
    exact ⟨_, FileTree.mem_files_keys.2 hfile, relativeTo_eq_some.2 rfl⟩

/-- The test for taking a directory whole. -/
private theorem whole_iff {t : FileTree Unit} {directory : Str} {names : List Str} (hdir : t.isDir directory = true) :
    (t.files.keys.filterMap (relativeTo directory) ≠ [] ∧
      ∀ name ∈ t.files.keys.filterMap (relativeTo directory), name ∈ names) ↔ Owned t (directory, names) := by
  constructor
  · rintro ⟨hne, hall⟩
    refine ⟨hdir, ?_, fun f hf hbelow => ?_⟩
    · obtain ⟨name, hname⟩ := List.exists_mem_of_ne_nil _ hne
      exact ⟨_, FileTree.mem_files_keys.2 (mem_present.1 hname), mem_parents.2 ⟨name, rfl⟩⟩
    · obtain ⟨name, rfl⟩ := mem_parents.1 hbelow
      have hfile := FileTree.mem_files_keys.1 hf
      exact (mem_taken_of_dir hdir).2 ⟨hfile, name, hall name (mem_present.2 hfile), rfl⟩
  · rintro ⟨-, ⟨f, hf, hbelow⟩, hall⟩
    constructor
    · obtain ⟨name, rfl⟩ := mem_parents.1 hbelow
      exact List.ne_nil_of_mem (mem_present.2 (FileTree.mem_files_keys.1 hf))
    · intro name hname
      have htaken := hall _ (FileTree.mem_files_keys.2 (mem_present.1 hname)) (mem_parents.2 ⟨name, rfl⟩)
      obtain ⟨-, name', hname', heq⟩ := (mem_taken_of_dir hdir).1 htaken
      have hsame : name = name' := (List.cons.inj (List.append_cancel_left heq)).2
      rwa [hsame]

private theorem mem_planPresent {version directory p : Str} {exact : Bool} {names present : List Str}
    (h : ¬ (present ≠ [] ∧ ∀ name ∈ present, name ∈ names)) :
    p ∈ (planPresent version exact directory names present).relPaths ↔
      ∃ name ∈ names, name ∈ present ∧ p = directory ++ '/' :: name := by
  unfold planPresent
  rw [if_neg h, List.mem_map]
  constructor
  · rintro ⟨name, hname, rfl⟩
    rw [List.mem_filter, mem_sorted, List.mem_dedup, decide_eq_true_iff] at hname
    exact ⟨name, hname.1, hname.2, rfl⟩
  · rintro ⟨name, hname, hpresent, rfl⟩
    refine ⟨name, ?_, rfl⟩
    rw [List.mem_filter, mem_sorted, List.mem_dedup, decide_eq_true_iff]
    exact ⟨hname, hpresent⟩

/-- A directory is planned whole if it holds nothing else, or else the files taken from it are. -/
theorem mem_planDirectory {t : FileTree Unit} {version : Str} {exact : Bool} {pair : Pair} {p : Str} :
    p ∈ (planDirectory t version exact pair).relPaths ↔
      (Owned t pair ∧ p = pair.1) ∨ (¬ Owned t pair ∧ p ∈ taken t pair) := by
  obtain ⟨directory, names⟩ := pair
  have hnone : t.isDir directory = false → ¬ Owned t (directory, names) := by
    intro hdir howned
    have howned' := howned.1
    rw [hdir] at howned'
    cases howned'
  unfold planDirectory listPresent
  rcases hget : t.get directory with _ | ⟨i | _⟩
  · have hdir : t.isDir directory = false := by simp [FileTree.isDir, hget]
    have htaken : p ∉ taken t (directory, names) := by
      rw [taken_of_not_dir hdir]
      rintro ⟨hfile, rfl, -⟩
      simp [FileTree.fileAt, hget] at hfile
    simp [hnone hdir, htaken]
  · have hdir : t.isDir directory = false := by simp [FileTree.isDir, hget]
    have htaken : p ∈ taken t (directory, names) ↔ p = directory ∧ baseName directory ∈ names := by
      rw [taken_of_not_dir hdir]
      constructor
      · exact fun h => h.2
      · rintro ⟨rfl, hname⟩
        exact ⟨by rw [FileTree.fileAt_iff.2 hget]; rfl, rfl, hname⟩
    dsimp only
    by_cases hname : baseName directory ∈ names
    · simp [planPresent, hnone hdir, htaken, hname]
    · rw [mem_planPresent (by simpa using hname)]
      simp only [hnone hdir, htaken, hname, and_false, false_and, not_false_eq_true, or_self, iff_false]
      rintro ⟨name, hmem, hbase, -⟩
      rw [List.mem_singleton.1 hbase] at hmem
      exact hname hmem
  · have hdir : t.isDir directory = true := FileTree.isDir_iff.2 hget
    dsimp only
    by_cases hwhole : Owned t (directory, names)
    · simp only [planPresent, if_pos ((whole_iff hdir).2 hwhole), List.mem_singleton, hwhole, true_and, not_true_eq_false,
        false_and, or_false]
    · rw [mem_planPresent fun h => hwhole ((whole_iff hdir).1 h), mem_taken_of_dir hdir]
      simp only [hwhole, false_and, not_false_eq_true, true_and, false_or]
      constructor
      · rintro ⟨name, hmem, hpresent, rfl⟩
        exact ⟨mem_present.1 hpresent, name, hmem, rfl⟩
      · rintro ⟨hfile, name, hmem, rfl⟩
        exact ⟨name, hmem, mem_present.2 hfile, rfl⟩

/-- What one directory adds to the plan covers the files that are taken from it, and no others. -/
theorem covers_planDirectory {t : FileTree Unit} {version : Str} {exact : Bool} {pair : Pair} {f : Str}
    (hf : (t.fileAt f).isSome) :
    FileTree.Covers (planDirectory t version exact pair).relPaths f ↔ f ∈ taken t pair := by
  obtain ⟨i, hi⟩ := Option.isSome_iff_exists.1 hf
  have hnotDir := FileTree.isDir_false_of_fileAt hi
  by_cases howned : Owned t pair
  · have hmem : ∀ p, p ∈ (planDirectory t version exact pair).relPaths ↔ p = pair.1 := fun p => by
      rw [mem_planDirectory]
      simp [howned]
    constructor
    · rintro (hplanned | ⟨d, hd, hplanned⟩)
      · rw [(hmem f).1 hplanned, howned.1] at hnotDir
        cases hnotDir
      · rw [(hmem d).1 hplanned] at hd
        exact howned.2.2 f (FileTree.mem_files_keys.2 hf) hd
    · intro htaken
      obtain ⟨-, name, -, rfl⟩ := (mem_taken_of_dir howned.1).1 htaken
      exact .inr ⟨pair.1, mem_parents.2 ⟨name, rfl⟩, (hmem _).2 rfl⟩
  · have hmem : ∀ p, p ∈ (planDirectory t version exact pair).relPaths ↔ p ∈ taken t pair := fun p => by
      rw [mem_planDirectory]
      simp [howned]
    constructor
    · rintro (hplanned | ⟨d, hd, hplanned⟩)
      · exact (hmem f).1 hplanned
      · obtain ⟨j, hj⟩ := Option.isSome_iff_exists.1 (mem_taken.1 ((hmem d).1 hplanned)).1
        have hmissing := FileTree.get_eq_none_of_file_above hj hd
        rw [FileTree.fileAt_iff.1 hi] at hmissing
        cases hmissing
    · exact fun htaken => .inl ((hmem f).2 htaken)

end Unpublish

end TrustedReleases
