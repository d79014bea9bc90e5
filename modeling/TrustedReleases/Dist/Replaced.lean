import TrustedReleases.Dist.Resolve

/-!
# Releases that a commit replaces

A release of which a commit publishes a source is being replaced, not retired.  The files that are removed on their own
are checked for that, against the sources that were read (`archiveFile_inv`); the version directories that are removed
whole are not.  What a commit publishes is stated on its changed paths: it names a file, or it adds the directory of a
version whole, and the repository has the files.
-/

namespace TrustedReleases

open Lib

namespace Dist

variable {rules : DistRules} {db : Db} {reading : Reading} {p v : Str}

/-! ### What a commit publishes and removes -/

/-- A file with the release it belongs to by its path. -/
structure PlacedFile where
  key : Key
  writtenVersion : Str
  path : Str
  name : Str

/-- The file at a path, if the path has a version. -/
def placedFile (rules : DistRules) (path : Str) : Option PlacedFile :=
  (decomposeChange rules path).bind fun change => change.key.bind fun key =>
    change.filename.map fun name => ⟨key, change.decomposed.writtenVersion.getD key.2.2, path, name⟩

/-- A file that a commit adds by its name. -/
def namedFile (rules : DistRules) : Str × Str → Option PlacedFile
  | (path, flags) => if ['A'] <+: flags then placedFile rules path else none

def namedFiles (rules : DistRules) (changed : Changed) : List PlacedFile := changed.entries.filterMap (namedFile rules)

/-- The directory of a version, with its release. -/
def versionDirectory (rules : DistRules) (path : Str) : Option (Key × Str) :=
  (decomposeChange rules path).bind fun change =>
    if change.isDir then change.key.map (·, stripSlashes (removePrefix RELEASE_PREFIX path)) else none

/-- A directory of a version that a commit adds whole. -/
def addedDirectory (rules : DistRules) : Str × Str → Option (Key × Str)
  | (path, flags) => if ['A'] <+: flags then versionDirectory rules path else none

def addedDirectories (rules : DistRules) (changed : Changed) : List (Key × Str) :=
  changed.entries.filterMap (addedDirectory rules)

/-- The files below a directory with these names. -/
def filesBelow (rules : DistRules) (directory : Str) (names : List Str) : List PlacedFile :=
  names.filterMap fun name => placedFile rules (RELEASE_PREFIX ++ directory ++ '/' :: name)

/-- The release of a directory of a version that a commit removes whole. -/
def removedDirectory (rules : DistRules) : Str × Str → Option Key
  | (path, flags) => if ['D'] <+: flags then (versionDirectory rules path).map Prod.fst else none

/-- An artifact that a commit removes by its name. -/
def removedFile : Str × Str → Option (Str × Str)
  | (path, flags) =>
    if RELEASE_PREFIX <+: path ∧ ['D'] <+: flags ∧ ¬ ['/'] <:+ path then removedArtifactFile path else none

def addPlaced (added : OrdDict Key ReleaseFiles) (file : PlacedFile) : OrdDict Key ReleaseFiles :=
  addToBundle added file.key file.writtenVersion file.path file.name

/-- The files by their releases. -/
def byRelease (files : List PlacedFile) : OrdDict Key ReleaseFiles := files.foldl addPlaced .empty

/-- The releases of which there is a source among the files, of which some are named and some listed in directories.  The
packages of Airflow providers belong to the batch that they come with. -/
def releasesWithSource (rules : DistRules) (named listed : List PlacedFile) : OrdDict Key ReleaseFiles :=
  collapseAirflowProviders rules
    ((byRelease listed).entries.foldl joinListed ((byRelease named).filter fun _ bundle => bundle.hasSource))

/-- The release is one of those with a source, whatever the spelling of its version. -/
def IsAmong (rules : DistRules) (db : Db) (released : OrdDict Key ReleaseFiles) (p v : Str) : Prop :=
  ∃ bundle ∈ released.values, (∃ file ∈ bundle.files, file.kind = .source) ∧
    ∃ project ∈ resolveProject rules db bundle.committee bundle.subproject,
      project.key = p ∧ Unicode.lower bundle.version = Unicode.lower v

instance isAmongDecidable (rules : DistRules) (db : Db) (released : OrdDict Key ReleaseFiles) (p v : Str) :
    Decidable (IsAmong rules db released p v) :=
  inferInstanceAs (Decidable (∃ bundle ∈ released.values, (∃ file ∈ bundle.files, file.kind = .source) ∧
    ∃ project ∈ resolveProject rules db bundle.committee bundle.subproject,
      project.key = p ∧ Unicode.lower bundle.version = Unicode.lower v))

/-- The commit publishes a source of the release: it names the file, or it adds the directory of the version whole, in
which the repository has the file. -/
def Publishes (rules : DistRules) (db : Db) (contents : Str → List Str) (changed : Changed) (p v : Str) : Prop :=
  IsAmong rules db (releasesWithSource rules (namedFiles rules changed)
    ((addedDirectories rules changed).flatMap fun d => filesBelow rules d.2 (contents d.2))) p v

instance publishesDecidable (rules : DistRules) (db : Db) (contents : Str → List Str) (changed : Changed) (p v : Str) :
    Decidable (Publishes rules db contents changed p v) := isAmongDecidable ..

/-- What the repository answers when a directory is listed: its files, or nothing. -/
def listFiles (contents : Str → List Str) (answers : Str → Bool) (directory : Str) : Option (List Str) :=
  if answers directory then some (contents directory) else none

def setDirectory (directories : OrdDict Key Str) (added : Key × Str) : OrdDict Key Str := directories.set added.1 added.2

/-- The directories added whole that are listed: the last one of each release, if no source is named in it or below it
and the repository answers. -/
def listedDirectories (rules : DistRules) (answers : Str → Bool) (changed : Changed) : List Str :=
  let last := (addedDirectories rules changed).foldl setDirectory .empty
  let sources := (byRelease (namedFiles rules changed)).filter fun _ bundle => bundle.hasSource
  let namedDirs := sources.values.flatMap fun bundle => bundle.files.map AddedFile.dirpath
  last.values.filter fun directory =>
    !(namedDirs.any fun named => decide (named = directory ∨ directory ++ ['/'] <+: named)) && answers directory

/-- The release key is one of those of the sources that are named, or that are in the directories which are listed. -/
def Noticed (rules : DistRules) (db : Db) (contents : Str → List Str) (answers : Str → Bool) (changed : Changed)
    (p v : Str) : Prop :=
  Unicode.lower (releaseKey p v) ∈ publishedReleaseKeys rules db (releasesWithSource rules (namedFiles rules changed)
    ((listedDirectories rules answers changed).flatMap fun d => filesBelow rules d (contents d)))

/-- The commit removes whole a directory that is the one of the release. -/
def RemovesDirectory (rules : DistRules) (db : Db) (changed : Changed) (p v : Str) : Prop :=
  ∃ entry ∈ changed.entries, ∃ key ∈ removedDirectory rules entry, resolveArchive rules db key = some (p, v)

/-- The table of artifacts has the file as the source of the release. -/
def SourceOf (db : Db) (file : Str × Str) (p v : Str) : Prop :=
  resolveRemovedFile db file.1 file.2 = .ok (some (p, v, releaseKey p v))

/-- The commit removes a source of the release by its name. -/
def RemovesSource (db : Db) (changed : Changed) (p v : Str) : Prop :=
  ∃ entry ∈ changed.entries, ∃ file ∈ removedFile entry, SourceOf db file p v

/-! ### What is read -/

private theorem decomposeChange_filename {path : Str} {change : Change} (h : decomposeChange rules path = some change) :
    RELEASE_PREFIX <+: path ∧ change.isDir = decide (['/'] <:+ path) ∧ (change.isDir = true ↔ change.filename = none) := by
  unfold decomposeChange at h
  split_ifs at h with hfront
  refine ⟨hfront, ?_⟩
  dsimp only at h
  split at h
  · split_ifs at h with hdir
    · obtain ⟨decomposed, -, rfl⟩ := Option.map_eq_some_iff.1 h
      simpa using hdir
    · obtain ⟨decomposed, -, rfl⟩ := Option.map_eq_some_iff.1 h
      simpa using hdir
  · cases h

private theorem not_both_flags {flags : Str} (h : ['D'] <+: flags) : ¬ ['A'] <+: flags := by
  obtain ⟨rest, rfl⟩ := h
  simp

/-- What one changed path adds to what is recorded. -/
structure RecordsPath (rules : DistRules) (entry : Str × Str) (s s' : StructuralChanges) : Prop where
  added : s'.added = (namedFile rules entry).toList.foldl addPlaced s.added
  copied : s'.copied = (addedDirectory rules entry).toList.foldl setDirectory s.copied
  removed : ∀ key, key ∈ s'.removed ↔ key ∈ s.removed ∨ removedDirectory rules entry = some key
  removedFiles : s'.removedFiles = s.removedFiles ++ (removedFile entry).toList

/-- A path that does not decompose is at most a file that is removed. -/
private theorem recordPath_unplaced (s : StructuralChanges) {path : Str} (flags : Str)
    (hchange : decomposeChange rules path = none) :
    RecordsPath rules (path, flags) s (recordPath rules s (path, flags)) := by
  have hnamed : namedFile rules (path, flags) = none := by simp [namedFile, placedFile, hchange]
  have hadded : addedDirectory rules (path, flags) = none := by simp [addedDirectory, versionDirectory, hchange]
  have hremoved : removedDirectory rules (path, flags) = none := by simp [removedDirectory, versionDirectory, hchange]
  by_cases hfront : RELEASE_PREFIX <+: path
  · by_cases hfile : ['D'] <+: flags ∧ ¬ ['/'] <:+ path
    · constructor <;> simp [recordPath, removedFile, hnamed, hadded, hremoved, hfront, hfile]
    · constructor <;> simp [recordPath, removedFile, hchange, hnamed, hadded, hremoved, hfront, hfile]
  · constructor <;> simp [recordPath, removedFile, hnamed, hadded, hremoved, hfront]

/-- A directory that is removed whole is recorded, once. -/
private theorem recordDecomposed_removes (s : StructuralChanges) (path : Str) {flags : Str} {change : Change} {key : Key}
    (hkey : change.key = some key) (hflag : ['D'] <+: flags) (hisDir : change.isDir = true) :
    recordDecomposed path flags change s =
      { s with removed := if key ∈ s.removed then s.removed else s.removed ++ [key] } := by
  unfold recordDecomposed
  rw [hkey]
  exact if_pos ⟨hflag, hisDir⟩

/-- A path that is removed is a directory of a version or a file. -/
private theorem recordPath_removes (s : StructuralChanges) {path flags : Str} {change : Change}
    (hchange : decomposeChange rules path = some change) (hflag : ['D'] <+: flags) :
    RecordsPath rules (path, flags) s (recordPath rules s (path, flags)) := by
  obtain ⟨hfront, hdir, -⟩ := decomposeChange_filename hchange
  have hnamed : namedFile rules (path, flags) = none := by simp [namedFile, not_both_flags hflag]
  have hadded : addedDirectory rules (path, flags) = none := by simp [addedDirectory, not_both_flags hflag]
  by_cases hslash : ['/'] <:+ path
  · have hisDir : change.isDir = true := hdir.trans (decide_eq_true hslash)
    have hnofile : removedFile (path, flags) = none := by simp [removedFile, hslash]
    have hrecord : recordPath rules s (path, flags) = recordDecomposed path flags change s := by
      simp [recordPath, hfront, hslash, hchange]
    have hremoved : removedDirectory rules (path, flags) = change.key := by
      simp [removedDirectory, versionDirectory, hflag, hchange, hisDir, Function.comp_def]
    rw [hrecord]
    cases hkey : change.key with
    | none => constructor <;> simp [recordDecomposed, hkey, hnamed, hadded, hnofile, hremoved]
    | some key =>
      rw [recordDecomposed_removes s path hkey hflag hisDir]
      refine ⟨by rw [hnamed]; rfl, by rw [hadded]; rfl, fun q => ?_, by rw [hnofile]; exact (List.append_nil _).symm⟩
      rw [hremoved, hkey, Option.some.injEq]
      by_cases hmem : key ∈ s.removed
      · rw [if_pos hmem]
        exact ⟨.inl, fun h => h.elim id fun heq => heq ▸ hmem⟩
      · rw [if_neg hmem, List.mem_append, List.mem_singleton, eq_comm]
  · have hisDir : change.isDir = false := hdir.trans (decide_eq_false hslash)
    have hremoved : removedDirectory rules (path, flags) = none := by
      simp [removedDirectory, versionDirectory, hchange, hisDir]
    constructor <;> simp [recordPath, removedFile, hnamed, hadded, hremoved, hfront, hflag, hslash]

/-- A path that is not removed is a directory of a version that is added, a file that is named or neither. -/
private theorem recordPath_adds (s : StructuralChanges) {path flags : Str} {change : Change}
    (hchange : decomposeChange rules path = some change) (hflag : ¬ ['D'] <+: flags) :
    RecordsPath rules (path, flags) s (recordPath rules s (path, flags)) := by
  obtain ⟨hfront, -, hfilename⟩ := decomposeChange_filename hchange
  have hremoved : removedDirectory rules (path, flags) = none := by simp [removedDirectory, hflag]
  have hnofile : removedFile (path, flags) = none := by simp [removedFile, hflag]
  have hrecord : recordPath rules s (path, flags) = recordDecomposed path flags change s := by
    simp [recordPath, hfront, hflag, hchange]
  rw [hrecord]
  cases hkey : change.key with
  | none =>
    constructor <;> simp [recordDecomposed, namedFile, placedFile, addedDirectory, versionDirectory, hchange, hkey,
      hremoved, hnofile]
  | some key =>
    by_cases hadds : ['A'] <+: flags
    · cases hname : change.filename with
      | none =>
        have hisDir := hfilename.2 hname
        constructor <;> simp [recordDecomposed, namedFile, placedFile, addedDirectory, versionDirectory, setDirectory,
          hchange, hkey, hflag, hadds, hname, hisDir, hremoved, hnofile]
      | some name =>
        have hisDir : change.isDir = false := by
          rw [Bool.eq_false_iff]
          intro h
          rw [hfilename.1 h] at hname
          cases hname
        constructor <;> simp [recordDecomposed, namedFile, placedFile, addedDirectory, versionDirectory, addPlaced,
          hchange, hkey, hflag, hadds, hname, hisDir, hremoved, hnofile]
    · cases hname : change.filename with
      | none =>
        constructor <;> simp [recordDecomposed, namedFile, addedDirectory, hkey, hflag, hadds, hname, hremoved, hnofile]
      | some name =>
        constructor <;> simp [recordDecomposed, namedFile, addedDirectory, hkey, hflag, hadds, hname, hremoved, hnofile]

/-- One changed path is a file that is named or removed, or a directory that is added or removed whole. -/
private theorem recordPath_records (s : StructuralChanges) (entry : Str × Str) :
    RecordsPath rules entry s (recordPath rules s entry) := by
  obtain ⟨path, flags⟩ := entry
  cases hchange : decomposeChange rules path with
  | none => exact recordPath_unplaced s flags hchange
  | some change =>
    by_cases hflag : ['D'] <+: flags
    · exact recordPath_removes s hchange hflag
    · exact recordPath_adds s hchange hflag

private theorem foldl_recordPath (entries : List (Str × Str)) (s : StructuralChanges) :
    (entries.foldl (recordPath rules) s).added = (entries.filterMap (namedFile rules)).foldl addPlaced s.added ∧
      (entries.foldl (recordPath rules) s).copied =
        (entries.filterMap (addedDirectory rules)).foldl setDirectory s.copied ∧
      (∀ key, key ∈ (entries.foldl (recordPath rules) s).removed ↔
        key ∈ s.removed ∨ ∃ entry ∈ entries, removedDirectory rules entry = some key) ∧
      (entries.foldl (recordPath rules) s).removedFiles = s.removedFiles ++ entries.filterMap removedFile := by
  induction entries generalizing s with
  | nil => simp
  | cons entry entries ih =>
    obtain ⟨hadded, hcopied, hremoved, hfiles⟩ := ih (recordPath rules s entry)
    have hpath := @recordPath_records rules s entry
    have hcons (β : Type) (f : Str × Str → Option β) :
        (entry :: entries).filterMap f = (f entry).toList ++ entries.filterMap f := by
      rw [List.filterMap_cons]
      cases f entry <;> rfl
    rw [List.foldl_cons, hcons, hcons, hcons, List.foldl_append, List.foldl_append, ← hpath.added,
      ← hpath.copied, ← List.append_assoc, ← hpath.removedFiles]
    refine ⟨hadded, hcopied, fun key => ?_, hfiles⟩
    rw [hremoved, hpath.removed, List.exists_mem_cons_iff, or_assoc]

/-- One file of a directory that is listed. -/
private theorem recordListed_eq (directory : Str) (listed : OrdDict Key ReleaseFiles) (name : Str) :
    recordListed rules directory listed name =
      (placedFile rules (RELEASE_PREFIX ++ directory ++ '/' :: name)).toList.foldl addPlaced listed := by
  unfold recordListed placedFile
  dsimp only
  cases hchange : decomposeChange rules (RELEASE_PREFIX ++ directory ++ '/' :: name) with
  | none => rfl
  | some change =>
    obtain ⟨-, -, hfilename⟩ := decomposeChange_filename hchange
    unfold recordDecomposed
    dsimp only
    cases hkey : change.key with
    | none => simp [hkey]
    | some key =>
      cases hname : change.filename with
      | none => simp [hkey, hname, hfilename.2 hname]
      | some name =>
        have hisDir : change.isDir = false := by
          rw [Bool.eq_false_iff]
          intro h
          rw [hfilename.1 h] at hname
          cases hname
        simp [hkey, hname, hisDir, addPlaced]

private theorem foldl_recordListed (directory : Str) (names : List Str) (listed : OrdDict Key ReleaseFiles) :
    names.foldl (recordListed rules directory) listed = (filesBelow rules directory names).foldl addPlaced listed := by
  unfold filesBelow
  induction names generalizing listed with
  | nil => rfl
  | cons name names ih =>
    rw [List.foldl_cons, ih, recordListed_eq, List.filterMap_cons]
    cases placedFile rules (RELEASE_PREFIX ++ directory ++ '/' :: name) <;> rfl

/-- The files of the directories that are listed. -/
private theorem foldl_listDirectory (contents : Str → List Str) (answers : Str → Bool)
    (namedDirs directories : List Str)
    (listed : OrdDict Key ReleaseFiles) :
    directories.foldl (listDirectory rules (listFiles contents answers) namedDirs) listed =
      ((directories.filter fun directory =>
        !(namedDirs.any fun named => decide (named = directory ∨ directory ++ ['/'] <+: named)) && answers directory).flatMap
          fun d => filesBelow rules d (contents d)).foldl addPlaced listed := by
  induction directories generalizing listed with
  | nil => rfl
  | cons directory directories ih =>
    rw [List.foldl_cons, ih]
    unfold listDirectory listFiles
    cases hnamed : namedDirs.any fun named => decide (named = directory ∨ directory ++ ['/'] <+: named) with
    | true => rw [if_pos rfl, List.filter_cons_of_neg (by simp only [hnamed]; simp)]
    | false =>
      rw [if_neg (by decide)]
      cases hanswers : answers directory with
      | false => rw [if_neg (by decide), List.filter_cons_of_neg (by simp [hanswers])]
      | true =>
        rw [if_pos rfl, List.filter_cons_of_pos (by simp only [hnamed, hanswers]; rfl), List.flatMap_cons, List.foldl_append]
        dsimp only
        rw [foldl_recordListed]

/-- The sources that a commit is read to add are those that it names and those in the directories that are listed. -/
private theorem readCommit_added (contents : Str → List Str) (answers : Str → Bool) (changed : Changed) :
    (readCommit rules (listFiles contents answers) changed).added =
      releasesWithSource rules (namedFiles rules changed)
        ((listedDirectories rules answers changed).flatMap fun d => filesBelow rules d (contents d)) := by
  obtain ⟨hadded, hcopied, -, -⟩ := @foldl_recordPath rules changed.entries ⟨.empty, [], [], .empty⟩
  unfold readCommit structuralChanges
  dsimp only
  rw [hadded, hcopied]
  unfold expandCopied
  dsimp only
  rw [foldl_listDirectory]
  rfl

private theorem mem_removed {contents : Str → List Str} {answers : Str → Bool} {changed : Changed} {key : Key} :
    key ∈ (readCommit rules (listFiles contents answers) changed).removed ↔
      ∃ entry ∈ changed.entries, removedDirectory rules entry = some key := by
  obtain ⟨-, -, hremoved, -⟩ := @foldl_recordPath rules changed.entries ⟨.empty, [], [], .empty⟩
  refine (hremoved key).trans (or_iff_right List.not_mem_nil)

private theorem mem_removedFiles {contents : Str → List Str} {answers : Str → Bool} {changed : Changed}
    {file : Str × Str} :
    file ∈ (readCommit rules (listFiles contents answers) changed).removedFiles ↔
      ∃ entry ∈ changed.entries, removedFile entry = some file := by
  obtain ⟨-, -, -, hfiles⟩ := @foldl_recordPath rules changed.entries ⟨.empty, [], [], .empty⟩
  rw [← List.mem_filterMap, ← List.nil_append (List.filterMap removedFile changed.entries)]
  exact Iff.of_eq (congrArg (file ∈ ·) hfiles)

/-! ### What is archived -/

theorem safeKeys_eq_some {projectKey version p v : Str} (h : safeKeys projectKey version = some (p, v)) :
    p = projectKey ∧ v = version := by
  unfold safeKeys at h
  split_ifs at h
  obtain ⟨rfl, rfl⟩ := Prod.mk.inj (Option.some.inj h)
  exact ⟨rfl, rfl⟩

/-- The project and the version are those of a release in the database. -/
def Held (db : Db) (p v : Str) : Prop := ∃ r ∈ db.releases, r.projectKey = p ∧ r.version = v

/-- Releases with the same key are the same. -/
private theorem Held.eq_of_key {p' v' : Str} (h : Held db p v) (h' : Held db p' v')
    (hkey : releaseKey p v = releaseKey p' v') :
    p = p' ∧ v = v' := by
  obtain ⟨r, hr, rfl, rfl⟩ := h
  obtain ⟨r', hr', rfl, rfl⟩ := h'
  have hsame : r = r' := List.inj_on_of_nodup_map db.releases_nodup hr hr' hkey
  rw [hsame]
  exact ⟨rfl, rfl⟩

theorem cataloguedRelease_mem {projectKey version : Str} {r : Release}
    (h : cataloguedRelease db projectKey version = some r) : r ∈ db.releases ∧ r.projectKey = projectKey := by
  have hspelled : r ∈ spellings db projectKey version := by
    unfold cataloguedRelease at h
    dsimp only at h
    split at h
    · next release hfind =>
      obtain rfl := Option.some.inj h
      exact List.mem_of_find?_eq_some hfind
    · exact mem_orderBy.1 (List.mem_of_mem_head? h)
  obtain ⟨hmem, hkeys⟩ := List.mem_filter.1 hspelled
  exact ⟨hmem, (of_decide_eq_true hkeys).1⟩

private theorem resolveArchive_held {key : Key} (h : resolveArchive rules db key = some (p, v)) : Held db p v := by
  unfold resolveArchive at h
  obtain ⟨project, -, h⟩ := Option.bind_eq_some_iff.1 h
  obtain ⟨release, hrelease, h⟩ := Option.bind_eq_some_iff.1 h
  split_ifs at h
  obtain ⟨rfl, rfl⟩ := safeKeys_eq_some h
  obtain ⟨hmem, hproject⟩ := cataloguedRelease_mem hrelease
  exact ⟨release, hmem, hproject, rfl⟩

/-- The release of a removed file is in the database, and has the key that it is known by. -/
private theorem resolveRemovedFile_held {file : Str × Str} {key : Str}
    (h : resolveRemovedFile db file.1 file.2 = .ok (some (p, v, key))) : key = releaseKey p v ∧ Held db p v := by
  unfold resolveRemovedFile at h
  obtain ⟨artifact, -, hrest⟩ := bind_eq_ok h
  obtain ⟨r, hr, hkeys⟩ := Option.bind_eq_some_iff.1 (Except.ok.inj hrest)
  split_ifs at hkeys
  obtain ⟨⟨p', v'⟩, hsafe, heq⟩ := Option.map_eq_some_iff.1 hkeys
  obtain ⟨rfl, rfl⟩ := safeKeys_eq_some hsafe
  obtain ⟨rfl, heq'⟩ := Prod.mk.inj heq
  obtain ⟨rfl, rfl⟩ := Prod.mk.inj heq'
  obtain ⟨a, -, hr⟩ := Option.bind_eq_some_iff.1 hr
  obtain ⟨k, -, hr⟩ := Option.bind_eq_some_iff.1 hr
  exact ⟨rfl, r, List.mem_of_find?_eq_some hr, rfl, rfl⟩

/-- What has been archived after the directories and a part of the files. -/
structure Archived (rules : DistRules) (db : Db) (published : List Str) (removed : List Key) (files : List (Str × Str))
    (s : Archives) : Prop where
  keys : s.archivedKeys = s.archives.map fun a => releaseKey a.1 a.2
  held : ∀ p v, (p, v) ∈ s.archives → Held db p v
  mem : ∀ p v, (p, v) ∈ s.archives ↔ (∃ key ∈ removed, resolveArchive rules db key = some (p, v)) ∨
    (∃ file ∈ files, SourceOf db file p v) ∧ Unicode.lower (releaseKey p v) ∉ published

private theorem foldl_archiveDirectory (keys : List Key) {s : Archives}
    (hs : s.archivedKeys = s.archives.map fun a => releaseKey a.1 a.2) :
    (keys.foldl (archiveDirectory rules db) s).archives = s.archives ++ keys.filterMap (resolveArchive rules db) ∧
      (keys.foldl (archiveDirectory rules db) s).archivedKeys =
        (keys.foldl (archiveDirectory rules db) s).archives.map fun a => releaseKey a.1 a.2 := by
  induction keys generalizing s with
  | nil => exact ⟨by simp, hs⟩
  | cons key keys ih =>
    rw [List.foldl_cons]
    cases hkey : resolveArchive rules db key with
    | none =>
      have hstep : archiveDirectory rules db s key = s := by
        unfold archiveDirectory
        rw [hkey]
      rw [hstep, List.filterMap_cons_none hkey]
      exact ih hs
    | some archive =>
      have hstep : archiveDirectory rules db s key =
          ⟨s.archives ++ [archive], s.archivedKeys ++ [releaseKey archive.1 archive.2]⟩ := by
        unfold archiveDirectory
        rw [hkey]
      obtain ⟨harchives, hkeys⟩ :=
        @ih ⟨s.archives ++ [archive], s.archivedKeys ++ [releaseKey archive.1 archive.2]⟩ (by simp [hs])
      rw [hstep, List.filterMap_cons_some hkey]
      exact ⟨harchives.trans (List.append_assoc ..), hkeys⟩

/-- What the directories that are removed whole archive. -/
private theorem archived_directories (published : List Str) (keys : List Key) :
    Archived rules db published keys [] (keys.foldl (archiveDirectory rules db) ⟨[], []⟩) := by
  obtain ⟨harchives, hkeys⟩ := @foldl_archiveDirectory rules db keys ⟨[], []⟩ rfl
  rw [List.nil_append] at harchives
  refine ⟨hkeys, fun p v hmem => ?_, fun p v => ?_⟩
  · rw [harchives] at hmem
    obtain ⟨key, -, hkey⟩ := List.mem_filterMap.1 hmem
    exact resolveArchive_held hkey
  · rw [harchives, List.mem_filterMap]
    simp

private theorem exists_sourceOf_append {files : List (Str × Str)} {file : Str × Str} :
    (∃ f ∈ files ++ [file], SourceOf db f p v) ↔ (∃ f ∈ files, SourceOf db f p v) ∨ SourceOf db file p v := by
  simp only [List.mem_append, List.mem_singleton, or_and_right, exists_or, exists_eq_left]

/-- A file of a release that is published or archived already changes nothing. -/
private theorem Archived.skip {published : List Str} {keys : List Key} {files : List (Str × Str)} {s : Archives}
    {file : Str × Str} {p₀ v₀ : Str} (hs : Archived rules db published keys files s)
    (hsource : ∀ p v, SourceOf db file p v ↔ p = p₀ ∧ v = v₀) (hheld : Held db p₀ v₀)
    (hskip : Unicode.lower (releaseKey p₀ v₀) ∈ published ∨ releaseKey p₀ v₀ ∈ s.archivedKeys) :
    Archived rules db published keys (files ++ [file]) s := by
  refine ⟨hs.keys, hs.held, fun p v => ?_⟩
  rw [exists_sourceOf_append, hsource]
  constructor
  · intro hmem
    exact ((hs.mem p v).1 hmem).imp_right fun hfile => ⟨.inl hfile.1, hfile.2⟩
  · rintro (hdirectory | ⟨hold | ⟨rfl, rfl⟩, hnot⟩)
    · exact (hs.mem p v).2 (.inl hdirectory)
    · exact (hs.mem p v).2 (.inr ⟨hold, hnot⟩)
    · rcases hskip with hpublished | harchived
      · exact absurd hpublished hnot
      · rw [hs.keys] at harchived
        obtain ⟨⟨p', v'⟩, hmem, hkey⟩ := List.mem_map.1 harchived
        obtain ⟨rfl, rfl⟩ := (hs.held p' v' hmem).eq_of_key hheld hkey
        exact hmem

/-- A file of another release adds it. -/
private theorem Archived.add {published : List Str} {keys : List Key} {files : List (Str × Str)} {s : Archives}
    {file : Str × Str} {p₀ v₀ : Str} (hs : Archived rules db published keys files s)
    (hsource : ∀ p v, SourceOf db file p v ↔ p = p₀ ∧ v = v₀) (hheld : Held db p₀ v₀)
    (hnot : Unicode.lower (releaseKey p₀ v₀) ∉ published) :
    Archived rules db published keys (files ++ [file])
      ⟨s.archives ++ [(p₀, v₀)], s.archivedKeys ++ [releaseKey p₀ v₀]⟩ := by
  refine ⟨by simp [hs.keys], fun p v hmem => ?_, fun p v => ?_⟩
  · rcases List.mem_append.1 hmem with hold | hnew
    · exact hs.held p v hold
    · obtain ⟨rfl, rfl⟩ := Prod.mk.inj (List.mem_singleton.1 hnew)
      exact hheld
  · rw [exists_sourceOf_append, hsource, List.mem_append, List.mem_singleton, Prod.mk.injEq, hs.mem]
    constructor
    · rintro ((hdirectory | ⟨hold, hold'⟩) | ⟨rfl, rfl⟩)
      · exact .inl hdirectory
      · exact .inr ⟨.inl hold, hold'⟩
      · exact .inr ⟨.inr ⟨rfl, rfl⟩, hnot⟩
    · rintro (hdirectory | ⟨hold | hnew, hold'⟩)
      · exact .inl (.inl hdirectory)
      · exact .inl (.inr ⟨hold, hold'⟩)
      · exact .inr hnew

/-- One file adds its release, unless that is published or archived already. -/
theorem Archived.file {published : List Str} {keys : List Key} {files : List (Str × Str)} {s s' : Archives}
    {file : Str × Str} (hs : Archived rules db published keys files s) (h : archiveFile db published s file = .ok s') :
    Archived rules db published keys (files ++ [file]) s' := by
  unfold archiveFile at h
  obtain ⟨resolved, hresolved, hrest⟩ := bind_eq_ok h
  have hsource (p v : Str) : SourceOf db file p v ↔ resolved = some (p, v, releaseKey p v) := by
    unfold SourceOf
    rw [hresolved, Except.ok.injEq]
  cases resolved with
  | none =>
    obtain rfl := Except.ok.inj hrest
    refine ⟨hs.keys, hs.held, fun p v => ?_⟩
    rw [hs.mem, exists_sourceOf_append, hsource]
    simp
  | some found =>
    obtain ⟨p₀, v₀, key⟩ := found
    obtain ⟨rfl, hheld⟩ := resolveRemovedFile_held hresolved
    have hfound (p v : Str) : SourceOf db file p v ↔ p = p₀ ∧ v = v₀ := by
      rw [hsource]
      constructor
      · intro heq
        obtain ⟨rfl, heq⟩ := Prod.mk.inj (Option.some.inj heq)
        exact ⟨rfl, (Prod.mk.inj heq).1.symm⟩
      · rintro ⟨rfl, rfl⟩
        rfl
    dsimp only at hrest
    split_ifs at hrest with hskip
    · obtain rfl := Except.ok.inj hrest
      exact hs.skip hfound hheld hskip
    · obtain rfl := Except.ok.inj hrest
      exact hs.add hfound hheld fun hpublished => hskip (.inl hpublished)

/-- What a commit archives: what the directories that it removes whole resolve to, and the releases of the sources that it
removes, unless it is noticed that they are published. -/
private theorem mem_archives_iff {contents : Str → List Str} {answers : Str → Bool} {changed : Changed}
    {resolution : Resolution}
    (hok : resolveChanges rules db (readCommit rules (listFiles contents answers) changed) = .ok resolution)
    (p v : Str) : (p, v) ∈ resolution.archives ↔
      RemovesDirectory rules db changed p v ∨
        RemovesSource db changed p v ∧ ¬ Noticed rules db contents answers changed p v := by
  unfold resolveChanges at hok
  obtain ⟨s, hfiles, hrest⟩ := bind_eq_ok hok
  obtain rfl := Except.ok.inj hrest
  have harchived := foldlM_preserves (Archived rules db _ _) (archived_directories _ _)
    (fun done file rest t t' _ ht hstep => ht.file hstep) hfiles
  rw [harchived.mem, readCommit_added]
  refine or_congr ⟨?_, ?_⟩ (and_congr_left' ⟨?_, ?_⟩)
  · rintro ⟨key, hkey, hresolves⟩
    obtain ⟨entry, hentry, hremoved⟩ := mem_removed.1 (mem_orderBy.1 hkey)
    exact ⟨entry, hentry, key, hremoved, hresolves⟩
  · rintro ⟨entry, hentry, key, hremoved, hresolves⟩
    exact ⟨key, mem_orderBy.2 (mem_removed.2 ⟨entry, hentry, hremoved⟩), hresolves⟩
  · rintro ⟨file, hfile, hsource⟩
    obtain ⟨entry, hentry, hremoved⟩ := mem_removedFiles.1 (List.mem_dedup.1 (mem_orderBy.1 hfile))
    exact ⟨entry, hentry, file, hremoved, hsource⟩
  · rintro ⟨entry, hentry, file, hremoved, hsource⟩
    exact ⟨file, mem_orderBy.2 (List.mem_dedup.2 (mem_removedFiles.2 ⟨entry, hentry, hremoved⟩)), hsource⟩

/-- The project foo with its current release 1.0, whose source is catalogued. -/
def fooReleased : Db where
  projects := [⟨"foo".toList, some "foo".toList⟩]
  releases := [⟨"foo".toList, "1.0".toList, .release, false, none⟩]
  artifacts := [⟨"foo-1.0-src.tar.gz".toList, some "foo".toList, some .source, some "foo-1.0".toList⟩]
  projects_nodup := by decide
  releases_nodup := by decide

/-- The directory of the release is removed, and its source is added elsewhere. -/
def movedOut : Changed :=
  (OrdDict.empty.set "release/foo/1.0/".toList ['D']).set "release/foo/foo-1.0-src.tar.gz".toList ['A']

/-- The source of the release is removed, and the directory of its version is added whole. -/
def movedIn : Changed :=
  (OrdDict.empty.set "release/foo/foo-1.0-src.tar.gz".toList ['D']).set "release/foo/1.0/".toList ['A']

/-- The directory that is added has a directory of binaries, which is added too. -/
def movedWithBinaries : Changed := movedIn.set "release/foo/1.0/binaries/".toList ['A']

/-- The source is in the directory of the version. -/
def fooContents (directory : Str) : List Str :=
  if directory = "foo/1.0".toList then ["foo-1.0-src.tar.gz".toList] else []

private theorem archived_of_archives {changed : Changed}
    (harchives : ((resolveChanges emptyRules fooReleased
      (readCommit emptyRules (listFiles fooContents fun _ => true) changed)).toOption.map Resolution.archives) =
        some [("foo".toList, "1.0".toList)]) :
    ∃ resolution, resolveChanges emptyRules fooReleased
        (readCommit emptyRules (listFiles fooContents fun _ => true) changed) = .ok resolution ∧
      ("foo".toList, "1.0".toList) ∈ resolution.archives := by
  obtain ⟨resolution, hok, hlist⟩ := Option.map_eq_some_iff.1 harchives
  refine ⟨resolution, toOption_eq_some.1 hok, ?_⟩
  rw [hlist]
  exact List.mem_singleton_self _

end Dist

end TrustedReleases
