import TrustedReleases.Dist.Decompose
import TrustedReleases.Lib.OrdDict

/-!
# Reading a dist commit

A commit is the map of its changed paths to their flags.  Its files are gathered by release in three passes: the files
that it names, the files below the version directories that it adds whole, as the repository lists them, and the batches
of Airflow providers.
-/

namespace TrustedReleases

open Lib

namespace Dist

def RELEASE_PREFIX : Str := "release/".toList

/-- A release while a commit is read: committee, subproject and version in lower case. -/
abbrev Key := Str × Option Str × Str

/-- An added file: its directory below the release root, its name and its kind. -/
structure AddedFile where
  dirpath : Str
  name : Str
  kind : FileType
  deriving DecidableEq

/-- `_ReleaseFiles` -/
structure ReleaseFiles where
  committee : Str
  subproject : Option Str
  version : Str
  files : List AddedFile := []
  hasSource : Bool := false
  deriving DecidableEq

/-- The changed paths with their flags. -/
abbrev Changed := OrdDict Str Str

/-- `_StructuralChanges` -/
structure StructuralChanges where
  added : OrdDict Key ReleaseFiles
  removed : List Key
  removedFiles : List (Str × Str)
  copied : OrdDict Key Str

/-- A changed path that was read. -/
structure Change where
  committee : Str
  decomposed : Decomposed
  isDir : Bool
  filename : Option Str

def stripSlashes (s : Str) : Str := (s.reverse.dropWhile (· == '/')).reverse

/-- `str.rsplit("/", 1)`, where there is a slash -/
def splitLast (s : Str) : Option (Str × Str) :=
  if '/' ∈ s then
    let name := (s.reverse.takeWhile (· ≠ '/')).reverse
    some (s.take (s.length - name.length - 1), name)
  else none

/-- `_decompose_change` -/
def decomposeChange (rules : DistRules) (path : Str) : Option Change :=
  if ¬ RELEASE_PREFIX <+: path then none
  else
    let isDir := decide (['/'] <:+ path)
    match (stripSlashes (removePrefix RELEASE_PREFIX path)).splitOn '/' with
    | committee :: part :: parts =>
      let rest := part :: parts
      if isDir then (rules.decompose committee rest none).map (⟨committee, ·, true, none⟩)
      else
        let filename := rest.getLast (List.cons_ne_nil part parts)
        (rules.decompose committee rest.dropLast (some filename)).map (⟨committee, ·, false, some filename⟩)
    | _ => none

/-- The file of an added path. -/
def addedFile (path filename : Str) : AddedFile :=
  let rel := removePrefix RELEASE_PREFIX path
  { dirpath := ((splitLast rel).map Prod.fst).getD []
    name := filename
    kind := classifyPath rel }

/-- A file joins a bundle. -/
def ReleaseFiles.addFile (bundle : ReleaseFiles) (file : AddedFile) : ReleaseFiles :=
  { bundle with
    files := bundle.files ++ [file]
    hasSource := bundle.hasSource || decide (file.kind = .source) }

/-- `_add_to_bundle` -/
def addToBundle (added : OrdDict Key ReleaseFiles) (key : Key) (writtenVersion path filename : Str) :
    OrdDict Key ReleaseFiles :=
  let bundle := (added.get key).getD
    { committee := key.1
      subproject := key.2.1
      version := writtenVersion }
  added.set key (bundle.addFile (addedFile path filename))

/-- The key of a change that has a version. -/
def Change.key (change : Change) : Option Key :=
  change.decomposed.version.map fun version =>
    (change.committee, (moduleComponent change.committee change.decomposed.subproject).or change.decomposed.subproject,
      version)

/-- `_record_decomposed` -/
def recordDecomposed (path flags : Str) (change : Change) (s : StructuralChanges) : StructuralChanges :=
  match change.key with
  | none => s
  | some key =>
    if ['D'] <+: flags ∧ change.isDir = true then
      { s with removed := if key ∈ s.removed then s.removed else s.removed ++ [key] }
    else if ['A'] <+: flags ∧ change.isDir = true then
      { s with copied := s.copied.set key (stripSlashes (removePrefix RELEASE_PREFIX path)) }
    else
      match change.filename with
      | some filename =>
        if ['A'] <+: flags then
          { s with added := addToBundle s.added key (change.decomposed.writtenVersion.getD key.2.2) path filename }
        else s
      | none => s

/-- `_removed_artifact_file` -/
def removedArtifactFile (path : Str) : Option (Str × Str) :=
  (splitLast (removePrefix RELEASE_PREFIX path)).filter fun file => isArtifact file.2

/-- One changed path of `_structural_changes`. -/
def recordPath (rules : DistRules) (s : StructuralChanges) (changed : Str × Str) : StructuralChanges :=
  let (path, flags) := changed
  if ¬ RELEASE_PREFIX <+: path then s
  else if ['D'] <+: flags ∧ ¬ ['/'] <:+ path then
    { s with removedFiles := s.removedFiles ++ (removedArtifactFile path).toList }
  else
    match decomposeChange rules path with
    | none => s
    | some change => recordDecomposed path flags change s

/-- `_structural_changes` -/
def structuralChanges (rules : DistRules) (changed : Changed) : StructuralChanges :=
  let s := changed.entries.foldl (recordPath rules) ⟨.empty, [], [], .empty⟩
  { s with added := s.added.filter fun _ bundle => bundle.hasSource }

/-! ### Directories added whole -/

/-- One file of a directory that is listed. -/
def recordListed (rules : DistRules) (relpath : Str) (listed : OrdDict Key ReleaseFiles) (name : Str) :
    OrdDict Key ReleaseFiles :=
  let path := RELEASE_PREFIX ++ relpath ++ '/' :: name
  match decomposeChange rules path with
  | none => listed
  | some change => (recordDecomposed path ['A'] change ⟨listed, [], [], .empty⟩).added

/-- A directory is not listed if the commit names files of it, or if the repository does not answer. -/
def listDirectory (rules : DistRules) (listFiles : Str → Option (List Str)) (namedDirs : List Str)
    (listed : OrdDict Key ReleaseFiles) (relpath : Str) : OrdDict Key ReleaseFiles :=
  if namedDirs.any fun named => decide (named = relpath ∨ relpath ++ ['/'] <+: named) then listed
  else
    match listFiles relpath with
    | none => listed
    | some names => names.foldl (recordListed rules relpath) listed

/-- A bundle that was listed joins the one that was named. -/
def joinListed (added : OrdDict Key ReleaseFiles) (entry : Key × ReleaseFiles) : OrdDict Key ReleaseFiles :=
  let (key, bundle) := entry
  match added.get key with
  | some existing =>
    added.set key { existing with
      files := existing.files ++ bundle.files
      hasSource := existing.hasSource || bundle.hasSource }
  | none => if bundle.hasSource then added.set key bundle else added

/-- `_expand_copied` -/
def expandCopied (rules : DistRules) (listFiles : Str → Option (List Str)) (copied : OrdDict Key Str)
    (added : OrdDict Key ReleaseFiles) : OrdDict Key ReleaseFiles :=
  let namedDirs := added.values.flatMap fun bundle => bundle.files.map AddedFile.dirpath
  let listed := copied.values.foldl (listDirectory rules listFiles namedDirs) .empty
  listed.entries.foldl joinListed added

/-! ### Airflow providers -/

/-- `_airflow_bundle_area` -/
def airflowBundleArea (rules : DistRules) (bundle : ReleaseFiles) : Option Str :=
  if bundle.committee ≠ "airflow".toList then none
  else bundle.files.findSome? fun file => rules.airflowProviderArea "airflow".toList ((file.dirpath.splitOn '/').drop 1)

/-- `_airflow_file_kind` -/
def airflowFileKind (name : Str) (kind : FileType) : FileType :=
  if (airflowCalverDate name).isSome then .source
  else if kind = .source then .binary
  else kind

/-- The date of the last batch source in a bundle. -/
def batchDate (bundle : ReleaseFiles) : Option Str := (bundle.files.filterMap fun file => airflowCalverDate file.name).getLast?

/-- The batches of the areas, and the bundles in them. -/
structure Batches where
  dateByArea : OrdDict Str Str
  keysByArea : OrdDict Str (List Key)

def findBatches (rules : DistRules) (added : OrdDict Key ReleaseFiles) : Batches :=
  added.entries.foldl (fun batches (key, bundle) =>
    match airflowBundleArea rules bundle with
    | none => batches
    | some area =>
      { dateByArea := match batchDate bundle with
          | some date => batches.dateByArea.set area date
          | none => batches.dateByArea
        keysByArea := batches.keysByArea.set area (((batches.keysByArea.get area).getD []) ++ [key]) }) ⟨.empty, .empty⟩

/-- The files of a bundle join those of its batch. -/
def ReleaseFiles.merge (merged bundle : ReleaseFiles) : ReleaseFiles :=
  bundle.files.foldl (fun merged file => merged.addFile { file with kind := airflowFileKind file.name file.kind }) merged

/-- The bundles of an area become one release. -/
def collapseArea (batches : Batches) (added : OrdDict Key ReleaseFiles) (batch : Str × Str) : OrdDict Key ReleaseFiles :=
  let (area, date) := batch
  let keys := (batches.keysByArea.get area).getD []
  let bundles := keys.filterMap added.get
  let merged := bundles.foldl ReleaseFiles.merge
    { committee := "airflow".toList
      subproject := some area
      version := date }
  (keys.foldl OrdDict.pop added).set ("airflow".toList, some area, date) merged

/-- `_collapse_airflow_providers` -/
def collapseAirflowProviders (rules : DistRules) (added : OrdDict Key ReleaseFiles) : OrdDict Key ReleaseFiles :=
  let batches := findBatches rules added
  batches.dateByArea.entries.foldl (collapseArea batches) added

/-! ### The whole commit -/

/-- What a commit comes to: the releases it adds files of, and what it removes. -/
structure Reading where
  added : OrdDict Key ReleaseFiles
  removed : List Key
  removedFiles : List (Str × Str)

/-- The three passes of `catalogue_commit`. -/
def readCommit (rules : DistRules) (listFiles : Str → Option (List Str)) (changed : Changed) : Reading :=
  let changes := structuralChanges rules changed
  { added := collapseAirflowProviders rules (expandCopied rules listFiles changes.copied changes.added)
    removed := changes.removed
    removedFiles := changes.removedFiles }

end Dist

end TrustedReleases
