import TrustedReleases.Dist.Commit
import TrustedReleases.Lib.Except
import TrustedReleases.Lib.Query
import TrustedReleases.Vote.Rows

/-!
# Resolving a commit against the database

What was read of a commit becomes releases to catalogue, drafts to wipe and releases to archive, by the projects, the
releases and the artifacts that the database has.
-/

namespace TrustedReleases

open Lib

namespace Dist

/-! ### Keys -/

/-- A character of `_ALPHANUM`. -/
def isKeyChar (c : Char) : Bool := Regex.isAlnum c || c == '-'

/-- `safe.ProjectKey` accepts the value. -/
def isProjectKey (s : Str) : Bool := decide (s ≠ []) && s.all isKeyChar && decide (Unicode.lower s = s)

def MAX_VERSION_LENGTH : Nat := 128

/-- `safe.VersionKey` accepts the value. -/
def isVersionKey (s : Str) : Bool :=
  decide (s ≠ []) && s.all (fun c => isKeyChar c || c == '.' || c == '+') && decide (s.length ≤ MAX_VERSION_LENGTH) &&
    s.head?.all isKeyChar && s.getLast?.all isKeyChar

/-- `_safe_keys` -/
def safeKeys (projectKey version : Str) : Option (Str × Str) :=
  if isProjectKey projectKey && isVersionKey version then some (projectKey, version) else none

/-- `release_key` -/
def releaseKey (projectKey version : Str) : Str := projectKey ++ '-' :: version

/-! ### Rows -/

structure Project where
  key : Str
  committeeKey : Option Str
  deriving DecidableEq

/-- A release, with the account that made its latest revision. -/
structure Release where
  projectKey : Str
  version : Str
  phase : ReleasePhase
  isArchived : Bool
  lastAuthor : Option Str
  deriving DecidableEq

def Release.key (r : Release) : Str := releaseKey r.projectKey r.version

structure Artifact where
  artifactPath : Str
  downloadPathSuffix : Option Str
  classification : Option FileType
  releaseKey : Option Str
  deriving DecidableEq

/-- The tables.  The keys of projects and of releases are their primary keys. -/
structure Db where
  projects : List Project
  releases : List Release
  artifacts : List Artifact
  projects_nodup : (projects.map Project.key).Nodup
  releases_nodup : (releases.map Release.key).Nodup

/-- A query for one row that finds several. -/
inductive DbError where
  | multipleResultsFound
  deriving DecidableEq

/-- `scalar_one_or_none` -/
def scalarOneOrNone {α : Type} : List α → Except DbError (Option α)
  | [] => .ok none
  | [a] => .ok (some a)
  | _ => .error .multipleResultsFound

/-! ### Lookups -/

/-- `_resolve_project` -/
def resolveProject (rules : DistRules) (db : Db) (committee : Str) (subproject : Option Str) : Option Project :=
  let remapped := rules.projectRemap committee subproject
  let candidates := match remapped with
    | some key => [key]
    | none => candidateKeys committee subproject
  match candidates.findSome? fun key => db.projects.find? fun p => decide (p.key = key) with
  | some project => some project
  | none =>
    if subproject ≠ none ∨ remapped ≠ none ∨ committee = "incubator".toList then none
    else
      match db.projects.filter fun p => decide (p.committeeKey = some committee) with
      | [project] => some project
      | _ => none

/-- `lower` of the database, which changes the letters of ASCII alone. -/
def sqlLower (s : Str) : Str := s.map Char.toLower

/-- The releases of a project with a version, in any spelling. -/
def spellings (db : Db) (projectKey version : Str) : List Release :=
  db.releases.filter fun r => decide (r.projectKey = projectKey ∧ sqlLower r.version = Unicode.lower version)

/-- `_catalogued_release` -/
def cataloguedRelease (db : Db) (projectKey version : Str) : Option Release :=
  let candidates := spellings db projectKey version
  match candidates.find? fun r => decide (r.version = version) with
  | some release => some release
  | none => (orderBy Release.key candidates).head?

/-- `_resolve_archive` -/
def resolveArchive (rules : DistRules) (db : Db) (key : Key) : Option (Str × Str) := do
  let project ← resolveProject rules db key.1 key.2.1
  let release ← cataloguedRelease db project.key key.2.2
  if release.isArchived then none else safeKeys project.key release.version

/-- `_published_release_keys` -/
def publishedReleaseKeys (rules : DistRules) (db : Db) (added : OrdDict Key ReleaseFiles) : List Str :=
  added.values.filterMap fun bundle =>
    (resolveProject rules db bundle.committee bundle.subproject).map fun project =>
      Unicode.lower (releaseKey project.key bundle.version)

/-- `_resolve_removed_file`: the release of an artifact that is its source. -/
def resolveRemovedFile (db : Db) (downloadPathSuffix artifactPath : Str) : Except DbError (Option (Str × Str × Str)) := do
  let artifact ← scalarOneOrNone (db.artifacts.filter fun a =>
    decide (a.downloadPathSuffix = some downloadPathSuffix ∧ a.artifactPath = artifactPath ∧
      a.classification = some .source))
  let release := artifact.bind fun a => a.releaseKey.bind fun key => db.releases.find? fun r => decide (r.key = key)
  return release.bind fun r =>
    if r.isArchived then none
    else (safeKeys r.projectKey r.version).map fun (projectKey, version) => (projectKey, version, r.key)

/-! ### Releases -/

structure ArtifactInput where
  artifactPath : Str
  classification : FileType
  downloadPathSuffix : Str
  signaturePath : Option Str
  checksumPath : Option Str
  sbomPath : Option Str
  deriving DecidableEq

def SIGNATURE_SUFFIXES : List String := [".asc", ".sig"]

def CHECKSUM_SUFFIXES : List String := [".sha512", ".sha256", ".sha1", ".sha", ".mds", ".md5"]

/-- The first of the names that is there. -/
def companion (siblings candidates : List Str) : Option Str := candidates.find? fun name => siblings.contains name

/-- `_artifacts`: the artifacts of a bundle, each name once, with the files beside them. -/
def artifacts (bundle : ReleaseFiles) : List ArtifactInput :=
  let files := bundle.files.filter fun f => f.kind ≠ .metadata && f.kind ≠ .disallowed && isArtifact f.name
  (firstPer AddedFile.name [] files).map fun file =>
    let siblings := (bundle.files.filter fun f => decide (f.dirpath = file.dirpath)).map AddedFile.name
    let withSuffixes (suffixes : List String) := suffixes.map fun suffix => file.name ++ suffix.toList
    { artifactPath := file.name
      classification := file.kind
      downloadPathSuffix := file.dirpath
      signaturePath := companion siblings (withSuffixes SIGNATURE_SUFFIXES)
      checksumPath := companion siblings (withSuffixes CHECKSUM_SUFFIXES)
      sbomPath := companion siblings (sbomCandidates file.name) }

/-- A draft that a publication overtakes. -/
structure SupersededDraft where
  projectKey : Str
  versionKey : Str
  authorAsfUid : Option Str
  deriving DecidableEq

structure ResolvedRelease where
  projectKey : Str
  versionKey : Str
  artifacts : List ArtifactInput
  deriving DecidableEq

structure ReleaseResolution where
  catalogue : Option ResolvedRelease
  supersede : Option SupersededDraft

/-- `_resolve_release` -/
def resolveRelease (rules : DistRules) (db : Db) (bundle : ReleaseFiles) : ReleaseResolution :=
  match resolveProject rules db bundle.committee bundle.subproject with
  | none => ⟨none, none⟩
  | some project =>
    let existing := cataloguedRelease db project.key bundle.version
    match safeKeys project.key ((existing.map Release.version).getD bundle.version) with
    | none => ⟨none, none⟩
    | some (projectKey, versionKey) =>
      let catalogue := some ⟨projectKey, versionKey, artifacts bundle⟩
      match existing with
      | none => ⟨catalogue, none⟩
      | some release =>
        match release.phase with
        | .release => if release.isArchived then ⟨catalogue, none⟩ else ⟨none, none⟩
        | .releasePreview => ⟨none, none⟩
        | .releaseCandidateDraft | .releaseCandidate =>
          ⟨catalogue, some ⟨projectKey, versionKey, release.lastAuthor⟩⟩

/-! ### The whole commit -/

/-- The order of committee, subproject and version, where no subproject counts as an empty one. -/
def sortKey (committee : Str) (subproject : Option Str) (version : Str) : Str ×ₗ Str ×ₗ Str :=
  toLex (committee, toLex (subproject.getD [], version))

/-- What a commit is resolved to. -/
structure Resolution where
  releases : List ResolvedRelease
  supersessions : List SupersededDraft
  archives : List (Str × Str)

/-- The archives so far, and the keys of their releases. -/
structure Archives where
  archives : List (Str × Str)
  archivedKeys : List Str

/-- A version directory that was removed. -/
def archiveDirectory (rules : DistRules) (db : Db) (s : Archives) (key : Key) : Archives :=
  match resolveArchive rules db key with
  | none => s
  | some (projectKey, version) =>
    ⟨s.archives ++ [(projectKey, version)], s.archivedKeys ++ [releaseKey projectKey version]⟩

/-- A file that was removed: its release is archived, unless the commit publishes a source of it. -/
def archiveFile (db : Db) (published : List Str) (s : Archives) (file : Str × Str) : Except DbError Archives := do
  match ← resolveRemovedFile db file.1 file.2 with
  | none => return s
  | some (projectKey, version, key) =>
    if Unicode.lower key ∈ published ∨ key ∈ s.archivedKeys then return s
    else return ⟨s.archives ++ [(projectKey, version)], s.archivedKeys ++ [key]⟩

/-- `_resolve_changes` -/
def resolveChanges (rules : DistRules) (db : Db) (reading : Reading) : Except DbError Resolution := do
  let bundles := orderBy (fun b => sortKey b.committee b.subproject b.version) reading.added.values
  let resolutions := bundles.map (resolveRelease rules db)
  let directories := (orderBy (fun k : Key => sortKey k.1 k.2.1 k.2.2) reading.removed).foldl
    (archiveDirectory rules db) ⟨[], []⟩
  let files := orderBy (fun f : Str × Str => toLex f) reading.removedFiles.dedup
  let archives ← files.foldlM (archiveFile db (publishedReleaseKeys rules db reading.added)) directories
  return {
    releases := resolutions.filterMap ReleaseResolution.catalogue
    supersessions := resolutions.filterMap ReleaseResolution.supersede
    archives := archives.archives }

end Dist

end TrustedReleases
