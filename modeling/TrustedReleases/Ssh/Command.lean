import Mathlib
import TrustedReleases.Catalogue.Rows
import TrustedReleases.Lib.Except
import TrustedReleases.Lib.Text
import TrustedReleases.Vote.Rows

/-!
# Commands over SSH

A client of the SSH server asks for an rsync command (`atr/ssh.py`).  The words of the command are validated, the path
names a project and a version, and the permissions of the user are looked up; then a command is executed in which the
server has put its own path in the place of the client's.
-/

namespace TrustedReleases

open Lib Catalogue

namespace Ssh

/-- `RsyncArgsError`, or the `RuntimeError` of `_build_rsync_write_argv`. -/
inductive RsyncError where
  | args (message : Str)
  | flags (got : List Char)
  | pathArguments (got : List Str)
  | runtime (message : Str)
  deriving DecidableEq

/-! ### Words -/

/-- `str.split` without a separator. -/
def words (s : Str) : List Str := (s.splitOnP isSpace).filter (· ≠ [])

/-- A group of short options. -/
def isShort (arg : Str) : Bool := "-".toList <+: arg && !("--".toList <+: arg : Bool)

/-- The flags of a group, without the capabilities that rsync sends after `e.`. -/
def flagsOf (arg : Str) : List Char :=
  match cut "e.".toList (arg.drop 1) with
  | some (flags, _) => flags
  | none => arg.drop 1

/-- The groups of short options at the front, and what is after them. -/
def shortArgs (argv : List Str) : List Str × List Str := (argv.takeWhile isShort, argv.dropWhile isShort)

/-- The flags that there must be. -/
def FLAGS : Finset Char := "Dgloprtv".toList.toFinset

/-- The word is taken from the front, if it is there. -/
def skip (word : Str) (argv : List Str) : List Str := if argv.take 1 = [word] then argv.drop 1 else argv

/-- `_step_03_command_simple_validate` -/
def commandSimpleValidate (argv : List Str) : Except RsyncError Bool := do
  raiseIf (argv.take 2 ≠ ["rsync".toList, "--server".toList])
    (.args "The first two arguments must be rsync and --server".toList)
  let argv := argv.drop 2
  let isReadRequest := decide (argv.take 1 = ["--sender".toList])
  let argv := if isReadRequest then argv.drop 1 else argv
  -- the -r flag takes precedence over -d
  let flags := ((shortArgs argv).1.flatMap flagsOf).toFinset.erase 'd'
  raiseIf (flags ≠ FLAGS) (.flags (flags.sort (· ≤ ·)))
  let argv := skip "--dirs".toList (shortArgs argv).2
  let argv := if isReadRequest then argv else skip "--delete".toList argv
  raiseIf (argv.length ≠ 2) (.pathArguments argv)
  raiseIf (argv.take 1 ≠ [".".toList]) (.args "The first path argument must be .".toList)
  return isReadRequest

/-! ### Paths -/

/-- `_validate_path_common` -/
def validatePathCommon (path : Str) : Except RsyncError Unit := do
  raiseIf (¬ "/".toList <+: path) (.args "The path argument should be an absolute path".toList)
  raiseIf (¬ "/".toList <:+ path) (.args "The path argument should be a directory path, ending with a /".toList)
  raiseIf ("//".toList <:+: path) (.args "The path argument should not contain //".toList)

def projectKeyOf (s : Str) : Except RsyncError ProjectKey :=
  if h : IsProjectKey s then .ok ⟨s, h⟩ else .error (.args "Project is invalid".toList)

def versionKeyOf (s : Str) : Except RsyncError VersionKey :=
  if h : IsVersionKey s then .ok ⟨s, h⟩ else .error (.args "Version is invalid".toList)

/-- `_validate_tag_segment` -/
def validateTagSegment (segment : Str) : Except RsyncError Unit :=
  raiseIf (¬ segment.all isAlphanum) (.args "The tag should contain only alphanumeric characters or hyphens".toList)

/-- The parts of a path without the slashes at its ends: two, and what is after a further slash. -/
def pathParts (path : Str) : Str × Str × Option Str :=
  match cut "/".toList (stripBy (· = '/') path) with
  | none => (stripBy (· = '/') path, [], none)
  | some (project, rest) =>
    match cut "/".toList rest with
    | none => (project, rest, none)
    | some (version, tag) => (project, version, some tag)

/-- `_step_05a_command_path_validate_read` -/
def commandPathValidateRead (path : Str) : Except RsyncError (ProjectKey × VersionKey × Option Str) := do
  validatePathCommon path
  raiseIf (path.count '/' < 3 ∨ 4 < path.count '/')
    (.args "The path argument should be a /PROJECT/VERSION/(tag)/ directory path".toList)
  let (pathProject, pathVersion, tag) := pathParts path
  let projectKey ← projectKeyOf pathProject
  let versionKey ← versionKeyOf pathVersion
  validateTagSegment (tag.getD [])
  return (projectKey, versionKey, tag)

/-- `_step_05b_command_path_validate_write` -/
def commandPathValidateWrite (path : Str) : Except RsyncError (ProjectKey × VersionKey × Option Str) := do
  validatePathCommon path
  raiseIf (path.count '/' ≠ 3) (.args "The path argument should be a /PROJECT/VERSION/ directory path".toList)
  let (pathProject, pathVersion, _) := pathParts path
  let projectKey ← projectKeyOf pathProject
  let versionKey ← versionKeyOf pathVersion
  return (projectKey, versionKey, none)

/-! ### Permissions -/

/-- The members and the committers of a committee. -/
structure Committee where
  committeeMembers : List Str
  committers : List Str

/-- A release, with the patterns of its policy's tags. -/
structure Release where
  key : Str
  phase : ReleasePhase
  expedited : Bool
  fileTagMappings : Option (List (Str × List Str))

/-- `is_embargoed` -/
def Release.isEmbargoed (r : Release) : Bool := r.expedited && r.phase ≠ .release

structure Project where
  key : Str
  committee : Option Committee

/-- What the connection and the rows are at a request: the user of the connection, with the project of a workflow key and
whether it is one for downloads only, and the active projects. -/
structure Request where
  asfUid : Str
  githubProjectKey : Option ProjectKey
  githubReadOnly : Bool
  isActive : Str → Bool
  isAdmin : Str → Bool
  project : ProjectKey → Option Project
  release : ProjectKey → VersionKey → Option Release

/-- `is_committee_member` -/
def isCommitteeMember (committee : Option Committee) (uid : Str) : Bool :=
  committee.any fun c => uid ∈ c.committeeMembers

/-- `is_committer` -/
def isCommitter (committee : Option Committee) (uid : Str) : Bool := committee.any fun c => uid ∈ c.committers

/-- `embargo_denies`, for no member of the foundation. -/
def embargoDenies (req : Request) (committee : Option Committee) (r : Release) : Bool :=
  r.isEmbargoed && !(req.isAdmin req.asfUid || isCommitteeMember committee req.asfUid)

/-- The text with a value between quotes. -/
def quoted (before value after : String) : Str := (before ++ "'" ++ value ++ "'" ++ after).toList

/-- `".." in "".join(...)` -/
def isMisconfigured (patterns : List Str) : Bool := decide ("..".toList <:+: patterns.flatten)

/-- `_step_06a_validate_read_permissions` -/
def validateReadPermissions (req : Request) (project : Project) (release : Option Release) (releaseKey : Str)
    (tag : Option Str) : Except RsyncError (Release × Option (List Str)) := do
  let r ← demand release (.args (quoted "Release " (.ofList releaseKey) " does not exist"))
  raiseIf (r.phase = .release)
    (.args (quoted "Release " (.ofList r.key) s!" is not in a readable phase ({r.phase.value})"))
  raiseIf (req.githubReadOnly = true ∧ r.isEmbargoed = true ∧ r.phase ≠ .releasePreview)
    (.args (quoted "Release " (.ofList r.key) " is embargoed, so this workflow key cannot download it"))
  let readAllowed := if r.isEmbargoed then !embargoDenies req project.committee r else
    isCommitter project.committee req.asfUid
  raiseIf (readAllowed = false)
    (.args (quoted "You must be a committer or committee member for project " (.ofList project.key)
      " to read this release"))
  match tag.filter (· ≠ []) with
  | none => return (r, none)
  | some tag =>
    let mappings ← demand (r.fileTagMappings.filter (· ≠ []))
      (.args (quoted "Release " (.ofList r.key) " does not support tags"))
    let patterns ← demand ((mappings.find? fun m => m.1 = tag).map Prod.snd)
      (.args (quoted "Tag " (.ofList tag) s!" is not allowed for release '{String.ofList r.key}'"))
    raiseIf (isMisconfigured patterns = true)
      (.args (quoted "Tag " (.ofList tag) s!" is misconfigured for release '{String.ofList r.key}'"))
    return (r, some patterns)

/-- `_step_06b_validate_write_permissions` -/
def validateWritePermissions (req : Request) (project : Project) (release : Option Release) :
    Except RsyncError Unit :=
  match release with
  | none =>
    raiseIf (isCommitteeMember project.committee req.asfUid = false)
      (.args (quoted "You must be a member of project " (.ofList project.key) " committee to create a release"))
  | some r => do
    raiseIf (r.phase ≠ .releaseCandidateDraft)
      (.args (quoted "Cannot upload: Release " (.ofList r.key) s!" is no longer in draft phase ({r.phase.value})"))
    raiseIf (isCommitter project.committee req.asfUid = false)
      (.args (quoted "You must be a committer or committee member for project " (.ofList project.key)
        " to upload to this release"))

/-- What `_step_04_command_validate` returns: the release and the patterns of a read, or neither for a write. -/
structure Validated where
  projectKey : ProjectKey
  versionKey : VersionKey
  filePatterns : Option (List Str)
  release : Option Release

/-- The path of a command, by whether it reads. -/
def commandPathValidate (isReadRequest : Bool) (path : Str) :
    Except RsyncError (ProjectKey × VersionKey × Option Str) :=
  if isReadRequest then commandPathValidateRead path else commandPathValidateWrite path

/-- A workflow key is registered for one project. -/
def checkWorkflowProject (req : Request) (projectKey : ProjectKey) : Except RsyncError Unit :=
  match req.githubProjectKey with
  | none => .ok ()
  | some key =>
    raiseIf (projectKey ≠ key) (.args (quoted "This workflow key can only be used for project " (.ofList key.1) ""))

/-- `_step_04_command_validate` -/
def commandValidate (req : Request) (argv : List Str) (isReadRequest : Bool) : Except RsyncError Validated := do
  let path := argv.getLast?.getD []
  let (projectKey, versionKey, tag) ← commandPathValidate isReadRequest path
  checkWorkflowProject req projectKey
  raiseIf (isReadRequest = false ∧ req.githubReadOnly = true)
    (.args "This workflow key can only be used to download files".toList)
  let project ← demand (req.project projectKey) (.args (quoted "Project " (.ofList projectKey.1) " does not exist"))
  if isReadRequest then do
    let (release, filePatterns) ← validateReadPermissions req project (req.release projectKey versionKey)
      (projectKey.1 ++ '-' :: versionKey.1) tag
    return ⟨projectKey, versionKey, filePatterns, some release⟩
  else do
    validateWritePermissions req project (req.release projectKey versionKey)
    return ⟨projectKey, versionKey, none, none⟩

/-! ### Execution -/

def MAX_SIZE : Str := "--max-size=2000000000".toList

/-- `_build_rsync_write_argv` -/
def buildRsyncWriteArgv (argv : List Str) : Except RsyncError (List Str) := do
  raiseIf (argv.length < 2 ∨ argv.dropLast.getLast? ≠ some ".".toList)
    (.runtime "Validated rsync write argv must end with '.' and the destination path".toList)
  return argv.take (argv.length - 2) ++ [MAX_SIZE, "--info=skip2".toList, ".".toList, ".".toList]

/-- The words of `_step_07a_process_validated_rsync_read`, with the directory of the release and the files that `glob` has
found. -/
def readArgv (argv : List Str) (sourceDir : Str) (files : Option (List Str)) : List Str :=
  match files with
  | none => argv.dropLast ++ [if "/".toList <:+ sourceDir then sourceDir else sourceDir ++ "/".toList]
  | some files => argv.dropLast ++ files

/-- What the server executes. -/
inductive Execution where
  | read (projectKey : ProjectKey) (versionKey : VersionKey) (release : Release) (argv : List Str)
  | write (projectKey : ProjectKey) (versionKey : VersionKey) (argv : List Str)

/-- The files that match the patterns of a tag. -/
def globFiles (glob : Str → List Str) (sourceDir : Str) (patterns : List Str) : List Str :=
  patterns.flatMap fun pattern => glob (sourceDir ++ '/' :: pattern)

/-- `_step_02_handle_safely` up to the execution, with the directory of a release, if it is there, and `glob`.  The words
are those that `sandbox.rsync_command` is given, which puts the call of the sandbox in front of them. -/
def handleSafely (req : Request) (releaseDirectory : Release → Option Str) (glob : Str → List Str) (command : Str) :
    Except RsyncError Execution := do
  raiseIf (req.isActive req.asfUid = false) (.args "Account disabled".toList)
  raiseIf (command = []) (.args "No command specified".toList)
  let argv := words command
  let isReadRequest ← commandSimpleValidate argv
  let v ← commandValidate req argv isReadRequest
  match v.release with
  | some release =>
    let sourceDir ← demand (releaseDirectory release)
      (.args (s!"Source directory not found for release {String.ofList release.key}".toList))
    let files := v.filePatterns.map (globFiles glob sourceDir)
    raiseIf (files = some []) (.args s!"No files match the tag for release {String.ofList release.key}".toList)
    return .read v.projectKey v.versionKey release (readArgv argv sourceDir files)
  | none =>
    let argv ← buildRsyncWriteArgv argv
    return .write v.projectKey v.versionKey argv

end Ssh

end TrustedReleases
