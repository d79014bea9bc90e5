import TrustedReleases.Lib.Dict
import TrustedReleases.Lib.Str

/-!
# Rows of the catalogue

The rows of uploaded files (`atr/shared/catalogue_rows.py`), whose keys and paths are of the safe types
(`atr/models/safe.py`): strings that carry the proof of their validity.
-/

namespace TrustedReleases

open Lib

namespace Catalogue

/-! ### Safe types -/

/-- A letter, a digit or a hyphen. -/
def isAlphanum (c : Char) : Bool := c.isAlphanum || c == '-'

def isVersionChar (c : Char) : Bool := isAlphanum c || c == '.' || c == '+'

def isPathChar (c : Char) : Bool := c.isAlphanum || c ∈ "-._+~/()".toList

def IsCommitteeKey (s : Str) : Prop := s ≠ [] ∧ s.all isAlphanum
  deriving Decidable

/-- A project key is in lower case. -/
def IsProjectKey (s : Str) : Prop := s ≠ [] ∧ s.all fun c => isAlphanum c && !c.isUpper
  deriving Decidable

def IsReleaseKey (s : Str) : Prop := s ≠ [] ∧ s.all isVersionChar
  deriving Decidable

def maxVersionLength : Nat := 128

def IsVersionKey (s : Str) : Prop :=
  s ≠ [] ∧ s.all isVersionChar ∧ s.length ≤ maxVersionLength ∧ s.head?.all isAlphanum ∧ s.getLast?.all isAlphanum
  deriving Decidable

/-- The segments of a path that a relative path must not have. -/
def IsBadSegment (segment : Str) : Prop :=
  segment ∈ [".".toList, "..".toList, ".git".toList, ".svn".toList] ∨
    (".".toList <+: segment ∧ ¬ ".atr".toList <+: segment ∧ segment ≠ ".gitkeep".toList)
  deriving Decidable

/-- A relative path, without empty segments before its end. -/
def IsRelPath (s : Str) : Prop :=
  s ≠ [] ∧ s.all isPathChar ∧ ¬ "/".toList <+: s ∧ ¬ "//".toList <:+: s ∧
    ∀ segment ∈ s.splitOn '/', ¬ IsBadSegment segment
  deriving Decidable

abbrev CommitteeKey := {s : Str // IsCommitteeKey s}

abbrev ProjectKey := {s : Str // IsProjectKey s}

abbrev ReleaseKey := {s : Str // IsReleaseKey s}

abbrev VersionKey := {s : Str // IsVersionKey s}

abbrev RelPath := {s : Str // IsRelPath s}

/-! ### Rows -/

/-- The key of the release with a version of a project, from which the project cannot be told: both may have hyphens. -/
def releaseKeyOf (project version : Str) : Str := project ++ '-' :: version

theorem releaseKeyOf_version {project version version' : Str} (h : releaseKeyOf project version = releaseKeyOf project version') :
    version = version' := (List.cons.inj (List.append_cancel_left h)).2

/-- The primary key of an artifact. -/
structure Pk where
  project : Str
  version : Str
  path : Str
  deriving DecidableEq, Repr

structure ProjectRow where
  key : ProjectKey
  committeeKey : Option CommitteeKey
  deriving DecidableEq

structure ReleaseRow where
  key : ReleaseKey
  projectKey : ProjectKey
  version : VersionKey
  deriving DecidableEq

structure ArtifactRow where
  projectKey : ProjectKey
  version : VersionKey
  artifactPath : RelPath
  downloadPathSuffix : Option RelPath
  deriving DecidableEq

def ArtifactRow.releaseKey (row : ArtifactRow) : Str := releaseKeyOf row.projectKey.1 row.version.1

def ArtifactRow.pk (row : ArtifactRow) : Pk := ⟨row.projectKey.1, row.version.1, row.artifactPath.1⟩

/-- The row of a table, any of the three. -/
inductive Row where
  | project (row : ProjectRow)
  | release (row : ReleaseRow)
  | artifact (row : ArtifactRow)
  deriving DecidableEq

/-! ### Uploads -/

/-- The cells of a line under their columns. -/
abbrev RawRow := Dict Str Str

/-- The validation of a line by the package pydantic, which gives a row or the text of its first error. -/
structure Parsers where
  project : RawRow → Except Str ProjectRow
  release : RawRow → Except Str ReleaseRow
  artifact : RawRow → Except Str ArtifactRow

/-- A cell of a safe type. -/
def parseSafe (p : Str → Prop) [DecidablePred p] (column : Str) (raw : RawRow) : Except Str {s : Str // p s} :=
  if h : p ((Dict.get raw column).getD []) then .ok ⟨_, h⟩ else .error column

/-- A cell of a safe type that may be blank. -/
def parseOptional (p : Str → Prop) [DecidablePred p] (column : Str) (raw : RawRow) :
    Except Str (Option {s : Str // p s}) :=
  if strip ((Dict.get raw column).getD []) = [] then .ok none else (parseSafe p column raw).map some

/-- Parsers that validate the cells of the columns above. -/
def cellParsers : Parsers where
  project raw := do
    return ⟨← parseSafe IsProjectKey "key".toList raw, ← parseOptional IsCommitteeKey "committee_key".toList raw⟩
  release raw := do
    return ⟨← parseSafe IsReleaseKey "key".toList raw, ← parseSafe IsProjectKey "project_key".toList raw,
      ← parseSafe IsVersionKey "version".toList raw⟩
  artifact raw := do
    return ⟨← parseSafe IsProjectKey "project_key".toList raw, ← parseSafe IsVersionKey "version".toList raw,
      ← parseSafe IsRelPath "artifact_path".toList raw, ← parseOptional IsRelPath "download_path_suffix".toList raw⟩

def rawRow (cells : List (String × String)) : RawRow :=
  cells.foldl (fun d cell => Dict.set d cell.1.toList cell.2.toList) ∅

/-- The lines of the files that were uploaded. -/
structure Upload where
  projects : Option (List RawRow)
  releases : Option (List RawRow)
  artifacts : Option (List RawRow)

end Catalogue

end TrustedReleases
