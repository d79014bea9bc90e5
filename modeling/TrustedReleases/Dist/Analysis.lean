import TrustedReleases.Lib.Decimal
import TrustedReleases.Lib.Text

/-!
# What a file name says

The kinds of files of a release, read from their names and paths alone: artifacts and the metadata beside them, and the
markers of sources, binaries and documentation.
-/

namespace TrustedReleases

open Lib

namespace Dist

/-- `ARTIFACT_SUFFIXES` -/
def ARTIFACT_SUFFIXES : List String :=
  ["bin", "crate", "deb", "dmg", "exe", "far", "gem", "jar.pack.gz", "jar", "msi", "nar", "nbm", "ntb", "snupkg",
    "nupkg", "pkg", "pom", "rar", "rpm", "sh", "slingosgifeature", "taco", "tar.bz2", "tar.gz", "tar.xz", "tar", "tgz",
    "vsix", "war", "whl", "zip"]

/-- `METADATA_SUFFIXES` -/
def METADATA_SUFFIXES : List String :=
  ["asc.asc", "asc.md5", "asc.sha1", "asc.sha256", "asc.sha512", "cdx.json", "cdx.xml", "sha512.asc", "sha512.md5",
    "sha512.sha1", "sha512.sha512", "asc", "MD5", "md5", "mds", "prov", "sh1", "sha1", "sha256", "SHA256", "SHA512",
    "sha512sum", "sha512", "sha", "sig"]

def CYCLONEDX_JSON_FILENAMES : List String := ["sbom.json", "bom.json"]

def CYCLONEDX_JSON_SUFFIXES : List String :=
  [".cdx.json", "-cyclonedx.json", ".cyclonedx.json", "-sbom.json", "-bom.json"]

def CYCLONEDX_XML_FILENAMES : List String := ["sbom.xml", "bom.xml"]

def CYCLONEDX_XML_SUFFIXES : List String := [".cdx.xml", "-cyclonedx.xml", ".cyclonedx.xml", "-sbom.xml", "-bom.xml"]

def DISALLOWED_FILENAMES : List String :=
  ["desktop.ini", "id_dsa", "id_ecdsa", "id_ed25519", "id_rsa", "KEYS", "Thumbs.db"]

def DISALLOWED_SUFFIXES : List String := [".key"]

/-- `extension_pattern` -/
def extensionPattern : Regex :=
  let suffixes (names : List String) : Regex := .alts (names.map fun name => .seq (.lit ".") (.lit name))
  .seq
    (.alt
      (.seq (.group "metadata_artifact".toList (suffixes ARTIFACT_SUFFIXES))
        (.group "metadata".toList (suffixes METADATA_SUFFIXES)))
      (.group "artifact".toList (suffixes ARTIFACT_SUFFIXES)))
    .stop

def isArtifact (name : Str) : Bool := (extensionPattern.search name).any fun m => (m.group "artifact").isSome

/-- The last part of a path. -/
def pathName (path : Str) : Str := (path.reverse.takeWhile (· ≠ '/')).reverse

def endsWithAny (suffixes : List String) (s : Str) : Bool := suffixes.any fun suffix => decide (suffix.toList <:+ s)

def isCyclonedxJson (name : Str) : Bool :=
  endsWithAny CYCLONEDX_JSON_SUFFIXES name || CYCLONEDX_JSON_FILENAMES.any fun f => pathName name == f.toList

def isCyclonedxXml (name : Str) : Bool :=
  endsWithAny CYCLONEDX_XML_SUFFIXES name || CYCLONEDX_XML_FILENAMES.any fun f => pathName name == f.toList

def isCyclonedx (name : Str) : Bool := isCyclonedxJson name || isCyclonedxXml name

/-- A signature or a checksum of an SBOM. -/
def isSbomMetadata (name : Str) : Bool :=
  METADATA_SUFFIXES.any fun suffix =>
    let base := removeSuffix ('.' :: suffix.toList) name
    base != name && isCyclonedx base

/-! ### Classification -/

inductive FileType where
  | binary
  | disallowed
  | docs
  | metadata
  | source
  | sbom
  deriving DecidableEq

/-- A word between separators, or at an end of the text. -/
def markerRegex (words : List String) : Regex :=
  let separator := Regex.isOneOf "-_."
  .cat [.alt .start (.one separator), .alts (words.map .litAnyCase), .lookahead true (.alt (.one separator) .stop)]

def binaryRegex : Regex := markerRegex ["binary-assembly", "binary", "bin"]

def docTokenRegex : Regex := markerRegex ["doc", "docs", "javadoc", "manual", "site"]

def sourceReleaseRegex : Regex := markerRegex ["source-release"]

def sourceRegex : Regex := markerRegex ["project", "source", "sources", "src"]

/-- A version after a separator. -/
def versionStartRegex : Regex := .cat [.one (Regex.isOneOf "-_."), .opt (.lit "v"), .decimal]

/-- The words of a name, `_TOKEN_SPLIT_RE.split(name)` without the empty ones. -/
def splitTokens (name : Str) : List Str :=
  (name.splitBy fun a b => Regex.isOneOf "-_." a == Regex.isOneOf "-_." b).filter
    fun token => !token.any (Regex.isOneOf "-_.")

/-- `_get_stem_tokens` -/
def stemTokens (name : Str) : List Str := (splitTokens name).map Unicode.lower

/-- The directories above a path. -/
def parentParts (path : Str) : List Str := ((path.splitOn '/').filter fun part => part ≠ [] && part ≠ ['.']).dropLast

/-- `_get_path_tokens` -/
def pathTokens (path : Str) : List Str :=
  (parentParts path).flatMap fun part => Unicode.lower part :: splitTokens (Unicode.lower part)

def anyOf (words : List String) (tokens : List Str) : Bool := words.any fun word => tokens.contains word.toList

def BIN_DISTRIBUTION_TOKENS : List String :=
  ["classic", "cli", "debug", "lib", "plugin", "plugins", "portable", "sdk", "vagrant", "war"]

def BIN_PATH_PARTS : List String := ["bin", "binaries", "binary", "distribution"]

def BIN_PLATFORM_TOKENS : List String :=
  ["darwin", "mac", "macos", "osx", "linux", "win", "win32", "win64", "windows", "aarch64", "arm64", "arm64bit", "amd64",
    "x64", "x86-64", "x86_64", "x86", "64bit", "apk"]

def DOC_EXTRA_TOKENS : List String := ["apidocs", "markdown", "wikipages"]

def DOC_PATH_PARTS : List String := ["doc", "docs", "javadoc", "manual", "site", "wikipages"]

def SRC_PATH_PARTS : List String := ["source", "src"]

def DEFAULT_BINARY_EXTENSIONS : List String := [".jar", ".whl"]

def PACKAGE_BINARY_EXTENSIONS : List String := [".rpm", ".deb", ".msi", ".dmg", ".exe", ".apk"]

/-- `_bin_distribution_token`: only the part of the name after the version counts. -/
def binDistributionToken (name : Str) (explicitSource : Bool) : Bool :=
  if explicitSource then false
  else
    let tail := match versionStartRegex.search name with
      | some version => version.stop.rest
      | none => name
    anyOf BIN_DISTRIBUTION_TOKENS (stemTokens tail)

def found (r : Regex) (name : Str) : Bool := (r.search name).isSome

/-- `archive_marker_counts`: the markers of a source, a binary and documentation. -/
def archiveMarkerCounts (stem path : Str) : Nat × Nat × Nat :=
  let name := pathName stem
  let tokens := stemTokens name
  let ptokens := pathTokens path
  let release := found sourceReleaseRegex name
  let source := found sourceRegex name && !release
  let count (markers : List Bool) : Nat := markers.count true
  (count [release, source, anyOf SRC_PATH_PARTS ptokens],
    count [found binaryRegex name, binDistributionToken name (release || source), anyOf BIN_PATH_PARTS ptokens,
      anyOf BIN_PLATFORM_TOKENS tokens, anyOf BIN_PLATFORM_TOKENS ptokens],
    count [anyOf DOC_EXTRA_TOKENS tokens, found docTokenRegex name, anyOf DOC_PATH_PARTS ptokens])

/-- `classify_from_counts` -/
def classifyFromCounts (path : Str) (sourceCount binaryCount docsCount : Nat) : FileType :=
  if endsWithAny PACKAGE_BINARY_EXTENSIONS path then .binary
  else if sourceCount = 0 ∧ binaryCount = 0 then
    if 0 < docsCount then .docs
    else if endsWithAny DEFAULT_BINARY_EXTENSIONS path then .binary
    else .source
  else if binaryCount ≤ sourceCount then .source
  else if binaryCount ≤ docsCount then .docs
  else .binary

/-- `PurePath.suffix`, where the periods that a name starts with do not count. -/
def pathSuffix (name : Str) : Str :=
  if '.' ∈ name.dropWhile (· == '.') then '.' :: (name.reverse.takeWhile (· ≠ '.')).reverse else []

/-- `classify_path` -/
def classifyPath (path : Str) : FileType :=
  let name := pathName path
  if DISALLOWED_FILENAMES.any (fun f => name == f.toList) || DISALLOWED_SUFFIXES.any (fun s => pathSuffix name == s.toList)
  then .disallowed
  else if isCyclonedx name then .sbom
  else if isSbomMetadata name then .metadata
  else
    match extensionPattern.search path with
    | none => .binary
    | some m =>
      if (m.group "metadata").any (· ≠ []) then .metadata
      else if (m.group "artifact").any (· ≠ []) then
        let counts := archiveMarkerCounts (path.take m.start) path
        classifyFromCounts path counts.1 counts.2.1 counts.2.2
      else .binary

/-! ### Companions -/

/-- `SBOM_SUFFIXES` -/
def SBOM_SUFFIXES : List String := CYCLONEDX_JSON_SUFFIXES ++ CYCLONEDX_XML_SUFFIXES

/-- `artifact_stem` -/
def artifactStem (name : Str) : Option Str :=
  ((extensionPattern.search name).filter fun m => (m.group "artifact").isSome).map fun m => name.take m.start

/-- The text without its first match. -/
def removeFirst (r : Regex) (s : Str) : Str :=
  match r.search s with
  | some m => s.take m.start ++ m.stop.rest
  | none => s

/-- A language, with its country or without. -/
def languageRegex (word : String) : Regex :=
  let letter (first last : Char) := Regex.one fun c => first ≤ c && c ≤ last
  .cat [.lit word, letter 'a' 'z', letter 'a' 'z', .opt (.cat [.lit "-", letter 'A' 'Z', letter 'A' 'Z'])]

/-- `VARIANT_PATTERNS` -/
def VARIANT_PATTERNS : List Regex :=
  [.lit "binary-assembly", .lit "binary", .lit "bin", .lit "dist", languageRegex "install_", .lit "javadoc",
    languageRegex "langpack_", .lit "lib-debug", .lit "lib", .lit "pkg", .lit "source-release", .lit "sources",
    .lit "source", .lit "src"]

/-- `_SOURCE_CLASSIFIER` -/
def sourceClassifierRegex : Regex :=
  let separator := Regex.one (Regex.isOneOf "_-")
  .cat [separator, .alts [.lit "source-release", .lit "sources", .lit "source", .lit "src"],
    .lookahead true (.alt (.seq separator .digit) .stop)]

/-- `_classifier_removed` -/
def classifierRemoved (name : Str) : Str :=
  let declassified :=
    removeFirst (.cat [.one (Regex.isOneOf "_-"), .alts VARIANT_PATTERNS, .lookahead true extensionPattern]) name
  if declassified ≠ name then declassified
  else
    match artifactStem name with
    | none => declassified
    | some stem => removeFirst sourceClassifierRegex stem ++ name.drop stem.length

/-- `sbom_candidates`, of a name without directories and for all suffixes -/
def sbomCandidates (name : Str) : List Str :=
  let withSuffixes (base : Str) : List Str := SBOM_SUFFIXES.map fun suffix => base ++ suffix.toList
  let stems :=
    match artifactStem name with
    | none => []
    | some stem =>
      let declassified := classifierRemoved name
      stem :: (if declassified ≠ name then (artifactStem declassified).toList else [])
  withSuffixes name ++ stems.flatMap withSuffixes ++
    if stems.head?.any (found sourceClassifierRegex) then
      (CYCLONEDX_JSON_FILENAMES ++ CYCLONEDX_XML_FILENAMES).map String.toList
    else []

end Dist

end TrustedReleases
