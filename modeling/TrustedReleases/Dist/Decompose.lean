import TrustedReleases.Dist.Analysis

/-!
# Reading the paths of dist

The project part and the version of a path below a committee, by the structure of its directories and its file name and
by the rules that an administrator keeps.
-/

namespace TrustedReleases

open Lib

namespace Dist

/-! ### Versions in names -/

/-- The letters and digits after a separator, repeated: `(?:[...][A-Za-z0-9]+)*`. -/
def qualifiers (separators : String) : Regex :=
  .many (.seq (.one (Regex.isOneOf separators)) (.many1 (.one Regex.isAlnum)))

/-- `v?\d+(?:\.\d+)*` -/
def versionNumber : Regex := .cat [.opt (.lit "v"), .many1 .decimal, .many (.seq (.lit ".") (.many1 .decimal))]

/-- `_VERSION_RE` -/
def versionRegex : Regex := .cat [.start, versionNumber, qualifiers ".-_", .stop]

/-- `_BARE_DIGIT_RE` -/
def bareDigitRegex : Regex := .cat [.start, .decimal, .stop]

/-- `_COMBINED_RE`; the name is not greedy. -/
def combinedRegex : Regex :=
  .cat [.start, .group "name".toList (.many1Lazy (.one (· != '\n'))), .lit "-",
    .group "version".toList (.seq versionNumber (qualifiers ".-")), .stop]

/-- `_SEMVER_FILE_RE`, in any case; what may not come before and the number of a qualifier are digits of ASCII. -/
def semverFileRegex : Regex :=
  let qualifier := Regex.alts
    (["alpha", "beta", "rc", "cr", "m", "milestone", "preview", "pre", "incubating", "final", "ga"].map .litAnyCase)
  .seq (.lookbehind false Regex.isDigit)
    (.group "1".toList (.cat [.many1 .decimal, .many1 (.seq (.lit ".") (.many1 .decimal)),
      .many (.cat [.one (Regex.isOneOf ".-"), qualifier, .lookahead false .letterAnyCase,
        .opt (.seq (.opt (.one (Regex.isOneOf ".-"))) (.many1 .digit))])]))

/-- `_CALVER_FILE_RE` -/
def calverFileRegex : Regex :=
  .cat [.lookbehind false isDecimal,
    .group "1".toList (.alt
      (.cat [.times 4 .decimal, .lit "-", .times 2 .decimal, .lit "-", .times 2 .decimal])
      (.seq (.alt (.lit "19") (.lit "20")) (.times 6 .decimal))),
    .lookahead false .decimal]

/-- `_BARE_VERSION_FILE_RE`, in any case -/
def bareVersionFileRegex : Regex :=
  let classifier := Regex.alts (["src", "source", "source-release", "bin", "binary", "native", "dist", "distribution",
    "javadoc", "doc", "assembly", "project"].map fun word =>
      if word = "doc" then .seq (.litAnyCase word) (.opt (.litAnyCase "s")) else .litAnyCase word)
  .cat [.lookbehind true (Regex.isOneOf "-_"),
    .group "1".toList (.seq (.opt (.litAnyCase "r")) (.many1 .decimal)),
    .lookahead true (.alts [.cat [.one (Regex.isOneOf "-_"), classifier, .wordBoundary],
      .seq (.lit ".") .letterAnyCase, .stop])]

/-- `_AIRFLOW_CALVER_SOURCE_RE` -/
def airflowCalverSourceRegex : Regex :=
  let separator := Regex.one (Regex.isOneOf "-_")
  let day (name : String) := Regex.seq (.one (Regex.isOneOf "-."))
    (.group name.toList (.seq .decimal (.opt .decimal)))
  .cat [.start, .lit "apache", separator, .lit "airflow", separator, .opt (.seq (.lit "backport") separator),
    .lit "providers-", .group "year".toList (.times 4 .decimal), day "month", day "day", .lit "-source.tar.gz", .stop]

/-- A number of one or two digits, in two digits of ASCII. -/
def twoDigits (number : Str) : Str :=
  let n := decimalNumeral number
  [Nat.digitChar (n / 10), Nat.digitChar (n % 10)]

/-- `airflow_calver_date` -/
def airflowCalverDate (filename : Str) : Option Str :=
  (airflowCalverSourceRegex.matchStart filename).bind fun m => do
    let year ← m.group "year"
    let month ← m.group "month"
    let day ← m.group "day"
    return year ++ '-' :: twoDigits month ++ '-' :: twoDigits day

/-- `version_from_filename` -/
def versionFromFilename (filename : Str) : Option Str :=
  match semverFileRegex.search filename with
  | some semver => semver.group "1"
  | none =>
    match calverFileRegex.search filename with
    | some calver => calver.group "1"
    | none => (bareVersionFileRegex.search filename).bind (·.group "1")

/-- `_is_version_dir` -/
def isVersionDir (component : Str) : Bool :=
  (bareDigitRegex.matchStart component).isNone && (versionRegex.matchStart component).isSome

/-- `_normalise_version` -/
def normaliseVersion (version : Str) : Str := version.map fun c => if c = '_' then '.' else c

/-- `_refines` -/
def refines (candidate base : Str) : Bool :=
  decide (base <+: candidate) && (candidate.drop base.length).head?.all (Regex.isOneOf ".-_")

/-- `_split_combined` -/
def splitCombined (component : Str) : Option (Str × Str) :=
  (combinedRegex.matchStart component).bind fun m => do
    let name ← m.group "name"
    let version ← m.group "version"
    return (name, version)

/-! ### Rules -/

structure DistRules where
  projectRemaps : Dict (Str × Option Str) Str
  groupingBuckets : List Str
  committeeBuckets : List (Str × Str)
  excludedParts : List Str
  nameBuildSuffixes : List Str
  airflowProviderAreas : List Str

/-- `dist_rules.empty` -/
def emptyRules : DistRules := ⟨∅, [], [], [], [], []⟩

/-- Where a version was read from. -/
inductive Source where
  | dir
  | combined
  | filename
  | unknown
  deriving DecidableEq

structure Decomposed where
  subproject : Option Str
  version : Option Str
  source : Source
  writtenVersion : Option Str := none
  deriving DecidableEq

/-- `_choose_version` -/
def chooseVersion (dirVersion : Option Str) (dirSource : Source) (filename : Option Str) : Option Str × Source :=
  let dirVersion := dirVersion.map normaliseVersion
  match (filename.filter (· ≠ [])).bind versionFromFilename with
  | none => (dirVersion, dirSource)
  | some nameVersion =>
    if dirVersion.any (fun version => !refines nameVersion version) then (dirVersion, dirSource)
    else (some nameVersion, .filename)

/-- `_strip_self_prefix` -/
def stripSelfPrefix (committee : Str) (parts : List Str) : List Str :=
  match parts with
  | first :: rest => if first = committee ∨ first = "apache-".toList ++ committee then rest else parts
  | [] => []

/-- The version of the first directory below another one that has one. -/
def deeperVersion : List Str → Option (Str × Source)
  | [] => none
  | part :: parts =>
    if isVersionDir part then some (part, .dir)
    else
      match splitCombined part with
      | some (_, version) => some (version, .combined)
      | none => deeperVersion parts

/-- `_subproject_and_dir_version`, of a first directory and those below it. -/
def subprojectAndDirVersion (committee first : Str) (rest : List Str) : Option Str × Option Str × Source :=
  if isVersionDir first then (none, some first, .dir)
  else
    match splitCombined first with
    | some (name, version) =>
      let subproject := if name = committee then none else some name
      match rest.find? fun part => isVersionDir part && refines (normaliseVersion part) version with
      | some part => (subproject, some part, .dir)
      | none => (subproject, some version, .combined)
    | none =>
      match deeperVersion rest with
      | some (version, source) => (some first, some version, source)
      | none => (some first, none, .unknown)

namespace DistRules

variable (rules : DistRules)

/-- `project_remap` -/
def projectRemap (committee : Str) (subproject : Option Str) : Option Str :=
  rules.projectRemaps.get (committee, subproject)

/-- `airflow_provider_area` -/
def airflowProviderArea (committee : Str) (parts : List Str) : Option Str :=
  if committee ≠ "airflow".toList then none else parts.head?.filter (· ∈ rules.airflowProviderAreas)

/-- The words of a name, without the last ones that are suffixes; one word stays. -/
def dropSuffixes : List Str → List Str
  | [] => []
  | [token] => [token]
  | token :: next :: tokens =>
    if Unicode.lower token ∈ rules.nameBuildSuffixes then dropSuffixes (next :: tokens) else token :: next :: tokens

/-- `_strip_name_suffixes` -/
def stripNameSuffixes (name : Str) : Str :=
  ['-'].intercalate (rules.dropSuffixes (name.splitOn '-').reverse).reverse

/-- The name before the first occurrence of a version, without the separators at its end. -/
def nameBefore (filename version : Str) : Str :=
  let before := match cut version filename with
    | some (before, _) => before
    | none => filename.dropLast
  (before.reverse.dropWhile (Regex.isOneOf "-._")).reverse

/-- `_filename_only` -/
def filenameOnly (committee : Str) (filename : Option Str) : Option Decomposed :=
  match filename.filter (· ≠ []) with
  | none => none
  | some filename =>
    (versionFromFilename filename).map fun version =>
      let name := rules.stripNameSuffixes (nameBefore filename version)
      if name = [] ∨ removePrefix "apache-".toList (Unicode.lower name) = committee then ⟨none, some version, .filename, none⟩
      else ⟨some name, some version, .filename, none⟩

/-- `_is_grouping_bucket`, of a first directory -/
def isGroupingBucket (committee first : Str) (filename : Option Str) : Bool :=
  filename.isSome && decide (Unicode.lower first ∈ rules.groupingBuckets ∨ (committee, Unicode.lower first) ∈ rules.committeeBuckets) &&
    (rules.filenameOnly committee filename).isSome

/-- `_decompose` -/
def decomposeRaw (committee : Str) (parts : List Str) (filename : Option Str) : Option Decomposed :=
  if parts.any fun part => decide (Unicode.lower part ∈ rules.excludedParts) then none
  else
    match stripSelfPrefix committee parts with
    | [] => rules.filenameOnly committee filename
    | first :: rest =>
      if rules.isGroupingBucket committee first filename then rules.filenameOnly committee filename
      else
        let (subproject, dirVersion, dirSource) := subprojectAndDirVersion committee first rest
        let nested := rest.find? fun part => (rules.projectRemap committee (some part)).isSome
        let (version, source) := chooseVersion dirVersion dirSource filename
        some ⟨nested.or subproject, version, source, none⟩

/-- `decompose`: the version in lower case, and as it is written. -/
def decompose (committee : Str) (parts : List Str) (filename : Option Str) : Option Decomposed :=
  (rules.decomposeRaw committee parts filename).map fun decomposed =>
    match decomposed.version with
    | none => decomposed
    | some version => { decomposed with version := some (Unicode.lower version), writtenVersion := some version }

end DistRules

/-- `module_component` -/
def moduleComponent (committee : Str) (subproject : Option Str) : Option Str :=
  subproject.bind fun subproject =>
    let bare := removePrefix "org.apache.".toList subproject
    if committee ++ ['.'] <+: bare then
      let component := (bare.drop (committee.length + 1)).takeWhile (· ≠ '.')
      if component = [] then none else some component
    else none

/-- `candidate_keys` -/
def candidateKeys (committee : Str) (subproject : Option Str) : List Str :=
  match subproject with
  | none | some [] => [committee]
  | some subproject =>
    let bare := (removePrefix "apache_".toList (removePrefix "apache-".toList subproject)).map fun c =>
      if c = '_' then '-' else c
    ([bare, subproject].dedup).flatMap fun name => [name, committee ++ '-' :: name]

end Dist

end TrustedReleases
