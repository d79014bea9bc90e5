import TrustedReleases.Attestable.Hashes

/-!
# Archives that need quarantine

The functions of `atr/detection.py` that say which archives of a new revision have to be extracted before it is
committed.  An archive is known when its content has an entry in the previous attestable data under a basename with the
same suffix; of the others one path is taken for every content and suffix.
-/

namespace TrustedReleases

open Lib

/-- `QUARANTINE_ARCHIVE_SUFFIXES` -/
def QUARANTINE_ARCHIVE_SUFFIXES : List Str :=
  [".tar.gz".toList, ".tgz".toList, ".zip".toList, ".tar.bz2".toList, ".tar.xz".toList, ".jar".toList, ".war".toList,
    ".apk".toList, ".nar".toList, ".whl".toList]

/-- `_QUARANTINE_NORMALISED_SUFFIXES` -/
def normalisedSuffix (suffix : Str) : Str := if suffix = ".tgz".toList then ".tar.gz".toList else suffix

/-- `str.lower`, as a comparison with ASCII text sees it: the Kelvin sign is the one letter outside of ASCII with a
lower case in it. -/
def lowerName (name : Str) : Str := name.map fun c => if c = Char.ofNat 0x212A then 'k' else c.toLower

/-- `_quarantine_archive_suffix` -/
def quarantineArchiveSuffix (filename : Str) : Option Str :=
  (QUARANTINE_ARCHIVE_SUFFIXES.find? fun suffix => decide (suffix <:+ lowerName filename)).map normalisedSuffix

/-- The suffix of the basename of a path. -/
def pathSuffix (pathKey : Str) : Option Str := quarantineArchiveSuffix (pathBasename pathKey)

variable {η : Type} [DecidableEq η]

/-- Whether a content has not been recorded with a suffix. -/
def needsQuarantine (previous : Option (Dict η HashEntry)) (hashRef : η) (suffix : Str) : Bool :=
  match previous with
  | none => true
  | some hashes =>
    match hashes.get hashRef with
    | none => true
    | some entry =>
      match entry.basenames with
      | none => true
      | some basenames => ! basenames.any fun b => decide (quarantineArchiveSuffix b = some suffix)

/-- `detect_archives_requiring_quarantine` -/
def detectArchivesRequiringQuarantine (pathToHash : Dict Str η) (previous : Option (Dict η HashEntry)) : List Str :=
  pathToHash.keys.filter fun pathKey =>
    match pathSuffix pathKey, pathToHash.get pathKey with
    | some suffix, some hashRef => needsQuarantine previous hashRef suffix
    | _, _ => false

/-- The content and the suffix of a path, the key of `seen`. -/
def archiveKey (pathToHash : Dict Str η) (pathKey : Str) : Option (η × Str) :=
  match pathToHash.get pathKey, pathSuffix pathKey with
  | some contentHash, some suffix => some (contentHash, suffix)
  | _, _ => none

/-- A path is seen: it is kept for its key if it is the first one or sorts before the one kept. -/
def seePath (pathToHash : Dict Str η) (seen : Dict (η × Str) Str) (relPath : Str) : Dict (η × Str) Str :=
  match archiveKey pathToHash relPath with
  | none => seen
  | some key =>
    match seen.get key with
    | none => seen.set key relPath
    | some kept => if relPath < kept then seen.set key relPath else seen

/-- `deduplicate_quarantine_archives` -/
def deduplicateQuarantineArchives (archivePaths : List Str) (pathToHash : Dict Str η) : List (Str × η) :=
  let seen := archivePaths.foldl (seePath pathToHash) ∅
  (sorted (seen.entries.map (·.2))).filterMap fun relPath => (pathToHash.get relPath).map (relPath, ·)

/-! ### What is detected -/

variable {pathToHash : Dict Str η} {previous : Option (Dict η HashEntry)} {p : Str} {h : η} {suffix : Str}

omit [DecidableEq η] in
theorem archiveKey_eq_some :
    archiveKey pathToHash p = some (h, suffix) ↔ pathToHash.get p = some h ∧ pathSuffix p = some suffix := by
  unfold archiveKey
  cases pathToHash.get p with
  | none => simp
  | some h' =>
    cases pathSuffix p with
    | none => simp
    | some suffix' => simp

theorem mem_detect : p ∈ detectArchivesRequiringQuarantine pathToHash previous ↔
    ∃ h suffix, archiveKey pathToHash p = some (h, suffix) ∧ needsQuarantine previous h suffix = true := by
  unfold detectArchivesRequiringQuarantine
  simp only [List.mem_filter, archiveKey_eq_some, Dict.mem_keys]
  cases hget : pathToHash.get p with
  | none => simp
  | some h =>
    cases hsuffix : pathSuffix p with
    | none => simp
    | some suffix => simp

/-- A content that does not need quarantine has been recorded under a basename with the suffix. -/
theorem recorded_of_not_needs (hneeds : needsQuarantine previous h suffix = false) :
    ∃ hashes, previous = some hashes ∧ ∃ b ∈ namesOf hashes h, quarantineArchiveSuffix b = some suffix := by
  unfold needsQuarantine at hneeds
  cases previous with
  | none => simp at hneeds
  | some hashes =>
    refine ⟨hashes, rfl, ?_⟩
    simp only at hneeds
    cases hget : hashes.get h with
    | none => simp [hget] at hneeds
    | some entry =>
      simp only [hget] at hneeds
      cases hnames : entry.basenames with
      | none => simp [hnames] at hneeds
      | some basenames =>
        simp only [hnames, Bool.not_eq_false', List.any_eq_true, decide_eq_true_eq] at hneeds
        obtain ⟨b, hb, hsuffix⟩ := hneeds
        exact ⟨b, by simp [namesOf, hget, HashEntry.names, hnames, hb], hsuffix⟩

/-! ### One path for every content and suffix -/

/-- The table of the seen paths: every path in it has its key and has been seen, and every key that has been seen is
in it. -/
structure Seen (pathToHash : Dict Str η) (done : List Str) (seen : Dict (η × Str) Str) : Prop where
  kept : ∀ key q, seen.get key = some q → q ∈ done ∧ archiveKey pathToHash q = some key
  covered : ∀ q ∈ done, ∀ key, archiveKey pathToHash q = some key → (seen.get key).isSome

theorem Seen.see {done : List Str} {seen : Dict (η × Str) Str} (hseen : Seen pathToHash done seen) (q : Str) :
    Seen pathToHash (done ++ [q]) (seePath pathToHash seen q) := by
  have hset : ∀ key, archiveKey pathToHash q = some key → Seen pathToHash (done ++ [q]) (seen.set key q) := by
    intro key hkey
    constructor
    · intro k r hget
      rw [Dict.get_set] at hget
      by_cases hk : k = key
      · rw [if_pos hk] at hget
        obtain rfl := Option.some.inj hget
        exact ⟨by simp, hk ▸ hkey⟩
      · rw [if_neg hk] at hget
        obtain ⟨hmem, hr⟩ := hseen.kept k r hget
        exact ⟨List.mem_append_left _ hmem, hr⟩
    · intro r hr k hk
      rw [Dict.get_set]
      by_cases he : k = key
      · simp [he]
      · rw [if_neg he]
        rcases List.mem_append.1 hr with hr | hr
        · exact hseen.covered r hr k hk
        · obtain rfl := List.mem_singleton.1 hr
          rw [hkey] at hk
          exact absurd (Option.some.inj hk).symm he
  have hsame : (∀ key, archiveKey pathToHash q = some key → (seen.get key).isSome) →
      Seen pathToHash (done ++ [q]) seen := by
    intro hq
    constructor
    · intro k r hget
      obtain ⟨hmem, hr⟩ := hseen.kept k r hget
      exact ⟨List.mem_append_left _ hmem, hr⟩
    · intro r hr k hk
      rcases List.mem_append.1 hr with hr | hr
      · exact hseen.covered r hr k hk
      · obtain rfl := List.mem_singleton.1 hr
        exact hq k hk
  unfold seePath
  cases hkey : archiveKey pathToHash q with
  | none => exact hsame fun key he => by rw [hkey] at he; cases he
  | some key =>
    cases hget : seen.get key with
    | none => simpa [hget] using hset key hkey
    | some kept =>
      simp only [hget]
      split
      · exact hset key hkey
      · apply hsame
        intro k hk
        rw [hkey] at hk
        obtain rfl := Option.some.inj hk
        simp [hget]

private theorem seen_foldl (archivePaths : List Str) :
    Seen pathToHash archivePaths (archivePaths.foldl (seePath pathToHash) ∅) := by
  induction archivePaths using List.reverseRecOn with
  | nil => constructor <;> simp
  | append_singleton done q ih =>
    rw [List.foldl_append]
    exact ih.see q

private theorem mem_deduplicate {archivePaths : List Str} {relPath : Str} {contentHash : η} :
    (relPath, contentHash) ∈ deduplicateQuarantineArchives archivePaths pathToHash ↔
      pathToHash.get relPath = some contentHash ∧
        ∃ key, (archivePaths.foldl (seePath pathToHash) ∅).get key = some relPath := by
  unfold deduplicateQuarantineArchives
  simp only [List.mem_filterMap, mem_sorted, List.mem_map, Option.map_eq_some_iff, Prod.mk.injEq]
  have hentry : ∀ q, (∃ e ∈ (archivePaths.foldl (seePath pathToHash) ∅).entries, e.2 = q) ↔
      ∃ key, (archivePaths.foldl (seePath pathToHash) ∅).get key = some q := by
    intro q
    constructor
    · intro he
      obtain ⟨⟨key, r⟩, hmem, rfl⟩ := he
      exact ⟨key, AList.mem_lookup_iff.2 hmem⟩
    · intro he
      obtain ⟨key, hget⟩ := he
      exact ⟨⟨key, q⟩, AList.mem_lookup_iff.1 hget, rfl⟩
  constructor
  · intro he
    obtain ⟨q, hq, c, hc, rfl, rfl⟩ := he
    exact ⟨hc, (hentry q).1 hq⟩
  · intro he
    exact ⟨relPath, (hentry relPath).2 he.2, contentHash, he.1, rfl, rfl⟩

/-- Every content and suffix among the paths has one entry, with one of the paths. -/
theorem deduplicate_existsUnique {archivePaths : List Str} (hp : p ∈ archivePaths)
    (hkey : archiveKey pathToHash p = some (h, suffix)) :
    ∃! e, e ∈ deduplicateQuarantineArchives archivePaths pathToHash ∧
      archiveKey pathToHash e.1 = some (h, suffix) := by
  have hseen : Seen pathToHash archivePaths (archivePaths.foldl (seePath pathToHash) ∅) := seen_foldl archivePaths
  obtain ⟨q, hq⟩ := Option.isSome_iff_exists.1 (hseen.covered p hp _ hkey)
  have hqkey := (hseen.kept _ q hq).2
  refine ⟨(q, h), ⟨mem_deduplicate.2 ⟨(archiveKey_eq_some.1 hqkey).1, _, hq⟩, hqkey⟩, ?_⟩
  intro e he
  obtain ⟨r, c⟩ := e
  obtain ⟨hmem, hrkey⟩ := he
  obtain ⟨hget, key, hr⟩ := mem_deduplicate.1 hmem
  have hk := (hseen.kept key r hr).2
  rw [hrkey] at hk
  obtain rfl := Option.some.inj hk
  rw [hq] at hr
  obtain rfl := Option.some.inj hr
  rw [(archiveKey_eq_some.1 hrkey).1] at hget
  rw [Option.some.inj hget]

/-- The entries are of the paths. -/
theorem mem_of_mem_deduplicate {archivePaths : List Str} {e : Str × η}
    (he : e ∈ deduplicateQuarantineArchives archivePaths pathToHash) :
    e.1 ∈ archivePaths ∧ pathToHash.get e.1 = some e.2 := by
  obtain ⟨r, c⟩ := e
  obtain ⟨hget, key, hr⟩ := mem_deduplicate.1 he
  exact ⟨((seen_foldl archivePaths).kept key r hr).1, hget⟩

end TrustedReleases
