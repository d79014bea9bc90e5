import TrustedReleases.Lib.Dict
import TrustedReleases.Lib.Query
import TrustedReleases.Lib.Str

/-!
# File state rows

The attestable data that is written for every revision (`atr/attestable.py`) and the rows of `ReleaseFileState`, a log
of the changes against the attestable data of the revision that a new one is based on.  `compute_file_state_rows`
writes the rows of a revision and `release_file_hashes_at` reads the files of a revision back from the rows of it and
all revisions before it.  Hashes (`η`) and provenance entries (`ρ`) are compared for equality only.
-/

namespace TrustedReleases

open Lib

variable {η ρ : Type}

/-- What the attestable data records for a path. -/
structure PathEntryV2 (η ρ : Type) where
  contentHash : η
  classification : Str
  provenance : Option ρ
  deriving DecidableEq

/-- Attestable data: version 1 has the hashes only. -/
inductive Attestable (η ρ : Type) where
  | v1 (paths : Dict Str η)
  | v2 (paths : Dict Str (PathEntryV2 η ρ))

namespace Attestable

/-- `path_hashes`. -/
def pathHashes : Attestable η ρ → Dict Str η
  | v1 paths => paths
  | v2 paths => paths.mapVals fun _ e => e.contentHash

/-- The classifications that `compute_file_state_rows` compares with. -/
def pathClassifications : Attestable η ρ → Dict Str Str
  | v1 _ => ∅
  | v2 paths => paths.mapVals fun _ e => e.classification

/-- `path_provenance`. -/
def pathProvenance (a : Attestable η ρ) (path : Str) : Option ρ :=
  match a with
  | v1 _ => none
  | v2 paths => (paths.get path).bind (·.provenance)

/-- `isinstance(previous, models.AttestableV2)`. -/
def isV2 : Attestable η ρ → Bool
  | v1 _ => false
  | v2 _ => true

end Attestable

/-- `can_write_file_state_rows`. -/
def canWriteFileStateRows (previous : Option (Attestable η ρ)) (parentName : Option Nat) : Bool :=
  (previous.isNone && parentName.isNone) || previous.any (·.isV2)

/-- `effective_path_provenance`: what the caller gives, or else what the previous revision recorded for the same path
with the same content. -/
def effectivePathProvenance [DecidableEq η] (given : Dict Str ρ) (pathToHash : Dict Str η)
    (previous : Option (Attestable η ρ)) : Dict Str ρ :=
  pathToHash.filterMap fun path contentHash =>
    match given.get path with
    | some value => some value
    | none =>
      match previous with
      | some (.v2 paths) =>
        match paths.get path with
        | some prevEntry => if prevEntry.contentHash ≠ contentHash then none else prevEntry.provenance
        | none => none
      | _ => none

/-- `_generate_files_data`: the attestable data of a revision.  `compute_classifications` classifies every path of
`path_to_hash`, so the classifications are a function on paths. -/
def generateFilesData (pathToHash : Dict Str η) (classifications : Str → Str) (provenance : Dict Str ρ) :
    Attestable η ρ :=
  .v2 (pathToHash.mapVals fun path contentHash =>
    { contentHash := contentHash, classification := classifications path, provenance := provenance.get path })

/-- A row of `ReleaseFileState`, with the check constraint of its table. -/
structure ReleaseFileState (η ρ : Type) where
  path : Str
  sinceRevisionSeq : Nat
  present : Bool
  contentHash : Option η
  classification : Option Str
  provenance : Option ρ
  valid : (present = true ∧ contentHash.isSome ∧ classification.isSome) ∨
    (present = false ∧ contentHash = none ∧ classification = none ∧ provenance = none)

namespace ReleaseFileState

/-- The hash that a row gives its path. -/
def hash (row : ReleaseFileState η ρ) : Option η := if row.present then row.contentHash else none

/-- The row of a path that is there. -/
def presentRow (path : Str) (seq : Nat) (contentHash : η) (classification : Str) (provenance : Option ρ) :
    ReleaseFileState η ρ where
  path := path
  sinceRevisionSeq := seq
  present := true
  contentHash := contentHash
  classification := classification
  provenance := provenance
  valid := .inl ⟨rfl, rfl, rfl⟩

/-- The row of a path that is gone. -/
def absentRow (path : Str) (seq : Nat) : ReleaseFileState η ρ where
  path := path
  sinceRevisionSeq := seq
  present := false
  contentHash := none
  classification := none
  provenance := none
  valid := .inr ⟨rfl, rfl, rfl, rfl⟩

end ReleaseFileState

section Rows

variable [DecidableEq η] [DecidableEq ρ]

/-- `compute_file_state_rows`. -/
def computeFileStateRows (seq : Nat) (pathToHash : Dict Str η) (classifications : Str → Str)
    (previous : Option (Attestable η ρ)) (effective : Dict Str ρ) : List (ReleaseFileState η ρ) :=
  let prevHashes := (previous.map (·.pathHashes)).getD ∅
  let prevClassifications := (previous.map (·.pathClassifications)).getD ∅
  let prevProvenance := fun path => previous.bind (·.pathProvenance path)
  let changed := (sorted pathToHash.keys).filterMap fun path =>
    (pathToHash.get path).bind fun contentHash =>
      -- if all prior metadata properties are the same, we skip recording an event
      if prevHashes.get path = some contentHash ∧ prevClassifications.get path = some (classifications path) ∧
          prevProvenance path = effective.get path then
        none
      else
        some (.presentRow path seq contentHash (classifications path) (effective.get path))
  let gone := (sorted prevHashes.keys).filter fun path => decide (path ∉ pathToHash.keys)
  changed ++ gone.map fun path => .absentRow path seq

end Rows

/-- `release_file_hashes_at`, over the rows of the release. -/
def releaseFileHashesAt (rows : List (ReleaseFileState η ρ)) (atRevisionSeq : Nat) : Dict Str η :=
  let selected := rows.filter fun row => decide (row.sinceRevisionSeq ≤ atRevisionSeq)
  let ordered := orderBy (fun row => toLex (row.path, OrderDual.toDual row.sinceRevisionSeq)) selected
  -- the set of seen paths skips all rows of a path but the first
  (firstPer (·.path) [] ordered).foldl (fun hashes row =>
    match row.hash with
    | some contentHash => hashes.set row.path contentHash
    | none => hashes) ∅

/-! ### What the queries read and the rows record -/

/-- No two rows have the same primary key. -/
def UniqueRows (rows : List (ReleaseFileState η ρ)) : Prop :=
  ∀ a ∈ rows, ∀ b ∈ rows, a.path = b.path → a.sinceRevisionSeq = b.sinceRevisionSeq → a = b

/-- The last row of a path up to a revision. -/
structure IsLastRow (rows : List (ReleaseFileState η ρ)) (seq : Nat) (row : ReleaseFileState η ρ) : Prop where
  mem : row ∈ rows
  since_le : row.sinceRevisionSeq ≤ seq
  last : ∀ r ∈ rows, r.path = row.path → r.sinceRevisionSeq ≤ seq → r.sinceRevisionSeq ≤ row.sinceRevisionSeq

private theorem UniqueRows.lastRow_unique {rows : List (ReleaseFileState η ρ)} (hu : UniqueRows rows) {seq : Nat}
    {a b : ReleaseFileState η ρ} (ha : IsLastRow rows seq a) (hb : IsLastRow rows seq b) (h : a.path = b.path) :
    a = b :=
  hu a ha.mem b hb.mem h (le_antisymm (hb.last a ha.mem h ha.since_le) (ha.last b hb.mem h.symm hb.since_le))

private theorem get_foldl_rows (l : List (ReleaseFileState η ρ)) (d : Dict Str η) (path : Str) (h : η)
    (hnd : (l.map (·.path)).Nodup) (hd : ∀ row ∈ l, d.get row.path = none) :
    (l.foldl (fun hashes row =>
      match row.hash with
      | some contentHash => hashes.set row.path contentHash
      | none => hashes) d).get path = some h ↔
      d.get path = some h ∨ ∃ row ∈ l, row.path = path ∧ row.hash = some h := by
  induction l generalizing d with
  | nil => simp
  | cons row l ih =>
    rw [List.map_cons, List.nodup_cons] at hnd
    have hfresh : ∀ r ∈ l, r.path ≠ row.path := fun r hr he => hnd.1 (List.mem_map.2 ⟨r, hr, he⟩)
    rw [List.foldl_cons, ih _ hnd.2]
    · rcases hrow : row.hash with _ | c
      · simp [hrow]
      · by_cases hp : path = row.path
        · subst hp
          have hnone : d.get row.path = none := hd row List.mem_cons_self
          have hno : ¬ ∃ r ∈ l, r.path = row.path ∧ r.hash = some h := fun ⟨r, hr, he, _⟩ => hfresh r hr he
          simp [hrow, hnone, hno]
        · simp [hrow, hp, Ne.symm hp]
    · intro r hr
      rcases row.hash with _ | c
      · exact hd r (List.mem_cons_of_mem _ hr)
      · rw [Dict.get_set, if_neg (hfresh r hr)]
        exact hd r (List.mem_cons_of_mem _ hr)

/-- Reading a path back gives the hash of its last row. -/
theorem get_releaseFileHashesAt {rows : List (ReleaseFileState η ρ)} (hu : UniqueRows rows) {seq : Nat} {path : Str}
    {h : η} :
    (releaseFileHashesAt rows seq).get path = some h ↔
      ∃ row, IsLastRow rows seq row ∧ row.path = path ∧ row.hash = some h := by
  unfold releaseFileHashesAt
  rw [get_foldl_rows _ _ _ _ (firstPer_nodup _ _ _) fun _ _ => Dict.get_empty _]
  simp only [Dict.get_empty, reduceCtorEq, false_or]
  refine exists_congr fun row => ?_
  rw [mem_firstPer_latest (t := fun r => r.sinceRevisionSeq)]
  · simp only [mem_orderBy, List.mem_filter, decide_eq_true_eq]
    constructor
    · rintro ⟨⟨⟨hm, hs⟩, hlast⟩, hp, hh⟩
      exact ⟨⟨hm, hs, fun r hr hrp hrs => hlast r ⟨hr, hrs⟩ hrp⟩, hp, hh⟩
    · rintro ⟨hrow, hp, hh⟩
      exact ⟨⟨⟨hrow.mem, hrow.since_le⟩, fun r hr hrp => hrow.last r hr.1 hrp hr.2⟩, hp, hh⟩
  · refine (orderBy_pairwise _ _).imp fun {a b} hab he => ?_
    rw [Prod.Lex.toLex_le_toLex] at hab
    rcases hab with hlt | ⟨-, hle⟩
    · exact absurd he (ne_of_lt hlt)
    · exact hle
  · intro a ha b hb he hs
    simp only [mem_orderBy, List.mem_filter] at ha hb
    exact hu a ha.1 b hb.1 he hs

/-- Rows of later revisions are not read. -/
theorem releaseFileHashesAt_append {rows later : List (ReleaseFileState η ρ)} {seq : Nat}
    (h : ∀ row ∈ later, seq < row.sinceRevisionSeq) :
    releaseFileHashesAt (rows ++ later) seq = releaseFileHashesAt rows seq := by
  have hnone : later.filter (fun row => decide (row.sinceRevisionSeq ≤ seq)) = [] := by
    rw [List.filter_eq_nil_iff]
    intro row hrow
    have := h row hrow
    simpa using this
  unfold releaseFileHashesAt
  rw [List.filter_append, hnone, List.append_nil]

/-- Reading back after a revision has written its rows: the paths with a new row have its hash, and all others what
they had after the revision before. -/
theorem get_releaseFileHashesAt_append {rows new : List (ReleaseFileState η ρ)} {before seq : Nat}
    (hu : UniqueRows (rows ++ new)) (hrows : ∀ row ∈ rows, row.sinceRevisionSeq ≤ before) (hlt : before < seq)
    (hnew : ∀ row ∈ new, row.sinceRevisionSeq = seq) (path : Str) :
    (∀ row ∈ new, row.path = path → (releaseFileHashesAt (rows ++ new) seq).get path = row.hash) ∧
      ((∀ row ∈ new, row.path ≠ path) →
        (releaseFileHashesAt (rows ++ new) seq).get path = (releaseFileHashesAt rows before).get path) := by
  have hle : ∀ row ∈ rows ++ new, row.sinceRevisionSeq ≤ seq := by
    intro row hrow
    rcases List.mem_append.1 hrow with h | h
    · exact le_trans (hrows row h) (le_of_lt hlt)
    · exact le_of_eq (hnew row h)
  constructor
  · intro row hrow hp
    have hlast : IsLastRow (rows ++ new) seq row := by
      refine ⟨List.mem_append_right _ hrow, le_of_eq (hnew row hrow), fun r hr _ _ => ?_⟩
      rw [hnew row hrow]
      exact hle r hr
    ext h
    rw [get_releaseFileHashesAt hu]
    constructor
    · rintro ⟨r, hr, hrp, hh⟩
      rwa [hu.lastRow_unique hr hlast (hrp.trans hp.symm)] at hh
    · exact fun hh => ⟨row, hlast, hp, hh⟩
  · intro hno
    have hu' : UniqueRows rows := fun a ha b hb =>
      hu a (List.mem_append_left _ ha) b (List.mem_append_left _ hb)
    ext h
    rw [get_releaseFileHashesAt hu, get_releaseFileHashesAt hu']
    refine exists_congr fun row => and_congr_left fun ⟨hp, _⟩ => ⟨fun hr => ?_, fun hr => ?_⟩
    · have hm : row ∈ rows := (List.mem_append.1 hr.mem).resolve_right fun hm => hno row hm hp
      exact ⟨hm, hrows row hm, fun r hr' hrp _ =>
        hr.last r (List.mem_append_left _ hr') hrp (hle r (List.mem_append_left _ hr'))⟩
    · refine ⟨List.mem_append_left _ hr.mem, hle row (List.mem_append_left _ hr.mem), fun r hr' hrp _ => ?_⟩
      rcases List.mem_append.1 hr' with hm | hm
      · exact hr.last r hm hrp (hrows r hm)
      · exact absurd (hrp.trans hp) (hno r hm)

section Rows

variable [DecidableEq η] [DecidableEq ρ]

/-- The entry that the delta base has for a path. -/
def baseEntry (previous : Option (Attestable η ρ)) (path : Str) : Option (PathEntryV2 η ρ) :=
  match previous with
  | some (.v2 paths) => paths.get path
  | _ => none

/-- The entry that a new revision has for a path. -/
def newEntry (pathToHash : Dict Str η) (classifications : Str → Str) (effective : Dict Str ρ) (path : Str) :
    Option (PathEntryV2 η ρ) :=
  (pathToHash.get path).map fun h => ⟨h, classifications path, effective.get path⟩

variable {seq : Nat} {pathToHash : Dict Str η} {classifications : Str → Str} {previous : Option (Attestable η ρ)}
  {effective : Dict Str ρ} {row : ReleaseFileState η ρ}

/-- The rows written on a first revision or against version 2 data. -/
private theorem mem_computeFileStateRows (hbase : previous = none ∨ ∃ paths, previous = some (.v2 paths)) :
    row ∈ computeFileStateRows seq pathToHash classifications previous effective ↔
      (∃ path h, pathToHash.get path = some h ∧
        newEntry pathToHash classifications effective path ≠ baseEntry previous path ∧
        row = .presentRow path seq h (classifications path) (effective.get path)) ∨
      ∃ path, pathToHash.get path = none ∧ baseEntry previous path ≠ none ∧ row = .absentRow path seq := by
  unfold computeFileStateRows
  rw [List.mem_append, List.mem_filterMap, List.mem_map]
  refine or_congr ?_ ?_
  · constructor
    · rintro ⟨path, -, hrow⟩
      obtain ⟨h, hh, hrow⟩ := Option.bind_eq_some_iff.1 hrow
      split at hrow
      · cases hrow
      · rename_i hne
        refine ⟨path, h, hh, fun he => hne ?_, (Option.some.inj hrow).symm⟩
        rcases hbase with rfl | ⟨paths, rfl⟩
        · simp [newEntry, hh, baseEntry] at he
        · have he' : paths.get path = some ⟨h, classifications path, effective.get path⟩ := by
            simpa [newEntry, hh, baseEntry] using he.symm
          simp [Attestable.pathHashes, Attestable.pathClassifications, Attestable.pathProvenance, he']
    · rintro ⟨path, h, hh, hne, rfl⟩
      refine ⟨path, by simp [Dict.mem_keys, hh], ?_⟩
      rw [hh, Option.bind_some, if_neg]
      rintro ⟨h1, h2, h3⟩
      refine hne ?_
      rcases hbase with rfl | ⟨paths, rfl⟩
      · simp at h1
      · rcases hp : paths.get path with _ | e
        · simp [Attestable.pathHashes, hp] at h1
        · obtain ⟨c, k, q⟩ := e
          simp only [Option.map_some, Option.getD_some, Attestable.pathHashes, Attestable.pathClassifications,
            Attestable.pathProvenance, Dict.get_mapVals, hp, Option.some.injEq, Option.bind_some] at h1 h2 h3
          simp [newEntry, hh, baseEntry, hp, h1, h2, h3]
  · refine exists_congr fun path => ?_
    simp only [List.mem_filter, mem_sorted, decide_eq_true_eq, Dict.mem_keys, eq_comm (b := row),
      and_assoc]
    rcases hbase with rfl | ⟨paths, rfl⟩
    · simp [baseEntry]
    · simp only [Option.map_some, Option.getD_some, Attestable.pathHashes, Dict.get_mapVals, Option.isSome_map,
        baseEntry, Option.isSome_iff_ne_none]
      tauto

/-- Every path whose entry differs from the base's has a row, and no other. -/
theorem exists_row_iff (seq : Nat) (hbase : previous = none ∨ ∃ paths, previous = some (.v2 paths)) {path : Str} :
    (∃ row ∈ computeFileStateRows seq pathToHash classifications previous effective, row.path = path) ↔
      newEntry pathToHash classifications effective path ≠ baseEntry previous path := by
  constructor
  · rintro ⟨row, hrow, rfl⟩
    rcases (mem_computeFileStateRows hbase).1 hrow with ⟨path, h, -, hne, rfl⟩ | ⟨path, hnone, hne, rfl⟩
    · exact hne
    · intro he
      refine hne (he.symm.trans ?_)
      simp only [newEntry, ReleaseFileState.absentRow, hnone, Option.map_none]
  · intro hne
    rcases hh : pathToHash.get path with _ | h
    · refine ⟨_, (mem_computeFileStateRows hbase).2 (.inr ⟨path, hh, fun he => hne ?_, rfl⟩), rfl⟩
      simp [newEntry, hh, he]
    · exact ⟨_, (mem_computeFileStateRows hbase).2 (.inl ⟨path, h, hh, hne, rfl⟩), rfl⟩

/-- A row has the sequence number of its revision and the hash that the revision has at its path. -/
theorem row_eq (hbase : previous = none ∨ ∃ paths, previous = some (.v2 paths))
    (hrow : row ∈ computeFileStateRows seq pathToHash classifications previous effective) :
    row.sinceRevisionSeq = seq ∧ row.hash = pathToHash.get row.path := by
  rcases (mem_computeFileStateRows hbase).1 hrow with ⟨path, h, hh, -, rfl⟩ | ⟨path, hnone, -, rfl⟩
  · exact ⟨rfl, hh.symm⟩
  · exact ⟨rfl, hnone.symm⟩

/-- A revision writes at most one row for a path. -/
theorem row_unique (hbase : previous = none ∨ ∃ paths, previous = some (.v2 paths)) {r : ReleaseFileState η ρ}
    (hrow : row ∈ computeFileStateRows seq pathToHash classifications previous effective)
    (hr : r ∈ computeFileStateRows seq pathToHash classifications previous effective) (h : row.path = r.path) :
    row = r := by
  rcases (mem_computeFileStateRows hbase).1 hrow with ⟨path, c, hc, -, rfl⟩ | ⟨path, hnone, -, rfl⟩ <;>
    rcases (mem_computeFileStateRows hbase).1 hr with ⟨path', c', hc', -, rfl⟩ | ⟨path', hnone', -, rfl⟩ <;>
    obtain rfl : path = path' := h
  · rw [hc] at hc'
    obtain rfl := Option.some.inj hc'
    rfl
  · rw [hc] at hnone'
    cases hnone'
  · rw [hnone] at hc'
    cases hc'
  · rfl

end Rows

end TrustedReleases
