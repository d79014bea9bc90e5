import TrustedReleases.Lib.Breadth
import TrustedReleases.Lib.FileTree
import TrustedReleases.Lib.Table

/-!
# Directory trees by names

A directory tree whose paths are lists of names, outermost first; the root has the empty path and is not recorded.
Whatever is above an entry is a directory.  The operations fail where the system call does; a `rename` takes a file or a
directory with what is below it to a path, and replaces what it finds there as the system call does.
-/

namespace Lib

abbrev Path := List Str

/-- The errors of the operations, with the path they name. -/
inductive OsError where
  | fileNotFound (path : Path)
  | fileExists (path : Path)
  | isADirectory (path : Path)
  | notADirectory (path : Path)
  | notEmpty (path : Path)
  | invalid (path : Path)
  deriving DecidableEq, Repr

/-- Everything above an entry is a directory, and no entry has the path of the root. -/
def ClosedAbove {ι : Type} (rows : List (Path × Entry ι)) : Prop :=
  ∀ row ∈ rows, row.1 ≠ [] ∧ ∀ d rest, row.1 = d ++ rest → d ≠ [] → rest ≠ [] → (d, Entry.dir) ∈ rows

structure PathTree (ι : Type) where
  table : Table (Prod.fst : Path × Entry ι → Path)
  above : ClosedAbove table.rows

namespace PathTree

variable {ι : Type}

def empty : PathTree ι := ⟨.empty, fun row hrow => by cases hrow⟩

/-- What is at a path. -/
def get (t : PathTree ι) (p : Path) : Option (Entry ι) := if p = [] then some .dir else (t.table.get p).map Prod.snd

def fileAt (t : PathTree ι) (p : Path) : Option ι :=
  match t.get p with
  | some (.file i) => some i
  | _ => none

def isDir (t : PathTree ι) (p : Path) : Bool :=
  match t.get p with
  | some .dir => true
  | _ => false

private theorem mem_rows {t : PathTree ι} {p : Path} {e : Entry ι} :
    (p, e) ∈ t.table.rows ↔ p ≠ [] ∧ t.get p = some e := by
  constructor
  · intro hmem
    have hp := (t.above _ hmem).1
    refine ⟨hp, ?_⟩
    rw [get, if_neg hp, Table.get_eq_some.2 ⟨hmem, rfl⟩]
    rfl
  · intro h
    obtain ⟨hp, hget⟩ := h
    rw [get, if_neg hp] at hget
    obtain ⟨row, hrow, rfl⟩ := Option.map_eq_some_iff.1 hget
    obtain ⟨hmem, rfl⟩ := Table.get_eq_some.1 hrow
    exact hmem

@[simp] theorem get_nil (t : PathTree ι) : t.get [] = some .dir := rfl

private theorem get_eq_of_rows {t t' : PathTree ι} {p q : Path} (hp : p ≠ []) (hq : q ≠ [])
    (h : ∀ e, (p, e) ∈ t.table.rows ↔ (q, e) ∈ t'.table.rows) : t.get p = t'.get q := by
  refine Option.ext fun e => ?_
  have hiff := h e
  rwa [mem_rows, mem_rows, and_iff_right hp, and_iff_right hq] at hiff

theorem fileAt_eq_some {t : PathTree ι} {p : Path} {i : ι} : t.fileAt p = some i ↔ t.get p = some (.file i) := by
  unfold fileAt
  split
  · rename_i h
    simp [h]
  · rename_i h
    simpa using h i

theorem isDir_iff {t : PathTree ι} {p : Path} : t.isDir p = true ↔ t.get p = some .dir := by
  unfold isDir
  split
  · simp [*]
  · rename_i h
    simpa using h

theorem ne_nil_of_fileAt {t : PathTree ι} {p : Path} {i : ι} (h : t.fileAt p = some i) : p ≠ [] := by
  intro hp
  rw [fileAt_eq_some, hp, get_nil] at h
  cases h

theorem fileAt_eq_of_get {t t' : PathTree ι} {p q : Path} (h : t.get p = t'.get q) : t.fileAt p = t'.fileAt q := by
  unfold fileAt
  rw [h]

/-- Everything above an entry is a directory. -/
theorem isDir_above {t : PathTree ι} {d rest : Path} {e : Entry ι} (h : t.get (d ++ rest) = some e) (hrest : rest ≠ []) :
    t.get d = some .dir := by
  by_cases hd : d = []
  · rw [hd, get_nil]
  · have hne : d ++ rest ≠ [] := by simp [hd]
    exact (mem_rows.1 ((t.above _ (mem_rows.2 ⟨hne, h⟩)).2 d rest rfl hd hrest)).2

/-- Nothing is below a file. -/
theorem get_below_file {t : PathTree ι} {p rest : Path} {i : ι} (h : t.fileAt p = some i) (hrest : rest ≠ []) :
    t.get (p ++ rest) = none := by
  cases hget : t.get (p ++ rest) with
  | none => rfl
  | some e =>
    have hdir := isDir_above hget hrest
    rw [fileAt_eq_some.1 h] at hdir
    cases hdir

/-! ### Removing -/

/-- The tree without an entry that nothing is below. -/
def erase (t : PathTree ι) (p : Path) (hleaf : ∀ rest, rest ≠ [] → t.get (p ++ rest) = none) : PathTree ι where
  table := t.table.filter fun row => row.1 ≠ p
  above := by
    intro row hrow
    obtain ⟨hmem, hne⟩ := List.mem_filter.1 hrow
    obtain ⟨hrow, habove⟩ := t.above row hmem
    refine ⟨hrow, fun d rest heq hd hrest => List.mem_filter.2 ⟨habove d rest heq hd hrest, ?_⟩⟩
    rw [decide_eq_true_eq]
    intro hdp
    have hget : t.get row.1 = some row.2 := (mem_rows.1 hmem).2
    rw [heq, show d = p from hdp, hleaf rest hrest] at hget
    cases hget

private theorem get_erase {t : PathTree ι} {p : Path} {hleaf : ∀ rest, rest ≠ [] → t.get (p ++ rest) = none}
    (hp : p ≠ [])
    (q : Path) : (t.erase p hleaf).get q = if q = p then none else t.get q := by
  by_cases hq : q = []
  · rw [hq, get_nil, if_neg (Ne.symm hp), get_nil]
  · by_cases heq : q = p
    · rw [if_pos heq]
      cases hget : (t.erase p hleaf).get q with
      | none => rfl
      | some e =>
        have hmem := mem_rows.2 ⟨hq, hget⟩
        have hne := (List.mem_filter.1 hmem).2
        simp [heq] at hne
    · rw [if_neg heq]
      refine get_eq_of_rows hq hq fun e => ?_
      show (q, e) ∈ t.table.rows.filter (fun row => row.1 ≠ p) ↔ _
      rw [List.mem_filter, and_iff_left]
      simpa using heq

/-- `os.remove` -/
def remove (t : PathTree ι) (p : Path) : Except OsError (PathTree ι) :=
  match h : t.fileAt p with
  | some _ => .ok (t.erase p fun _ => get_below_file h)
  | none => .error (if t.isDir p then .isADirectory p else .fileNotFound p)

theorem remove_ok {t : PathTree ι} {p : Path} {i : ι} (h : t.fileAt p = some i) :
    ∃ t', t.remove p = .ok t' ∧ ∀ q, t'.get q = if q = p then none else t.get q := by
  unfold remove
  split
  · exact ⟨_, rfl, get_erase (ne_nil_of_fileAt h)⟩
  · rename_i hnone
    rw [h] at hnone
    cases hnone

theorem of_remove {t t' : PathTree ι} {p : Path} (h : t.remove p = .ok t') :
    (∃ i, t.fileAt p = some i) ∧ ∀ q, t'.get q = if q = p then none else t.get q := by
  unfold remove at h
  split at h
  · rename_i i hfile
    obtain rfl := Except.ok.inj h
    exact ⟨⟨i, hfile⟩, get_erase (ne_nil_of_fileAt hfile)⟩
  · cases h

/-- The entries of a directory. -/
def scandir (t : PathTree ι) (d : Path) : List (Path × Entry ι) :=
  t.table.rows.filter fun row => row.1.dropLast = d

private theorem mem_scandir {t : PathTree ι} {d p : Path} {e : Entry ι} :
    (p, e) ∈ t.scandir d ↔ ∃ name, p = d ++ [name] ∧ t.get p = some e := by
  rw [scandir, List.mem_filter, decide_eq_true_eq, mem_rows]
  constructor
  · intro h
    obtain ⟨⟨hp, hget⟩, hd⟩ := h
    exact ⟨p.getLast hp, by rw [← hd, List.dropLast_append_getLast hp], hget⟩
  · intro h
    obtain ⟨name, rfl, hget⟩ := h
    exact ⟨⟨by simp, hget⟩, by simp⟩

/-- Nothing is below a directory without entries. -/
theorem get_below_of_scandir {t : PathTree ι} {d rest : Path} (h : t.scandir d = []) (hrest : rest ≠ []) :
    t.get (d ++ rest) = none := by
  cases rest with
  | nil => exact absurd rfl hrest
  | cons name rest =>
    have hnone : t.get (d ++ [name]) = none := by
      cases hget : t.get (d ++ [name]) with
      | none => rfl
      | some e =>
        have hmem := mem_scandir.2 ⟨name, rfl, hget⟩
        rw [h] at hmem
        cases hmem
    by_cases hlast : rest = []
    · rw [hlast]
      exact hnone
    · cases hget : t.get (d ++ name :: rest) with
      | none => rfl
      | some e =>
        rw [List.append_cons] at hget
        have hdir := isDir_above hget hlast
        rw [hnone] at hdir
        cases hdir

/-- `os.rmdir` -/
def rmdir (t : PathTree ι) (p : Path) : Except OsError (PathTree ι) :=
  if t.isDir p = false then .error (if (t.get p).isSome then .notADirectory p else .fileNotFound p)
  else if p = [] then .error (.invalid p)
  else
    match hleaf : t.scandir p with
    | [] => .ok (t.erase p fun _ => get_below_of_scandir hleaf)
    | _ :: _ => .error (.notEmpty p)

/-! ### Adding -/

/-- The tree with a new entry in a directory that exists; an entry that is there stays. -/
def insert (t : PathTree ι) (p : Path) (e : Entry ι) (hp : p ≠ []) (hparent : t.get p.dropLast = some .dir) :
    PathTree ι where
  table := t.table.insert (p, e)
  above := by
    intro row hrow
    rcases Table.mem_insert hrow with hrow | rfl
    · obtain ⟨hne, habove⟩ := t.above row hrow
      exact ⟨hne, fun d rest heq hd hrest => Table.mem_insert_of_mem (habove d rest heq hd hrest)⟩
    · refine ⟨hp, fun d rest heq hd hrest => Table.mem_insert_of_mem (mem_rows.2 ⟨hd, ?_⟩)⟩
      have hparent' : p.dropLast = d ++ rest.dropLast := by
        rw [show p = d ++ rest from heq, List.dropLast_append_of_ne_nil hrest]
      rw [hparent'] at hparent
      by_cases hlast : rest.dropLast = []
      · rwa [hlast, List.append_nil] at hparent
      · exact isDir_above hparent hlast

theorem get_insert {t : PathTree ι} {p : Path} {e : Entry ι} {hp : p ≠ []} {hparent : t.get p.dropLast = some .dir}
    (hnone : t.get p = none) (q : Path) : (t.insert p e hp hparent).get q = if q = p then some e else t.get q := by
  have htable : t.table.get p = none := by
    rw [get, if_neg hp] at hnone
    simpa using hnone
  by_cases hq : q = []
  · rw [hq, get_nil, if_neg (Ne.symm hp), get_nil]
  · have hget : (t.insert p e hp hparent).table.get q = if q = p then some (p, e) else t.table.get q :=
      Table.get_insert htable q
    rw [get, if_neg hq, hget]
    by_cases hqp : q = p
    · rw [if_pos hqp, if_pos hqp]
      rfl
    · rw [if_neg hqp, if_neg hqp, get, if_neg hq]

theorem forall_fileAt {t : PathTree ι} {P : Path → Prop} (h : ∀ row ∈ t.table.rows, P row.1) :
    ∀ p, (t.fileAt p).isSome → P p := by
  intro p hsome
  obtain ⟨i, hi⟩ := Option.isSome_iff_exists.1 hsome
  exact h _ (mem_rows.2 ⟨ne_nil_of_fileAt hi, fileAt_eq_some.1 hi⟩)

/-! ### Walking -/

def childDirs (t : PathTree ι) (d : Path) : List Path :=
  ((t.scandir d).filter fun row => t.isDir row.1).map Prod.fst

def dirs (t : PathTree ι) : List Path := [] :: (t.table.rows.filter fun row => t.isDir row.1).map Prod.fst

/-- What is below a directory, relative to it: its entries first, and then those of the directories below. -/
def walk (t : PathTree ι) (base : Path) : List Path :=
  (bfs t.childDirs (potential t.childDirs t.dirs [base] []) [base] []).flatMap fun d =>
    (t.scandir d).map fun row => row.1.drop base.length

private theorem mem_childDirs {t : PathTree ι} {d p : Path} :
    p ∈ t.childDirs d ↔ ∃ name, p = d ++ [name] ∧ t.get p = some .dir := by
  simp only [childDirs, List.mem_map, List.mem_filter]
  constructor
  · intro h
    obtain ⟨⟨q, e⟩, ⟨hmem, hdir⟩, rfl⟩ := h
    obtain ⟨name, heq, -⟩ := mem_scandir.1 hmem
    exact ⟨name, heq, isDir_iff.1 hdir⟩
  · intro h
    obtain ⟨name, heq, hget⟩ := h
    exact ⟨(p, .dir), ⟨mem_scandir.2 ⟨name, heq, hget⟩, isDir_iff.2 hget⟩, rfl⟩

private theorem mem_dirs {t : PathTree ι} {p : Path} : p ∈ t.dirs ↔ t.get p = some .dir := by
  simp only [dirs, List.mem_cons, List.mem_map, List.mem_filter]
  constructor
  · intro h
    rcases h with rfl | ⟨⟨q, e⟩, ⟨-, hdir⟩, rfl⟩
    · exact get_nil t
    · exact isDir_iff.1 hdir
  · intro h
    by_cases hp : p = []
    · exact .inl hp
    · exact .inr ⟨(p, .dir), ⟨mem_rows.2 ⟨hp, h⟩, isDir_iff.2 h⟩, rfl⟩

private theorem nodup_dirs (t : PathTree ι) : t.dirs.Nodup := by
  rw [dirs, List.nodup_cons]
  constructor
  · intro h
    obtain ⟨row, hrow, hnil⟩ := List.mem_map.1 h
    exact (t.above row (List.mem_filter.1 hrow).1).1 hnil
  · exact (List.filter_sublist.map Prod.fst).nodup t.table.nodup

private theorem childDirs_mem_dirs {t : PathTree ι} : ∀ d ∈ t.dirs, ∀ c ∈ t.childDirs d, c ∈ t.dirs := by
  intro d _ c hc
  obtain ⟨name, rfl, hget⟩ := mem_childDirs.1 hc
  exact mem_dirs.2 hget

/-- The directories that a walk lists are those at or below its base. -/
private theorem mem_bfs_childDirs {t : PathTree ι} {base d : Path} (hbase : t.get base = some .dir) :
    d ∈ bfs t.childDirs (potential t.childDirs t.dirs [base] []) [base] [] ↔
      (∃ r, d = base ++ r) ∧ t.get d = some .dir := by
  have hqueue : ∀ v ∈ [base], v ∈ t.dirs := by
    intro v hv
    rw [List.mem_singleton.1 hv, mem_dirs]
    exact hbase
  constructor
  · intro hd
    refine bfs_sound (P := fun d => (∃ r, d = base ++ r) ∧ t.get d = some .dir) ?_ ?_ d hd
    · intro v hv c hc
      obtain ⟨name, rfl, hget⟩ := mem_childDirs.1 hc
      obtain ⟨⟨r, rfl⟩, -⟩ := hv
      exact ⟨⟨r ++ [name], by simp⟩, hget⟩
    · intro v hv
      rw [List.mem_singleton.1 hv]
      exact ⟨⟨[], by simp⟩, hbase⟩
  · intro hd
    obtain ⟨⟨r, rfl⟩, hget⟩ := hd
    induction r using List.reverseRecOn with
    | nil =>
      rw [List.append_nil]
      exact bfs_covers (nodup_dirs t) childDirs_mem_dirs hqueue le_rfl base List.mem_cons_self
    | append_singleton r name ih =>
      rw [← List.append_assoc] at hget ⊢
      have hparent := ih (isDir_above hget (by simp))
      exact bfs_closed (nodup_dirs t) childDirs_mem_dirs hqueue le_rfl _ hparent _ (mem_childDirs.2 ⟨name, rfl, hget⟩)

theorem mem_walk {t : PathTree ι} {base p : Path} (hbase : t.get base = some .dir) :
    p ∈ t.walk base ↔ p ≠ [] ∧ (t.get (base ++ p)).isSome := by
  simp only [walk, List.mem_flatMap, List.mem_map]
  constructor
  · intro h
    obtain ⟨d, hd, ⟨q, e⟩, hrow, rfl⟩ := h
    obtain ⟨⟨r, rfl⟩, -⟩ := (mem_bfs_childDirs hbase).1 hd
    obtain ⟨name, rfl, hget⟩ := mem_scandir.1 hrow
    simp only [List.append_assoc, List.drop_left] at hget ⊢
    exact ⟨by simp, by rw [hget]; rfl⟩
  · intro h
    obtain ⟨hp, hsome⟩ := h
    obtain ⟨e, hget⟩ := Option.isSome_iff_exists.1 hsome
    obtain ⟨r, name, rfl⟩ : ∃ r name, p = r ++ [name] := ⟨p.dropLast, p.getLast hp, (List.dropLast_append_getLast hp).symm⟩
    rw [← List.append_assoc] at hget
    have hdir := isDir_above hget (by simp)
    refine ⟨base ++ r, (mem_bfs_childDirs hbase).2 ⟨⟨r, rfl⟩, hdir⟩, (base ++ r ++ [name], e),
      mem_scandir.2 ⟨name, rfl, hget⟩, ?_⟩
    simp

/-- A walk lists the entries of its base before all others. -/
theorem walk_split {t : PathTree ι} {base : Path} (hbase : t.get base = some .dir) :
    ∃ first rest, t.walk base = first ++ rest ∧ (∀ p ∈ first, p.length = 1) ∧ ∀ p ∈ rest, p.length ≠ 1 := by
  have hfuel : potential t.childDirs t.dirs [base] [] = potential t.childDirs t.dirs [] [] + 1 := potential_skip _ _ _
  have hbfs : bfs t.childDirs (potential t.childDirs t.dirs [base] []) [base] [] =
      base :: bfs t.childDirs (potential t.childDirs t.dirs [] []) (t.childDirs base) [base] := by
    rw [hfuel]
    rfl
  refine ⟨(t.scandir base).map fun row => row.1.drop base.length, (bfs t.childDirs (potential t.childDirs t.dirs [] [])
    (t.childDirs base) [base]).flatMap fun d => (t.scandir d).map fun row => row.1.drop base.length, ?_, ?_, ?_⟩
  · rw [walk, hbfs, List.flatMap_cons]
  · intro p hp
    obtain ⟨⟨q, e⟩, hrow, rfl⟩ := List.mem_map.1 hp
    obtain ⟨name, rfl, -⟩ := mem_scandir.1 hrow
    simp
  · intro p hp hlength
    obtain ⟨d, hd, hp⟩ := List.mem_flatMap.1 hp
    have hne := notMem_visited_of_mem_bfs d hd
    have hin : d ∈ bfs t.childDirs (potential t.childDirs t.dirs [base] []) [base] [] := by
      rw [hbfs]
      exact List.mem_cons_of_mem _ hd
    obtain ⟨⟨r, rfl⟩, -⟩ := (mem_bfs_childDirs hbase).1 hin
    obtain ⟨⟨q, e⟩, hrow, rfl⟩ := List.mem_map.1 hp
    obtain ⟨name, rfl, -⟩ := mem_scandir.1 hrow
    have hr : r = [] := by simpa using hlength
    rw [hr, List.append_nil] at hne
    exact hne (List.mem_singleton_self base)

/-! ### Making directories -/

/-- `os.mkdir`, where a directory that is there is accepted. -/
def mkdirExistOk (t : PathTree ι) (p : Path) : Except OsError (PathTree ι) :=
  match t.get p with
  | some .dir => .ok t
  | some (.file _) => .error (.fileExists p)
  | none =>
    if h : p ≠ [] ∧ t.isDir p.dropLast = true then .ok (t.insert p .dir h.1 (isDir_iff.1 h.2))
    else .error (.notADirectory p)

/-- `os.makedirs`: the directories above a path and then the path itself. -/
def makedirs (t : PathTree ι) (p : Path) : Except OsError (PathTree ι) := p.inits.foldlM mkdirExistOk t

/-- The number of files. -/
def fileCount (t : PathTree ι) : Nat := t.table.rows.countP fun row => (t.fileAt row.1).isSome

private theorem fileCount_eq (t : PathTree ι) :
    t.fileCount = t.table.rows.countP fun row => match row.2 with
      | .file _ => true
      | .dir => false := by
  refine List.countP_congr fun row hrow => ?_
  obtain ⟨p, e⟩ := row
  have hget := (mem_rows.1 hrow).2
  cases e with
  | file i => simp [fileAt, hget]
  | dir => simp [fileAt, hget]

/-- Directories are added, and nothing else changes. -/
def MoreDirs (t t' : PathTree ι) : Prop :=
  (∀ p, t'.get p = t.get p ∨ (t.get p = none ∧ t'.get p = some .dir)) ∧ t'.fileCount = t.fileCount

theorem MoreDirs.trans {a b c : PathTree ι} (hab : MoreDirs a b) (hbc : MoreDirs b c) : MoreDirs a c := by
  refine ⟨fun p => ?_, hbc.2.trans hab.2⟩
  rcases hab.1 p with hp | hp
  · rw [← hp]
    exact hbc.1 p
  · rcases hbc.1 p with hp' | hp'
    · exact .inr ⟨hp.1, hp'.trans hp.2⟩
    · exact .inr ⟨hp.1, hp'.2⟩

theorem MoreDirs.fileAt {t t' : PathTree ι} (h : MoreDirs t t') (p : Path) : t'.fileAt p = t.fileAt p := by
  unfold PathTree.fileAt
  rcases h.1 p with hp | hp
  · rw [hp]
  · rw [hp.1, hp.2]

private theorem of_mkdirExistOk {t t' : PathTree ι} {p : Path} (h : t.mkdirExistOk p = .ok t') :
    MoreDirs t t' ∧ t'.get p = some .dir := by
  unfold mkdirExistOk at h
  split at h
  · rename_i hdir
    obtain rfl := Except.ok.inj h
    exact ⟨⟨fun _ => .inl rfl, rfl⟩, hdir⟩
  · cases h
  · rename_i hnone
    split at h
    · rename_i hparent
      obtain rfl := Except.ok.inj h
      have hget := @get_insert ι t p .dir hparent.1 (isDir_iff.1 hparent.2) hnone
      refine ⟨⟨fun q => ?_, ?_⟩, by rw [hget, if_pos rfl]⟩
      · rw [hget]
        by_cases hq : q = p
        · rw [if_pos hq, hq]
          exact .inr ⟨hnone, rfl⟩
        · rw [if_neg hq]
          exact .inl rfl
      · have hfresh : ∀ a ∈ t.table.rows, a.1 ≠ (p, (Entry.dir : Entry ι)).1 := by
          intro a ha heq
          have hget' := (mem_rows.1 ha).2
          rw [show a.1 = p from heq, hnone] at hget'
          cases hget'
        have hrows : (t.insert p .dir hparent.1 (isDir_iff.1 hparent.2)).table.rows = t.table.rows ++ [(p, .dir)] :=
          Table.rows_insert hfresh
        rw [fileCount_eq, fileCount_eq, hrows, List.countP_append]
        simp
    · cases h

theorem of_makedirs {t t' : PathTree ι} {p : Path} (h : t.makedirs p = .ok t') :
    MoreDirs t t' ∧ t'.get p = some .dir := by
  have hlast : ∃ before, p.inits = before ++ [p] := by
    induction p using List.reverseRecOn with
    | nil => exact ⟨[], rfl⟩
    | append_singleton p name _ => exact ⟨p.inits, by simp⟩
  obtain ⟨before, hbefore⟩ := hlast
  have hmore : ∀ (list : List Path) (a b : PathTree ι), list.foldlM mkdirExistOk a = .ok b → MoreDirs a b := by
    intro list
    induction list with
    | nil =>
      intro a b hab
      obtain rfl := Except.ok.inj hab
      exact ⟨fun _ => .inl rfl, rfl⟩
    | cons q list ih =>
      intro a b hab
      rw [List.foldlM_cons] at hab
      obtain ⟨c, hac, hcb⟩ := bind_eq_ok hab
      exact (of_mkdirExistOk hac).1.trans (ih c b hcb)
  unfold makedirs at h
  rw [hbefore, List.foldlM_append] at h
  obtain ⟨a, ha, h⟩ := bind_eq_ok h
  rw [List.foldlM_cons] at h
  obtain ⟨b, hb, h⟩ := bind_eq_ok h
  obtain rfl := Except.ok.inj h
  obtain ⟨hab, hdir⟩ := of_mkdirExistOk hb
  exact ⟨(hmore before t a ha).trans hab, hdir⟩

/-! ### Renaming -/

/-- Where a path goes when what is at `src` is taken to `dst`. -/
def moved (src dst q : Path) : Path := if src <+: q then dst ++ q.drop src.length else q

theorem moved_append (src dst rest : Path) : moved src dst (src ++ rest) = dst ++ rest := by
  rw [moved, if_pos (List.prefix_append src rest), List.drop_left]

theorem moved_of_not_below {src dst q : Path} (h : ¬ src <+: q) : moved src dst q = q := if_neg h

/-- The tree with what is at `src` at `dst`, where nothing is. -/
def relocate (t : PathTree ι) (src dst : Path) (hdst : t.get dst = none) (hparent : t.get dst.dropLast = some .dir)
    (hbelow : ¬ src <+: dst) : PathTree ι where
  table := t.table.mapRows (fun row => (moved src dst row.1, row.2)) (by
    intro a ha b hb heq
    have habsent : ∀ rest e, (dst ++ rest, e) ∉ t.table.rows := by
      intro rest e hmem
      have hget := (mem_rows.1 hmem).2
      by_cases hrest : rest = []
      · rw [hrest, List.append_nil, hdst] at hget
        cases hget
      · have hdir := isDir_above hget hrest
        rw [hdst] at hdir
        cases hdir
    by_cases hpa : src <+: a.1
    · obtain ⟨ra, hra⟩ := hpa
      by_cases hpb : src <+: b.1
      · obtain ⟨rb, hrb⟩ := hpb
        simp only [← hra, ← hrb, moved_append, List.append_cancel_left_eq] at heq
        rw [← hra, ← hrb, heq]
      · simp only [← hra, moved_append, moved_of_not_below hpb] at heq
        rw [← Prod.mk.eta (p := b), ← heq] at hb
        exact absurd hb (habsent ra b.2)
    · by_cases hpb : src <+: b.1
      · obtain ⟨rb, hrb⟩ := hpb
        simp only [← hrb, moved_append, moved_of_not_below hpa] at heq
        rw [← Prod.mk.eta (p := a), heq] at ha
        exact absurd ha (habsent rb a.2)
      · simpa only [moved_of_not_below hpa, moved_of_not_below hpb] using heq)
  above := by
    have hmem : ∀ p e, (p, e) ∈ t.table.rows → (moved src dst p, e) ∈ t.table.rows.map fun row => (moved src dst row.1, row.2) :=
      fun p e hp => List.mem_map.2 ⟨(p, e), hp, rfl⟩
    have hdstne : dst ≠ [] := by
      intro heq
      rw [heq, get_nil] at hdst
      cases hdst
    have hkept : ∀ d, d <+: dst → d ≠ [] → d ≠ dst →
        (d, Entry.dir) ∈ t.table.rows.map fun row => (moved src dst row.1, row.2) := by
      intro d hd hdne hne
      obtain ⟨rest, hrest⟩ := hd
      have hrestne : rest ≠ [] := by
        intro heq
        rw [heq, List.append_nil] at hrest
        exact hne hrest
      have hdir : t.get d = some .dir := by
        rw [← hrest, List.dropLast_append_of_ne_nil hrestne] at hparent
        by_cases hlast : rest.dropLast = []
        · rwa [hlast, List.append_nil] at hparent
        · exact isDir_above hparent hlast
      have hnot : ¬ src <+: d := fun hpre => hbelow (hpre.trans ⟨rest, hrest⟩)
      have hrow := hmem d .dir (mem_rows.2 ⟨hdne, hdir⟩)
      rwa [moved_of_not_below hnot] at hrow
    intro row hrow
    obtain ⟨⟨p, e⟩, hp, rfl⟩ := List.mem_map.1 hrow
    obtain ⟨hpne, habove⟩ := t.above _ hp
    by_cases hpre : src <+: p
    · obtain ⟨rest, rfl⟩ := hpre
      simp only [moved_append]
      refine ⟨by simp [hdstne], fun d tail heq hdne htail => ?_⟩
      rcases List.append_eq_append_iff.1 heq with ⟨middle, hmiddle, hrest⟩ | ⟨middle, hmiddle, -⟩
      · by_cases hm : middle = []
        · -- `dst` itself: `src` is above the entry or is the entry
          rw [hm, List.nil_append] at hrest
          rw [hm, List.append_nil] at hmiddle
          have hsrc : src ≠ [] := by
            intro hnil
            exact hbelow (by rw [hnil]; exact List.nil_prefix)
          have hsrcdir := habove src rest rfl hsrc (by rw [hrest]; exact htail)
          have hrow := hmem src .dir hsrcdir
          have hself : moved src dst src = dst := by
            have := moved_append src dst []
            simpa using this
          rw [hself] at hrow
          rw [hmiddle]
          exact hrow
        · have hsrcdir := habove (src ++ middle) tail (by simp [hrest]) (by simp [hm]) htail
          have hrow := hmem _ .dir hsrcdir
          rw [moved_append] at hrow
          rw [hmiddle]
          exact hrow
      · by_cases hm : middle = []
        · rw [hm, List.append_nil] at hmiddle
          have hrest : rest = tail := by
            rw [← hmiddle] at heq
            exact List.append_cancel_left heq
          have hsrc : src ≠ [] := by
            intro hnil
            exact hbelow (by rw [hnil]; exact List.nil_prefix)
          have hsrcdir := habove src rest rfl hsrc (by rw [hrest]; exact htail)
          have hrow := hmem src .dir hsrcdir
          have hself : moved src dst src = dst := by
            have := moved_append src dst []
            simpa using this
          rw [hself] at hrow
          rw [← hmiddle]
          exact hrow
        · refine hkept d ⟨middle, hmiddle.symm⟩ hdne ?_
          intro heq'
          rw [heq'] at hmiddle
          exact hm (by simpa using hmiddle)
    · simp only [moved_of_not_below hpre]
      refine ⟨hpne, fun d tail heq hdne htail => ?_⟩
      have hdir := hmem d .dir (habove d tail heq hdne htail)
      have hnot : ¬ src <+: d := fun hd => hpre (hd.trans ⟨tail, heq.symm⟩)
      rwa [moved_of_not_below hnot] at hdir

private theorem mem_relocate {t : PathTree ι} {src dst : Path} {hdst : t.get dst = none}
    {hparent : t.get dst.dropLast = some .dir} {hbelow : ¬ src <+: dst} {q : Path} {e : Entry ι} :
    (q, e) ∈ (t.relocate src dst hdst hparent hbelow).table.rows ↔ ∃ p, (p, e) ∈ t.table.rows ∧ moved src dst p = q := by
  show (q, e) ∈ t.table.rows.map (fun row => (moved src dst row.1, row.2)) ↔ _
  rw [List.mem_map]
  constructor
  · intro h
    obtain ⟨⟨p, e'⟩, hp, heq⟩ := h
    obtain ⟨rfl, rfl⟩ := Prod.mk.inj heq
    exact ⟨p, hp, rfl⟩
  · intro h
    obtain ⟨p, hp, rfl⟩ := h
    exact ⟨(p, e), hp, rfl⟩

/-- After a move: what was at and below `src` is at and below `dst`, and everything else is as before. -/
theorem get_relocate {t : PathTree ι} {src dst : Path} {hdst : t.get dst = none}
    {hparent : t.get dst.dropLast = some .dir} {hbelow : ¬ src <+: dst} :
    (∀ rest, (t.relocate src dst hdst hparent hbelow).get (dst ++ rest) = t.get (src ++ rest)) ∧
      ∀ q, ¬ dst <+: q → (t.relocate src dst hdst hparent hbelow).get q = if src <+: q then none else t.get q := by
  have hdstne : dst ≠ [] := by
    intro heq
    rw [heq, get_nil] at hdst
    cases hdst
  have hsrcne : src ≠ [] := by
    intro heq
    exact hbelow (by rw [heq]; exact List.nil_prefix)
  have habsent : ∀ rest e, (dst ++ rest, e) ∉ t.table.rows := by
    intro rest e hmem
    have hget := (mem_rows.1 hmem).2
    by_cases hrest : rest = []
    · rw [hrest, List.append_nil, hdst] at hget
      cases hget
    · have hdir := isDir_above hget hrest
      rw [hdst] at hdir
      cases hdir
  refine ⟨fun rest => ?_, fun q hq => ?_⟩
  · refine get_eq_of_rows (by simp [hdstne]) (by simp [hsrcne]) fun e => ?_
    rw [mem_relocate]
    constructor
    · intro h
      obtain ⟨p, hp, heq⟩ := h
      by_cases hpre : src <+: p
      · obtain ⟨rest', rfl⟩ := hpre
        rw [moved_append, List.append_cancel_left_eq] at heq
        rwa [heq] at hp
      · rw [moved_of_not_below hpre] at heq
        rw [heq] at hp
        exact absurd hp (habsent rest e)
    · intro h
      exact ⟨src ++ rest, h, moved_append src dst rest⟩
  · by_cases hnil : q = []
    · have hnot : ¬ src <+: q := by
        rw [hnil, List.prefix_nil]
        exact hsrcne
      rw [if_neg hnot, hnil, get_nil, get_nil]
    · by_cases hpre : src <+: q
      · rw [if_pos hpre]
        cases hget : (t.relocate src dst hdst hparent hbelow).get q with
        | none => rfl
        | some e =>
          obtain ⟨p, hp, heq⟩ := mem_relocate.1 (mem_rows.2 ⟨hnil, hget⟩)
          by_cases hpp : src <+: p
          · obtain ⟨rest, rfl⟩ := hpp
            rw [moved_append] at heq
            exact absurd ⟨rest, heq⟩ hq
          · rw [moved_of_not_below hpp] at heq
            rw [heq] at hpp
            exact absurd hpre hpp
      · rw [if_neg hpre]
        refine get_eq_of_rows hnil hnil fun e => ?_
        rw [mem_relocate]
        constructor
        · intro h
          obtain ⟨p, hp, heq⟩ := h
          by_cases hpp : src <+: p
          · obtain ⟨rest, rfl⟩ := hpp
            rw [moved_append] at heq
            exact absurd ⟨rest, heq⟩ hq
          · rw [moved_of_not_below hpp] at heq
            rwa [heq] at hp
        · intro h
          exact ⟨q, h, moved_of_not_below hpre⟩

private theorem fileCount_relocate {t : PathTree ι} {src dst : Path} {hdst : t.get dst = none}
    {hparent : t.get dst.dropLast = some .dir} {hbelow : ¬ src <+: dst} :
    (t.relocate src dst hdst hparent hbelow).fileCount = t.fileCount := by
  rw [fileCount_eq, fileCount_eq]
  show (t.table.rows.map fun row => (moved src dst row.1, row.2)).countP _ = _
  rw [List.countP_map]
  rfl

/-- `relocate`, or an error where it would not give a tree. -/
def relocateOr (t : PathTree ι) (src dst : Path) : Except OsError (PathTree ι) :=
  if h : (t.get dst).isNone = true ∧ t.isDir dst.dropLast = true ∧ ¬ src <+: dst then
    .ok (t.relocate src dst (Option.isNone_iff_eq_none.1 h.1) (isDir_iff.1 h.2.1) h.2.2)
  else .error (.invalid dst)

/-- `os.rename`: a file replaces a file, and a directory an empty directory. -/
def rename (t : PathTree ι) (src dst : Path) : Except OsError (PathTree ι) :=
  if src = dst then if (t.get src).isSome then .ok t else .error (.fileNotFound src)
  else
    match t.get src, t.get dst with
    | none, _ => .error (.fileNotFound src)
    | some _, none => if t.isDir dst.dropLast then t.relocateOr src dst else .error (.fileNotFound dst)
    | some (.file _), some (.file _) => do
      let t ← t.remove dst
      t.relocateOr src dst
    | some .dir, some .dir => do
      let t ← t.rmdir dst
      t.relocateOr src dst
    | some (.file _), some .dir => .error (.isADirectory dst)
    | some .dir, some (.file _) => .error (.notADirectory dst)

/-- What a rename to a path where nothing is leaves. -/
structure Renamed (t t' : PathTree ι) (src dst : Path) : Prop where
  arrived : ∀ rest, t'.get (dst ++ rest) = t.get (src ++ rest)
  left : ∀ q, ¬ dst <+: q → t'.get q = if src <+: q then none else t.get q
  count : t'.fileCount = t.fileCount

theorem rename_ok {t : PathTree ι} {src dst : Path} (hsrc : (t.get src).isSome) (hdst : t.get dst = none)
    (hparent : t.get dst.dropLast = some .dir) (hbelow : ¬ src <+: dst) :
    ∃ t', t.rename src dst = .ok t' ∧ Renamed t t' src dst := by
  obtain ⟨e, he⟩ := Option.isSome_iff_exists.1 hsrc
  have hne : src ≠ dst := by
    intro heq
    exact hbelow (by rw [heq])
  have hor : t.relocateOr src dst = .ok (t.relocate src dst hdst hparent hbelow) :=
    dif_pos ⟨Option.isNone_iff_eq_none.2 hdst, isDir_iff.2 hparent, hbelow⟩
  have hok : t.rename src dst = .ok (t.relocate src dst hdst hparent hbelow) := by
    unfold rename
    rw [if_neg hne, he, hdst, hor, if_pos (isDir_iff.2 hparent)]
  exact ⟨_, hok, get_relocate.1, get_relocate.2, fileCount_relocate⟩

/-- After the rename of a file. -/
theorem Renamed.get_file {t t' : PathTree ι} {src dst : Path} (h : Renamed t t' src dst) {i : ι}
    (hsrc : t.fileAt src = some i) (hdst : t.get dst = none) (q : Path) :
    t'.get q = if q = dst then t.get src else if q = src then none else t.get q := by
  by_cases hq : dst <+: q
  · obtain ⟨rest, rfl⟩ := hq
    rw [h.arrived]
    by_cases hrest : rest = []
    · simp [hrest]
    · rw [get_below_file hsrc hrest, if_neg (by simpa using hrest)]
      split
      · rfl
      · cases hget : t.get (dst ++ rest) with
        | none => rfl
        | some e =>
          have hdir := isDir_above hget hrest
          rw [hdst] at hdir
          cases hdir
  · have hne : q ≠ dst := by
      intro heq
      exact hq (by rw [heq])
    rw [h.left q hq, if_neg hne]
    by_cases hpre : src <+: q
    · obtain ⟨rest, rfl⟩ := hpre
      by_cases hrest : rest = []
      · simp [hrest]
      · rw [if_pos (List.prefix_append src rest), get_below_file hsrc hrest]
        split
        · rfl
        · rfl
    · have hne' : q ≠ src := by
        intro heq
        exact hpre (by rw [heq])
      rw [if_neg hpre, if_neg hne']

/-! ### Files that are moved -/

/-- Every file is where `m` takes it, with its content, and there are no others. -/
structure FilesMoved (t t' : PathTree ι) (m : Path → Path) : Prop where
  file : ∀ p i, t.fileAt p = some i → t'.fileAt (m p) = some i
  only : ∀ q i, t'.fileAt q = some i → ∃ p, t.fileAt p = some i ∧ m p = q
  inj : ∀ p q, (t.fileAt p).isSome → (t.fileAt q).isSome → m p = m q → p = q
  count : t'.fileCount = t.fileCount

theorem FilesMoved.refl (t : PathTree ι) : FilesMoved t t id where
  file := fun _ _ h => h
  only := fun q _ h => ⟨q, h, rfl⟩
  inj := fun _ _ _ _ h => h
  count := rfl

theorem FilesMoved.trans {a b c : PathTree ι} {m m' : Path → Path} (hab : FilesMoved a b m) (hbc : FilesMoved b c m') :
    FilesMoved a c (m' ∘ m) where
  file := fun p i h => hbc.file (m p) i (hab.file p i h)
  only := by
    intro q i h
    obtain ⟨r, hr, rfl⟩ := hbc.only q i h
    obtain ⟨p, hp, rfl⟩ := hab.only r i hr
    exact ⟨p, hp, rfl⟩
  inj := by
    intro p q hp hq h
    obtain ⟨i, hi⟩ := Option.isSome_iff_exists.1 hp
    obtain ⟨j, hj⟩ := Option.isSome_iff_exists.1 hq
    refine hab.inj p q hp hq (hbc.inj _ _ ?_ ?_ h)
    · rw [hab.file p i hi]
      rfl
    · rw [hab.file q j hj]
      rfl
  count := hbc.count.trans hab.count

/-- Only what is said of files counts. -/
theorem FilesMoved.congr {t t' : PathTree ι} {m m' : Path → Path} (h : FilesMoved t t' m)
    (hsame : ∀ p, (t.fileAt p).isSome → m' p = m p) : FilesMoved t t' m' where
  file := by
    intro p i hp
    rw [hsame p (by rw [hp]; rfl)]
    exact h.file p i hp
  only := by
    intro q i hq
    obtain ⟨p, hp, rfl⟩ := h.only q i hq
    exact ⟨p, hp, hsame p (by rw [hp]; rfl)⟩
  inj := by
    intro p q hp hq heq
    rw [hsame p hp, hsame q hq] at heq
    exact h.inj p q hp hq heq
  count := h.count

theorem MoreDirs.filesMoved {t t' : PathTree ι} (h : MoreDirs t t') : FilesMoved t t' id where
  file := by
    intro p i hp
    rw [id, h.fileAt]
    exact hp
  only := by
    intro q i hq
    rw [h.fileAt] at hq
    exact ⟨q, hq, rfl⟩
  inj := fun _ _ _ _ heq => heq
  count := h.2

theorem Renamed.filesMoved {t t' : PathTree ι} {src dst : Path} (h : Renamed t t' src dst) (hdst : t.get dst = none) :
    FilesMoved t t' (moved src dst) := by
  have habsent : ∀ q, (t.fileAt q).isSome → ¬ dst <+: q := by
    intro q hq hpre
    obtain ⟨i, hi⟩ := Option.isSome_iff_exists.1 hq
    obtain ⟨rest, rfl⟩ := hpre
    rw [fileAt_eq_some] at hi
    by_cases hrest : rest = []
    · rw [hrest, List.append_nil, hdst] at hi
      cases hi
    · have hdir := isDir_above hi hrest
      rw [hdst] at hdir
      cases hdir
  refine ⟨?_, ?_, ?_, h.count⟩
  · intro p i hp
    by_cases hpre : src <+: p
    · obtain ⟨rest, rfl⟩ := hpre
      rw [moved_append, fileAt_eq_of_get (h.arrived rest)]
      exact hp
    · have hget := h.left p (habsent p (by rw [hp]; rfl))
      rw [if_neg hpre] at hget
      rw [moved_of_not_below hpre, fileAt_eq_of_get hget]
      exact hp
  · intro q i hq
    by_cases hpre : dst <+: q
    · obtain ⟨rest, rfl⟩ := hpre
      rw [fileAt_eq_of_get (h.arrived rest)] at hq
      exact ⟨src ++ rest, hq, moved_append src dst rest⟩
    · have hget := h.left q hpre
      by_cases hsrc : src <+: q
      · rw [if_pos hsrc] at hget
        rw [fileAt_eq_some, hget] at hq
        cases hq
      · rw [if_neg hsrc] at hget
        rw [fileAt_eq_of_get hget] at hq
        exact ⟨q, hq, moved_of_not_below hsrc⟩
  · intro p q hp hq heq
    by_cases hpp : src <+: p
    · obtain ⟨rp, rfl⟩ := hpp
      by_cases hpq : src <+: q
      · obtain ⟨rq, rfl⟩ := hpq
        rw [moved_append, moved_append, List.append_cancel_left_eq] at heq
        rw [heq]
      · rw [moved_append, moved_of_not_below hpq] at heq
        exact absurd ⟨rp, heq⟩ (habsent q hq)
    · by_cases hpq : src <+: q
      · obtain ⟨rq, rfl⟩ := hpq
        rw [moved_append, moved_of_not_below hpp] at heq
        exact absurd ⟨rq, heq.symm⟩ (habsent p hp)
      · rwa [moved_of_not_below hpp, moved_of_not_below hpq] at heq

end PathTree

end Lib
