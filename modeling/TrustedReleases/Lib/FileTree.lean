import TrustedReleases.Lib.Dict
import TrustedReleases.Lib.Except
import TrustedReleases.Lib.Str

/-!
# Directory trees

A directory tree maps relative paths to files and directories.  A path is its string, and the directories above it
are the prefixes that end before a slash (`parents`); the root of the tree is above every path and is not recorded.
A file is known by its inode: hard links are two paths with one inode.  `FileTree` carries the invariant of a file
system, that whatever is above an entry is a directory, so the operations `mkdir`, `link` and `remove` fail where the
system call does and otherwise give a tree again.
-/

namespace Lib

/-! ### Paths -/

/-- The paths of the directories above a path, outermost first. -/
def parents : Str → List Str
  | [] => []
  | c :: s => (if c = '/' then [[]] else []) ++ (parents s).map (c :: ·)

/-- A directory is above a path if the path continues it after a slash. -/
theorem mem_parents {d p : Str} : d ∈ parents p ↔ ∃ s, p = d ++ '/' :: s := by
  induction p generalizing d with
  | nil => simp [parents]
  | cons c p ih =>
    simp only [parents, List.mem_append, List.mem_map, ih]
    constructor
    · rintro (h | ⟨d', ⟨s, rfl⟩, rfl⟩)
      · split at h
        · rename_i hc
          obtain rfl : d = [] := by simpa using h
          exact ⟨p, by simp [hc]⟩
        · cases h
      · exact ⟨s, rfl⟩
    · rintro ⟨s, hs⟩
      cases d with
      | nil =>
        left
        obtain ⟨rfl, -⟩ := List.cons.inj hs
        simp
      | cons a d =>
        right
        obtain ⟨rfl, rfl⟩ := List.cons.inj hs
        exact ⟨d, ⟨s, rfl⟩, rfl⟩

theorem ne_of_mem_parents {d p : Str} (h : d ∈ parents p) : d ≠ p := by
  obtain ⟨s, rfl⟩ := mem_parents.1 h
  simp

theorem parents_trans {a b c : Str} (hab : a ∈ parents b) (hbc : b ∈ parents c) : a ∈ parents c := by
  obtain ⟨s, rfl⟩ := mem_parents.1 hab
  obtain ⟨t, rfl⟩ := mem_parents.1 hbc
  exact mem_parents.2 ⟨s ++ '/' :: t, by simp⟩

/-- Of two directories above one path, one is above the other. -/
theorem parents_comparable {a b p : Str} (ha : a ∈ parents p) (hb : b ∈ parents p) :
    a ∈ parents b ∨ a = b ∨ b ∈ parents a := by
  obtain ⟨s, hs⟩ := mem_parents.1 ha
  obtain ⟨t, ht⟩ := mem_parents.1 hb
  rcases List.append_eq_append_iff.1 (hs.symm.trans ht) with ⟨m, hm, hrest⟩ | ⟨m, hm, hrest⟩
  · cases m with
    | nil => exact .inr (.inl (by simpa using hm.symm))
    | cons c m =>
      obtain ⟨rfl, -⟩ := List.cons.inj hrest
      exact .inl (mem_parents.2 ⟨m, hm⟩)
  · cases m with
    | nil => exact .inr (.inl (by simpa using hm))
    | cons c m =>
      obtain ⟨rfl, -⟩ := List.cons.inj hrest
      exact .inr (.inr (mem_parents.2 ⟨m, hm⟩))

/-- The directories listed before `d` are the directories above `d`. -/
theorem parents_split {p : Str} {L R : List Str} {d : Str} (h : parents p = L ++ d :: R) : parents d = L := by
  induction p generalizing L R d with
  | nil => simp [parents] at h
  | cons c p ih =>
    have key : ∀ L', (parents p).map (c :: ·) = L' ++ d :: R →
        ∃ d₀ M, d = c :: d₀ ∧ L' = M.map (c :: ·) ∧ parents d₀ = M := by
      intro L' h'
      obtain ⟨M, T, hp, rfl, hT⟩ := List.map_eq_append_iff.1 h'
      obtain ⟨d₀, S, rfl, rfl, rfl⟩ := List.map_eq_cons_iff.1 hT
      exact ⟨d₀, M, rfl, rfl, ih hp⟩
    simp only [parents] at h
    by_cases hc : c = '/'
    · simp only [hc, ↓reduceIte, List.cons_append, List.nil_append] at h
      cases L with
      | nil =>
        obtain ⟨rfl, -⟩ := List.cons.inj h
        rfl
      | cons a L =>
        obtain ⟨rfl, h'⟩ := List.cons.inj h
        rw [← hc] at h'
        obtain ⟨d₀, M, rfl, rfl, hM⟩ := key L h'
        simp [parents, hc, hM]
    · simp only [hc, ↓reduceIte, List.nil_append] at h
      obtain ⟨d₀, M, rfl, rfl, hM⟩ := key L h
      simp [parents, hc, hM]

/-! ### Trees -/

/-- What a directory holds under a name. -/
inductive Entry (ι : Type) where
  | file (inode : ι)
  | dir
  deriving DecidableEq, Repr

/-- The errors of the file operations, with the path they name. -/
inductive FsError where
  | fileExists (path : Str)
  | fileNotFound (path : Str)
  | isADirectory (path : Str)
  deriving DecidableEq, Repr

/-- A directory tree: whatever is above an entry is a directory. -/
structure FileTree (ι : Type) where
  entries : Dict Str (Entry ι)
  parents_dir : ∀ p e, entries.get p = some e → ∀ d ∈ parents p, entries.get d = some .dir

namespace FileTree

variable {ι : Type}

/-- The empty tree. -/
def empty : FileTree ι := ⟨∅, by simp⟩

/-- What is at a path. -/
def get (t : FileTree ι) (p : Str) : Option (Entry ι) := t.entries.get p

/-- The inode of the file at a path. -/
def fileAt (t : FileTree ι) (p : Str) : Option ι :=
  match t.get p with
  | some (.file i) => some i
  | _ => none

/-- Is there a directory at a path? -/
def isDir (t : FileTree ι) (p : Str) : Bool :=
  match t.get p with
  | some .dir => true
  | _ => false

/-- Everything above the path is a directory. -/
def HasParents (t : FileTree ι) (p : Str) : Prop := ∀ d ∈ parents p, t.isDir d = true

instance (t : FileTree ι) (p : Str) : Decidable (t.HasParents p) :=
  inferInstanceAs (Decidable (∀ d ∈ parents p, t.isDir d = true))

/-- The paths of the files, with their inodes. -/
def files (t : FileTree ι) : Dict Str ι :=
  t.entries.filterMap fun _ e =>
    match e with
    | .file i => some i
    | .dir => none

theorem isDir_iff {t : FileTree ι} {p : Str} : t.isDir p = true ↔ t.get p = some .dir := by
  unfold isDir
  split
  · simp [*]
  · rename_i h
    simpa using h

theorem fileAt_iff {t : FileTree ι} {p : Str} {i : ι} : t.fileAt p = some i ↔ t.get p = some (.file i) := by
  unfold fileAt
  split
  · rename_i h
    simp [h]
  · rename_i h
    simpa using h i

theorem fileAt_eq_none {t : FileTree ι} {p : Str} : t.fileAt p = none ↔ t.get p = none ∨ t.isDir p = true := by
  unfold fileAt isDir
  split
  · rename_i h
    simp [h]
  · rename_i h
    rcases ht : t.get p with _ | ⟨i | _⟩
    · simp
    · exact absurd ht (h i)
    · simp

theorem isDir_false_of_fileAt {t : FileTree ι} {p : Str} {i : ι} (h : t.fileAt p = some i) : t.isDir p = false := by
  rw [fileAt_iff] at h
  simp [isDir, h]

@[simp] theorem get_files (t : FileTree ι) (p : Str) : t.files.get p = t.fileAt p := by
  unfold files fileAt get
  rw [Dict.get_filterMap]
  rcases t.entries.get p with _ | ⟨i | _⟩ <;> rfl

theorem mem_files_keys {t : FileTree ι} {p : Str} : p ∈ t.files.keys ↔ (t.fileAt p).isSome = true := by
  rw [Dict.mem_keys, get_files]

/-- What is above an entry is a directory. -/
theorem hasParents_of_get {t : FileTree ι} {p : Str} {e : Entry ι} (h : t.get p = some e) : t.HasParents p :=
  fun d hd => isDir_iff.2 (t.parents_dir p e h d hd)

/-- Nothing is below a file. -/
theorem get_eq_none_of_file_above {t : FileTree ι} {p q : Str} {i : ι} (h : t.fileAt p = some i)
    (hpq : p ∈ parents q) : t.get q = none := by
  rcases hq : t.get q with _ | e
  · rfl
  · have := hasParents_of_get hq p hpq
    rw [isDir_false_of_fileAt h] at this
    cases this

/-- The tree with a new entry in a directory that exists. -/
def insert (t : FileTree ι) (p : Str) (e : Entry ι) (hp : t.HasParents p) (hn : t.get p = none) : FileTree ι :=
  ⟨t.entries.set p e, by
    intro q e' hq d hd
    rw [Dict.get_set] at hq ⊢
    have hdir : t.get d = some .dir := by
      split at hq
      · rename_i h; exact isDir_iff.1 (hp d (h ▸ hd))
      · exact t.parents_dir q e' hq d hd
    have hne : d ≠ p := by rintro rfl; rw [hn] at hdir; cases hdir
    rw [if_neg hne]
    exact hdir⟩

/-- The tree without the file at a path. -/
def erase (t : FileTree ι) (p : Str) (i : ι) (h : t.get p = some (.file i)) : FileTree ι :=
  ⟨t.entries.pop p, by
    intro q e hq d hd
    rw [Dict.get_pop] at hq ⊢
    split at hq
    · cases hq
    · have hdir := t.parents_dir q e hq d hd
      have hne : d ≠ p := by rintro rfl; rw [get, hdir] at h; cases h
      rw [if_neg hne]
      exact hdir⟩

@[simp] theorem get_insert (t : FileTree ι) (p : Str) (e : Entry ι) (hp : t.HasParents p) (hn : t.get p = none)
    (q : Str) : (t.insert p e hp hn).get q = if q = p then some e else t.get q := by
  simp [insert, get]

@[simp] theorem get_erase (t : FileTree ι) (p : Str) (i : ι) (h : t.get p = some (.file i)) (q : Str) :
    (t.erase p i h).get q = if q = p then none else t.get q := by
  simp [erase, get]

@[simp] theorem get_empty (p : Str) : (empty : FileTree ι).get p = none := rfl

private theorem hasParents_of_nil (t : FileTree ι) {p : Str} (h : parents p = []) : t.HasParents p := by
  intro d hd
  rw [h] at hd
  cases hd

/-- The tree with one file, which is in no directory. -/
def single (p : Str) (i : ι) (h : parents p = []) : FileTree ι :=
  empty.insert p (.file i) (hasParents_of_nil _ h) (get_empty p)

@[simp] theorem get_single (p : Str) (i : ι) (h : parents p = []) (q : Str) :
    (single p i h).get q = if q = p then some (.file i) else none := by
  rw [single, get_insert, get_empty]

/-- The path or a directory above it is among the paths. -/
def Covers (ps : List Str) (p : Str) : Prop := p ∈ ps ∨ ∃ d ∈ parents p, d ∈ ps

instance coversDecidable (ps : List Str) (p : Str) : Decidable (Covers ps p) :=
  inferInstanceAs (Decidable (p ∈ ps ∨ ∃ d ∈ parents p, d ∈ ps))

/-- What covers a directory covers the entries below it. -/
theorem Covers.below {ps : List Str} {d p : Str} (h : Covers ps d) (hd : d ∈ parents p) : Covers ps p := by
  rcases h with hmem | ⟨a, ha, hmem⟩
  · exact .inr ⟨d, hd, hmem⟩
  · exact .inr ⟨a, parents_trans ha hd, hmem⟩

/-- The tree without the entries at the paths, and without what is below them. -/
def without (t : FileTree ι) (ps : List Str) : FileTree ι :=
  ⟨t.entries.filterMap fun p e => if Covers ps p then none else some e, by
    intro p e hp d hd
    rw [Dict.get_filterMap] at hp ⊢
    obtain ⟨e', he', hkeep⟩ := Option.bind_eq_some_iff.1 hp
    have hdir := t.parents_dir p e' he' d hd
    have hcover : ¬ Covers ps d := by
      intro hcover
      rw [if_pos (hcover.below hd)] at hkeep
      cases hkeep
    rw [hdir, Option.bind_some, if_neg hcover]⟩

private theorem get_without (t : FileTree ι) (ps : List Str) (p : Str) :
    (t.without ps).get p = if Covers ps p then none else t.get p := by
  unfold get without
  rw [Dict.get_filterMap]
  cases t.entries.get p with
  | none => simp
  | some e => rfl

theorem fileAt_without (t : FileTree ι) (ps : List Str) (p : Str) :
    (t.without ps).fileAt p = if Covers ps p then none else t.fileAt p := by
  unfold fileAt
  rw [get_without]
  by_cases h : Covers ps p
  · rw [if_pos h, if_pos h]
  · rw [if_neg h, if_neg h]

/-! ### The operations -/

/-- `mkdir` that accepts a directory that is already there. -/
def mkdirExistOk (t : FileTree ι) (p : Str) : Except FsError (FileTree ι) :=
  match hn : t.get p with
  | some .dir => .ok t
  | some (.file _) => .error (.fileExists p)
  | none => if hp : t.HasParents p then .ok (t.insert p .dir hp hn) else .error (.fileNotFound p)

/-- Makes every directory above a path. -/
def makeParents (t : FileTree ι) (p : Str) : Except FsError (FileTree ι) := (parents p).foldlM mkdirExistOk t

/-- A hard link at `p` to the file with inode `i`. -/
def link (t : FileTree ι) (p : Str) (i : ι) : Except FsError (FileTree ι) :=
  match hn : t.get p with
  | some _ => .error (.fileExists p)
  | none => if hp : t.HasParents p then .ok (t.insert p (.file i) hp hn) else .error (.fileNotFound p)

/-- Removes the file at a path. -/
def remove (t : FileTree ι) (p : Str) : Except FsError (FileTree ι) :=
  match h : t.get p with
  | some (.file i) => .ok (t.erase p i h)
  | some .dir => .error (.isADirectory p)
  | none => .error (.fileNotFound p)

/-- `mkdirExistOk` where the directories above are there and the path is not a file. -/
private theorem mkdirExistOk_ok {t : FileTree ι} {d : Str} (hf : t.fileAt d = none) (hp : t.HasParents d) :
    ∃ t', t.mkdirExistOk d = .ok t' ∧ ∀ q, t'.get q = if q = d then some .dir else t.get q := by
  unfold mkdirExistOk
  split
  · rename_i hd
    refine ⟨t, rfl, fun q => ?_⟩
    split
    · subst_vars; exact hd
    · rfl
  · rename_i i hd
    rw [fileAt_iff.2 hd] at hf
    cases hf
  · rename_i hd
    exact ⟨t.insert d .dir hp hd, by rw [dif_pos hp], fun q => get_insert ..⟩

/-- Making the directories above a path succeeds if none of them is a file, and adds those that are missing. -/
theorem makeParents_ok {t : FileTree ι} {p : Str} (h : ∀ d ∈ parents p, t.fileAt d = none) :
    ∃ t', t.makeParents p = .ok t' ∧
      ∀ q, t'.get q = if q ∈ parents p then some .dir else t.get q := by
  unfold makeParents
  apply foldlM_ok (fun done (t' : FileTree ι) => ∀ q, t'.get q = if q ∈ done then some .dir else t.get q) (by simp)
  intro done d rest t₀ hd h₀
  have hp : t₀.HasParents d := by
    intro a ha
    rw [parents_split hd] at ha
    rw [isDir_iff, h₀, if_pos ha]
  have hf : t₀.fileAt d = none := by
    by_cases hm : d ∈ done
    · rw [fileAt_eq_none, isDir_iff, h₀, if_pos hm]; simp
    · have hd' := h d (by rw [hd]; simp)
      unfold fileAt at hd' ⊢
      rwa [h₀, if_neg hm]
  obtain ⟨t₁, hok, h₁⟩ := mkdirExistOk_ok hf hp
  refine ⟨t₁, hok, fun q => ?_⟩
  by_cases hq : q = d
  · subst hq; simp [h₁]
  · simp [h₁, h₀, hq]

/-- Linking succeeds at a free path in a directory that exists. -/
theorem link_ok {t : FileTree ι} {p : Str} (i : ι) (hn : t.get p = none) (hp : t.HasParents p) :
    ∃ t', t.link p i = .ok t' ∧ ∀ q, t'.get q = if q = p then some (.file i) else t.get q := by
  unfold link
  split
  · rename_i e h; rw [hn] at h; cases h
  · rename_i h
    exact ⟨t.insert p (.file i) hp h, by rw [dif_pos hp], fun q => get_insert ..⟩

/-- Removing a file succeeds. -/
theorem remove_ok {t : FileTree ι} {p : Str} {i : ι} (h : t.fileAt p = some i) :
    ∃ t', t.remove p = .ok t' ∧ ∀ q, t'.get q = if q = p then none else t.get q := by
  rw [fileAt_iff] at h
  unfold remove
  split
  · rename_i j hj
    exact ⟨t.erase p j hj, rfl, fun q => get_erase ..⟩
  · rename_i hj; rw [h] at hj; cases hj
  · rename_i hj; rw [h] at hj; cases hj

end FileTree

end Lib
