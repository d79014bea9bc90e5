import TrustedReleases.Catalogue.Rows
import TrustedReleases.Dist.Analysis
import TrustedReleases.Lib.PathTree

/-!
# Deleting a file of a draft

`delete_file` changes the copy of the files that a new revision is made of: the file goes, and with an artifact the
files whose names continue its name after a dot.  These are looked for below the artifact's directory, relative to it,
but removed relative to the revision.  So nothing but the artifact's own files goes exactly when it lies at the top and
no directory has such files, or it lies in a directory at or below which there are none (`deletes_own_iff`).
-/

namespace TrustedReleases

open Lib

namespace Draft

variable {ι : Type}

/-! ### Paths -/

/-- `str(path)` -/
def pathText (p : Path) : Str := ['/'].intercalate p

/-- `path.name` -/
def nameOf (p : Path) : Str := p.getLast?.getD []

/-- `path.parent` -/
def parentOf (p : Path) : Path := p.dropLast

/-- The path of a file that `RelPath` admits. -/
def Admitted (p : Path) : Prop := (∀ name ∈ p, name ≠ [] ∧ '/' ∉ name) ∧ Catalogue.IsRelPath (pathText p)

theorem pathText_append {d p : Path} (hd : d ≠ []) (hp : p ≠ []) : pathText (d ++ p) = pathText d ++ '/' :: pathText p := by
  induction d with
  | nil => exact absurd rfl hd
  | cons name d ih =>
    cases d with
    | nil =>
      cases p with
      | nil => exact absurd rfl hp
      | cons first p => simp [pathText, List.intercalate]
    | cons next d =>
      have hrest := ih (by simp)
      simp only [pathText, List.intercalate, List.cons_append, List.intersperse_cons_cons, List.flatten_cons] at hrest ⊢
      rw [hrest]
      simp

/-- What is below a directory has an admitted path relative to it. -/
theorem Admitted.below {d p : Path} (h : Admitted (d ++ p)) (hp : p ≠ []) : Admitted p := by
  by_cases hd : d = []
  · simpa [hd] using h
  · obtain ⟨hnames, -, hchars, -, hslashes, hsegments⟩ := h
    have hnames' : ∀ name ∈ p, name ≠ [] ∧ '/' ∉ name := fun name hname => hnames name (List.mem_append_right d hname)
    rw [pathText_append hd hp] at hchars hslashes
    have hfirst : pathText p ≠ [] ∧ ¬ "/".toList <+: pathText p := by
      cases p with
      | nil => exact absurd rfl hp
      | cons first p =>
        obtain ⟨hne, hslash⟩ := hnames' first List.mem_cons_self
        obtain ⟨c, first', rfl⟩ := List.exists_cons_of_ne_nil hne
        have hc : c ≠ '/' := fun heq => hslash (by simp [heq])
        have htext : ∃ s, pathText ((c :: first') :: p) = c :: s := by
          cases p with
          | nil => exact ⟨first', by simp [pathText, List.intercalate]⟩
          | cons next p => exact ⟨first' ++ '/' :: pathText (next :: p), by simp [pathText, List.intercalate]⟩
        obtain ⟨s, hs⟩ := htext
        rw [hs]
        refine ⟨by simp, fun hprefix => ?_⟩
        have heq := (List.cons_prefix_cons.1 hprefix).1
        exact hc heq.symm
    have hall : (pathText p).all Catalogue.isPathChar = true := by
      rw [List.all_append, List.all_cons, Bool.and_eq_true, Bool.and_eq_true] at hchars
      exact hchars.2.2
    refine ⟨hnames', hfirst.1, hall, hfirst.2, fun hinfix => hslashes ?_, ?_⟩
    · exact hinfix.trans ⟨pathText d ++ ['/'], [], by simp⟩
    · intro segment hsegment
      have hsplit : ∀ q : Path, q ≠ [] → (∀ name ∈ q, name ≠ [] ∧ '/' ∉ name) → (pathText q).splitOn '/' = q := by
        intro q hq hqnames
        exact List.splitOn_intercalate '/' (fun name hname => (hqnames name hname).2) hq
      rw [hsplit p hp hnames'] at hsegment
      refine hsegments segment ?_
      rw [hsplit (d ++ p) (by simp [hd]) hnames]
      exact List.mem_append_right d hsegment

/-! ### The source -/

inductive ModifyError where
  | access (message : Str) (status : Nat)
  | value (message : Str)
  | os (error : OsError)
  deriving DecidableEq, Repr

structure DeleteFileResult where
  wasDirectory : Bool
  metadataFilesDeleted : Nat
  deriving DecidableEq, Repr

/-- The file's name continues the other one after a dot. -/
def IsMetadataName (name : Str) (p : Path) : Prop := name ++ ['.'] <+: nameOf p

instance IsMetadataName.decidable (name : Str) (p : Path) : Decidable (IsMetadataName name p) :=
  inferInstanceAs (Decidable (_ <+: _))

/-- One path that the walk below `parent` yields: `paths_recursive` passes over what is not a file, or not any more. -/
def deleteMetadata (name : Str) (parent : Path) (s : PathTree ι × Nat) (p : Path) :
    Except ModifyError (PathTree ι × Nat) :=
  match s.1.fileAt (parent ++ p) with
  | none => .ok s
  | some _ => do
    raiseIf (¬ Catalogue.IsRelPath (pathText p)) (.value ("Unsafe relative path ".toList ++ pathText p))
    if IsMetadataName name p then do
      -- the path is relative to the parent, and is taken from the top of the revision
      let t ← (s.1.remove p).mapError .os
      .ok (t, s.2 + 1)
    else .ok s

/-- `modify` of `delete_file`, in the directory of a new revision. -/
def deleteFile (revision : Str) (t : PathTree ι) (relPathToDelete : Path) :
    Except ModifyError (PathTree ι × DeleteFileResult) := do
  raiseIf ((t.get relPathToDelete).isNone)
    (.access "File to delete was not found in the new revision".toList 500)
  if t.isDir relPathToDelete then do
    let t ← (t.rmdir relPathToDelete).mapError .os
    .ok (t, ⟨true, 0⟩)
  else do
    let parent := parentOf relPathToDelete
    let s ← (if Dist.isArtifact (revision ++ '/' :: pathText relPathToDelete) then t.walk parent else []).foldlM
      (deleteMetadata (nameOf relPathToDelete) parent) (t, 0)
    let t ← (s.1.remove relPathToDelete).mapError .os
    .ok (t, ⟨false, s.2⟩)

/-! ### The files that go -/

/-- Another file of the same directory whose name continues that of the file after a dot. -/
def IsOwnFile (t : PathTree ι) (file p : Path) : Prop :=
  parentOf p = parentOf file ∧ IsMetadataName (nameOf file) p ∧ (t.fileAt p).isSome

/-- The file goes, its own files with it if it is an artifact, and nothing else. -/
def DeletesOwn (revision : Str) (t : PathTree ι) (file : Path) : Prop :=
  ∃ t' result, deleteFile revision t file = .ok (t', result) ∧
    (∀ p, p = file ∨ (Dist.isArtifact (revision ++ '/' :: pathText file) = true ∧ IsOwnFile t file p) →
      t'.get p = none) ∧
    ∀ p, ¬ (p = file ∨ (Dist.isArtifact (revision ++ '/' :: pathText file) = true ∧ IsOwnFile t file p)) →
      t'.get p = t.get p

/-- For an artifact at the top, no directory has a file whose name continues its name; for one in a directory, there is
no such file at or below that directory. -/
def OnlyAtTop (t : PathTree ι) (file : Path) : Prop :=
  ∀ p, (t.fileAt (parentOf file ++ p)).isSome → IsMetadataName (nameOf file) p →
    parentOf file = [] ∧ parentOf p = []

section Loop

variable {t t' : PathTree ι} {name : Str} {parent : Path} {n n' : Nat} {list : List Path}

theorem nameOf_append {d p : Path} (hp : p ≠ []) : nameOf (d ++ p) = nameOf p := by
  unfold nameOf
  rw [List.getLast?_append_of_ne_nil _ hp]

private theorem not_isMetadataName_self (p : Path) : ¬ IsMetadataName (nameOf p) p := by
  intro h
  have := h.length_le
  simp at this

/-- The walk comes to a file with such a name: the file at that path from the top is removed. -/
private theorem deleteMetadata_file {s : PathTree ι × Nat} {p : Path} {i : ι}
    (hfile : s.1.fileAt (parent ++ p) = some i)
    (hsafe : Catalogue.IsRelPath (pathText p)) (hname : IsMetadataName name p) :
    deleteMetadata name parent s p = ((s.1.remove p).mapError .os).bind fun t => .ok (t, s.2 + 1) := by
  unfold deleteMetadata
  rw [hfile]
  simp [raiseIf, hsafe, hname]
  rfl

/-- The walk comes to anything else. -/
private theorem deleteMetadata_other {s : PathTree ι × Nat} {p : Path}
    (hsafe : (s.1.fileAt (parent ++ p)).isSome → Catalogue.IsRelPath (pathText p))
    (hother : (s.1.fileAt (parent ++ p)).isSome → ¬ IsMetadataName name p) : deleteMetadata name parent s p = .ok s := by
  unfold deleteMetadata
  cases hfile : s.1.fileAt (parent ++ p) with
  | none => rfl
  | some i =>
    rw [hfile] at hsafe hother
    simp [raiseIf, hsafe rfl, hother rfl]

/-- Files only go. -/
private theorem deleteMetadata_shrinks {s s' : PathTree ι × Nat} {p : Path}
    (h : deleteMetadata name parent s p = .ok s') :
    ∀ q, s'.1.get q = s.1.get q ∨ s'.1.get q = none := by
  unfold deleteMetadata at h
  intro q
  split at h
  · obtain rfl := Except.ok.inj h
    exact .inl rfl
  · obtain ⟨-, h⟩ := raiseIf_bind_eq_ok.1 h
    split at h
    · obtain ⟨t, hremove, h⟩ := bind_eq_ok h
      obtain rfl := Except.ok.inj h
      have hget := (PathTree.of_remove (mapError_eq_ok.1 hremove)).2 q
      by_cases hq : q = p
      · rw [if_pos hq] at hget
        exact .inr hget
      · rw [if_neg hq] at hget
        exact .inl hget
    · obtain rfl := Except.ok.inj h
      exact .inl rfl

private theorem loop_shrinks {s s' : PathTree ι × Nat} (h : list.foldlM (deleteMetadata name parent) s = .ok s') :
    ∀ q, s'.1.get q = s.1.get q ∨ s'.1.get q = none := by
  induction list generalizing s with
  | nil =>
    obtain rfl := Except.ok.inj h
    exact fun q => .inl rfl
  | cons p list ih =>
    rw [List.foldlM_cons] at h
    obtain ⟨s₁, hstep, hrest⟩ := bind_eq_ok h
    intro q
    have hone := deleteMetadata_shrinks hstep q
    rcases ih hrest q with hq | hq
    · rw [hq]
      exact hone
    · exact .inr hq

/-- Where no path of the list is a file with such a name, nothing happens. -/
private theorem loop_nothing (hsafe : ∀ p ∈ list, (t.fileAt (parent ++ p)).isSome → Catalogue.IsRelPath (pathText p))
    (hnone : ∀ p ∈ list, (t.fileAt (parent ++ p)).isSome → ¬ IsMetadataName name p) :
    list.foldlM (deleteMetadata name parent) (t, n) = .ok (t, n) := by
  induction list with
  | nil => rfl
  | cons p list ih =>
    rw [List.forall_mem_cons] at hsafe hnone
    have hstep : deleteMetadata name parent (t, n) p = .ok (t, n) := deleteMetadata_other hsafe.1 hnone.1
    rw [List.foldlM_cons, hstep, ok_bind]
    exact ih hsafe.2 hnone.2

/-- At the top, every file of the list with such a name goes. -/
private theorem loop_top (hsafe : ∀ p ∈ list, (t.fileAt p).isSome → Catalogue.IsRelPath (pathText p)) :
    ∃ t' n', list.foldlM (deleteMetadata name []) (t, n) = .ok (t', n') ∧
      (∀ p, p ∈ list ∧ (t.fileAt p).isSome ∧ IsMetadataName name p → t'.get p = none) ∧
      ∀ p, ¬ (p ∈ list ∧ (t.fileAt p).isSome ∧ IsMetadataName name p) → t'.get p = t.get p := by
  induction list generalizing t n with
  | nil => exact ⟨t, n, rfl, by simp, fun _ _ => rfl⟩
  | cons p list ih =>
    rw [List.forall_mem_cons] at hsafe
    by_cases hgoes : (t.fileAt p).isSome ∧ IsMetadataName name p
    · obtain ⟨i, hfile⟩ := Option.isSome_iff_exists.1 hgoes.1
      obtain ⟨t₁, hremove, hget⟩ := PathTree.remove_ok hfile
      have hstep : deleteMetadata name [] (t, n) p = .ok (t₁, n + 1) := by
        rw [deleteMetadata_file hfile (hsafe.1 hgoes.1) hgoes.2, hremove]
        rfl
      have hfileAt : ∀ q, t₁.fileAt q = if q = p then none else t.fileAt q := by
        intro q
        unfold PathTree.fileAt
        by_cases hq : q = p
        · rw [hget q, if_pos hq, if_pos hq]
        · rw [hget q, if_neg hq, if_neg hq]
      have hsafe₁ : ∀ q ∈ list, (t₁.fileAt q).isSome → Catalogue.IsRelPath (pathText q) := by
        intro q hq hsome
        rw [hfileAt q] at hsome
        split at hsome
        · cases hsome
        · exact hsafe.2 q hq hsome
      obtain ⟨t', n', hloop, hgone, hkept⟩ := ih (n := n + 1) hsafe₁
      refine ⟨t', n', by rw [List.foldlM_cons, hstep, ok_bind]; exact hloop, fun q hq => ?_, fun q hq => ?_⟩
      · by_cases hqp : q = p
        · have hnone : t₁.get q = none := by rw [hget, if_pos hqp]
          rcases loop_shrinks hloop q with heq | heq
          · rw [heq, hnone]
          · exact heq
        · refine hgone q ⟨(List.mem_cons.1 hq.1).resolve_left hqp, ?_, hq.2.2⟩
          rw [hfileAt, if_neg hqp]
          exact hq.2.1
      · have hqp : q ≠ p := by
          intro heq
          rw [heq] at hq
          exact hq ⟨List.mem_cons_self, hgoes⟩
        rw [hkept q, hget, if_neg hqp]
        intro hin
        rw [hfileAt, if_neg hqp] at hin
        exact hq ⟨List.mem_cons_of_mem _ hin.1, hin.2⟩
    · have hstep : deleteMetadata name [] (t, n) p = .ok (t, n) :=
        deleteMetadata_other hsafe.1 fun hsome hname => hgoes ⟨hsome, hname⟩
      obtain ⟨t', n', hloop, hgone, hkept⟩ := ih (n := n) hsafe.2
      refine ⟨t', n', by rw [List.foldlM_cons, hstep, ok_bind]; exact hloop, fun q hq => ?_, fun q hq => ?_⟩
      · rcases List.mem_cons.1 hq.1 with rfl | hmem
        · exact absurd hq.2 hgoes
        · exact hgone q ⟨hmem, hq.2⟩
      · exact hkept q fun hin => hq ⟨List.mem_cons_of_mem _ hin.1, hin.2⟩

/-- The first path of the list that is a file with such a name is removed from the top of the revision. -/
private theorem loop_first (hsafe : ∀ p ∈ list, (t.fileAt (parent ++ p)).isSome → Catalogue.IsRelPath (pathText p))
    (hloop : list.foldlM (deleteMetadata name parent) (t, n) = .ok (t', n'))
    (hsome : ∃ p ∈ list, (t.fileAt (parent ++ p)).isSome ∧ IsMetadataName name p) :
    ∃ before p after, list = before ++ p :: after ∧
      (∀ q ∈ before, ¬ ((t.fileAt (parent ++ q)).isSome ∧ IsMetadataName name q)) ∧
      (t.fileAt (parent ++ p)).isSome ∧ IsMetadataName name p ∧ (t.fileAt p).isSome ∧ t'.get p = none := by
  induction list with
  | nil =>
    obtain ⟨p, hp, -⟩ := hsome
    cases hp
  | cons p list ih =>
    rw [List.forall_mem_cons] at hsafe
    rw [List.foldlM_cons] at hloop
    by_cases hgoes : (t.fileAt (parent ++ p)).isSome ∧ IsMetadataName name p
    · obtain ⟨i, hfile⟩ := Option.isSome_iff_exists.1 hgoes.1
      rw [deleteMetadata_file hfile (hsafe.1 hgoes.1) hgoes.2] at hloop
      obtain ⟨s₁, hstep, hrest⟩ := bind_eq_ok hloop
      obtain ⟨t₁, hremove, hstep⟩ := bind_eq_ok hstep
      obtain rfl := Except.ok.inj hstep
      obtain ⟨⟨j, hremoved⟩, hget⟩ := PathTree.of_remove (mapError_eq_ok.1 hremove)
      refine ⟨[], p, list, rfl, by simp, hgoes.1, hgoes.2, by rw [hremoved]; rfl, ?_⟩
      have hnone : t₁.get p = none := by rw [hget, if_pos rfl]
      rcases loop_shrinks hrest p with heq | heq
      · rw [heq]
        exact hnone
      · exact heq
    · have hstep : deleteMetadata name parent (t, n) p = .ok (t, n) :=
        deleteMetadata_other hsafe.1 fun hsome hname => hgoes ⟨hsome, hname⟩
      rw [hstep, ok_bind] at hloop
      obtain ⟨q, hq, hqgoes⟩ := hsome
      have hmem : q ∈ list := by
        rcases List.mem_cons.1 hq with rfl | hmem
        · exact absurd hqgoes hgoes
        · exact hmem
      obtain ⟨before, p', after, rfl, hbefore, hrest⟩ := ih hsafe.2 hloop ⟨q, hmem, hqgoes⟩
      refine ⟨p :: before, p', after, rfl, ?_, hrest⟩
      rw [List.forall_mem_cons]
      exact ⟨hgoes, hbefore⟩

end Loop

section Delete

variable {t t' : PathTree ι} {revision : Str} {file : Path} {i : ι}

/-- The paths that the walk for an artifact yields. -/
def metadataWalk (revision : Str) (t : PathTree ι) (file : Path) : List Path :=
  if Dist.isArtifact (revision ++ '/' :: pathText file) then t.walk (parentOf file) else []

/-- A file is deleted: the loop over what is below its directory, and then the file. -/
private theorem deleteFile_file (hfile : t.fileAt file = some i) :
    deleteFile revision t file =
      ((metadataWalk revision t file).foldlM (deleteMetadata (nameOf file) (parentOf file)) (t, 0) >>= fun s =>
        (s.1.remove file).mapError .os >>= fun t' => .ok (t', ⟨false, s.2⟩)) := by
  have hget := PathTree.fileAt_eq_some.1 hfile
  have hdir : t.isDir file = false := by simp [PathTree.isDir, hget]
  unfold deleteFile
  rw [hget, hdir]
  simp [raiseIf]
  rfl

theorem parentOf_append_nameOf {p : Path} (hp : p ≠ []) : parentOf p ++ [nameOf p] = p := by
  obtain ⟨d, name, rfl⟩ : ∃ d name, p = d ++ [name] := ⟨p.dropLast, p.getLast hp, (List.dropLast_append_getLast hp).symm⟩
  simp [parentOf, nameOf]

private theorem parent_isDir (hfile : t.fileAt file = some i) : t.get (parentOf file) = some .dir := by
  have hget := PathTree.fileAt_eq_some.1 hfile
  rw [← parentOf_append_nameOf (PathTree.ne_nil_of_fileAt hfile)] at hget
  exact PathTree.isDir_above hget (by simp)

/-- The loop leaves the file, which goes afterwards. -/
private theorem deletesOwn_of_loop {t₁ : PathTree ι} {n : Nat} (hfile : t.fileAt file = some i)
    (hloop : (metadataWalk revision t file).foldlM (deleteMetadata (nameOf file) (parentOf file)) (t, 0) = .ok (t₁, n))
    (hgone : ∀ p, Dist.isArtifact (revision ++ '/' :: pathText file) = true ∧ IsOwnFile t file p → t₁.get p = none)
    (hkept : ∀ p, ¬ (Dist.isArtifact (revision ++ '/' :: pathText file) = true ∧ IsOwnFile t file p) →
      t₁.get p = t.get p) : DeletesOwn revision t file := by
  have hself : ¬ IsOwnFile t file file := fun h => not_isMetadataName_self file h.2.1
  have hfile₁ : t₁.fileAt file = some i := by
    rw [PathTree.fileAt_eq_of_get (hkept file fun h => hself h.2)]
    exact hfile
  obtain ⟨t', hremove, hget⟩ := PathTree.remove_ok hfile₁
  refine ⟨t', ⟨false, n⟩, ?_, fun p hp => ?_, fun p hp => ?_⟩
  · rw [deleteFile_file hfile, hloop, ok_bind, hremove]
    rfl
  · rw [hget]
    rcases hp with hp | hp
    · exact if_pos hp
    · split
      · rfl
      · exact hgone p hp
  · rw [not_or] at hp
    rw [hget, if_neg hp.1]
    exact hkept p hp.2

/-- An artifact's own files, and the ones that the loop takes for them. -/
private theorem deletesOwn_of_onlyAtTop (hfile : t.fileAt file = some i) (hsafe : ∀ p, (t.fileAt p).isSome → Admitted p)
    (h : Dist.isArtifact (revision ++ '/' :: pathText file) = true → OnlyAtTop t file) :
    DeletesOwn revision t file := by
  have hparent := parent_isDir hfile
  have hsafe' : ∀ p ∈ t.walk (parentOf file), (t.fileAt (parentOf file ++ p)).isSome →
      Catalogue.IsRelPath (pathText p) := by
    intro p hp hsome
    exact ((hsafe _ hsome).below ((PathTree.mem_walk hparent).1 hp).1).2
  by_cases hartifact : Dist.isArtifact (revision ++ '/' :: pathText file) = true
  · have hlist : metadataWalk revision t file = t.walk (parentOf file) := if_pos hartifact
    have honly := h hartifact
    by_cases htop : parentOf file = []
    · rw [htop] at hsafe'
      simp only [List.nil_append] at hsafe'
      obtain ⟨t₁, n, hloop, hgone, hkept⟩ := @loop_top ι t (nameOf file) 0 (t.walk []) hsafe'
      have hiff : ∀ p, (p ∈ t.walk [] ∧ (t.fileAt p).isSome ∧ IsMetadataName (nameOf file) p) ↔ IsOwnFile t file p := by
        intro p
        unfold IsOwnFile
        rw [htop]
        constructor
        · intro hp
          have hboth := honly p (by rw [htop]; exact hp.2.1) hp.2.2
          exact ⟨hboth.2, hp.2.2, hp.2.1⟩
        · intro hp
          obtain ⟨j, hj⟩ := Option.isSome_iff_exists.1 hp.2.2
          refine ⟨(PathTree.mem_walk (PathTree.get_nil t)).2 ⟨PathTree.ne_nil_of_fileAt hj, ?_⟩, hp.2.2, hp.2.1⟩
          rw [List.nil_append, PathTree.fileAt_eq_some.1 hj]
          rfl
      refine deletesOwn_of_loop (n := n) hfile (by rw [hlist, htop]; exact hloop) (fun p hp => ?_) fun p hp => ?_
      · exact hgone p ((hiff p).2 hp.2)
      · exact hkept p fun hin => hp ⟨hartifact, (hiff p).1 hin⟩
    · have hnone : ∀ p, (t.fileAt (parentOf file ++ p)).isSome → ¬ IsMetadataName (nameOf file) p := by
        intro p hsome hname
        exact htop (honly p hsome hname).1
      have hloop := loop_nothing (n := 0) hsafe' fun p _ => hnone p
      refine deletesOwn_of_loop hfile (by rw [hlist]; exact hloop) (fun p hp => ?_) fun p _ => rfl
      obtain ⟨hp, hname, hsome⟩ := hp.2
      obtain ⟨j, hj⟩ := Option.isSome_iff_exists.1 hsome
      rw [← parentOf_append_nameOf (PathTree.ne_nil_of_fileAt hj), hp] at hsome hname
      rw [IsMetadataName, nameOf_append (by simp)] at hname
      exact absurd hname (hnone [nameOf p] hsome)
  · have hlist : metadataWalk revision t file = [] := if_neg hartifact
    refine deletesOwn_of_loop (n := 0) hfile (by rw [hlist]; rfl) (fun p hp => ?_) fun p _ => rfl
    exact absurd hp.1 hartifact

/-- The walk finds files that are not the artifact's own, or looks for them in the wrong place. -/
private theorem onlyAtTop_of_deletesOwn (hfile : t.fileAt file = some i) (hsafe : ∀ p, (t.fileAt p).isSome → Admitted p)
    (h : DeletesOwn revision t file) (hartifact : Dist.isArtifact (revision ++ '/' :: pathText file) = true) :
    OnlyAtTop t file := by
  have hparent := parent_isDir hfile
  have hsafe' : ∀ p ∈ t.walk (parentOf file), (t.fileAt (parentOf file ++ p)).isSome →
      Catalogue.IsRelPath (pathText p) := by
    intro p hp hsome
    exact ((hsafe _ hsome).below ((PathTree.mem_walk hparent).1 hp).1).2
  have hlist : metadataWalk revision t file = t.walk (parentOf file) := if_pos hartifact
  obtain ⟨t', result, hdelete, -, hkept⟩ := h
  rw [deleteFile_file hfile, hlist] at hdelete
  obtain ⟨⟨t₁, n⟩, hloop, hdelete⟩ := bind_eq_ok hdelete
  obtain ⟨t₂, hremove, hdelete⟩ := bind_eq_ok hdelete
  obtain ⟨rfl, -⟩ := Prod.mk.inj (Except.ok.inj hdelete)
  have hget := (PathTree.of_remove (mapError_eq_ok.1 hremove)).2
  -- what the loop has removed is one of the artifact's own files
  have hown : ∀ p, (t.fileAt p).isSome → IsMetadataName (nameOf file) p → t₁.get p = none → IsOwnFile t file p := by
    intro p hsome hname hnone
    obtain ⟨j, hj⟩ := Option.isSome_iff_exists.1 hsome
    by_contra hnot
    have hne : p ≠ file := by
      intro heq
      rw [heq] at hname
      exact not_isMetadataName_self file hname
    have hstays := hkept p fun hor => hor.elim hne fun hand => hnot hand.2
    rw [hget, if_neg hne, hnone, PathTree.fileAt_eq_some.1 hj] at hstays
    cases hstays
  intro p hsome hname
  obtain ⟨j, hj⟩ := Option.isSome_iff_exists.1 hsome
  have hpne : p ≠ [] := by
    intro heq
    rw [heq, List.append_nil, PathTree.fileAt_eq_some, hparent] at hj
    cases hj
  have hmem : p ∈ t.walk (parentOf file) := by
    refine (PathTree.mem_walk hparent).2 ⟨hpne, ?_⟩
    rw [PathTree.fileAt_eq_some.1 hj]
    rfl
  by_cases htop : parentOf file = []
  · refine ⟨htop, ?_⟩
    rw [htop] at hloop hsafe' hmem hsome
    simp only [List.nil_append] at hsafe' hsome
    obtain ⟨t₃, n₃, hloop₃, hgone, -⟩ := @loop_top ι t (nameOf file) 0 (t.walk []) hsafe'
    obtain ⟨rfl, -⟩ := Prod.mk.inj (Except.ok.inj (hloop.symm.trans hloop₃))
    have hthis := (hown p hsome hname (hgone p ⟨hmem, hsome, hname⟩)).1
    rw [hthis, htop]
  · -- the first path that is removed lies in a directory, but the walk comes to an own file before
    exfalso
    obtain ⟨before, q, after, hsplit, hbefore, -, hqname, hqsome, hqnone⟩ := loop_first hsafe' hloop ⟨p, hmem, hsome, hname⟩
    have hq := hown q hqsome hqname hqnone
    obtain ⟨k, hk⟩ := Option.isSome_iff_exists.1 hqsome
    have hqeq := parentOf_append_nameOf (PathTree.ne_nil_of_fileAt hk)
    rw [hq.1] at hqeq
    have hqlength : q.length ≠ 1 := by
      intro hlength
      have hpos := List.length_pos_iff.2 htop
      rw [← hqeq, List.length_append, List.length_singleton] at hlength
      omega
    have hdirect : [nameOf q] ∈ t.walk (parentOf file) := by
      refine (PathTree.mem_walk hparent).2 ⟨by simp, ?_⟩
      rw [hqeq, PathTree.fileAt_eq_some.1 hk]
      rfl
    obtain ⟨first, rest, hwalk, hfirst, hrest⟩ := PathTree.walk_split hparent
    have hinFirst : [nameOf q] ∈ first := by
      rw [hwalk] at hdirect
      exact (List.mem_append.1 hdirect).resolve_right fun hin => hrest _ hin rfl
    have hinBefore : [nameOf q] ∈ before := by
      rw [hwalk] at hsplit
      rcases List.append_eq_append_iff.1 hsplit with ⟨middle, hmiddle, -⟩ | ⟨middle, hmiddle, hafter⟩
      · rw [hmiddle]
        exact List.mem_append_left _ hinFirst
      · cases middle with
        | nil =>
          rw [List.append_nil] at hmiddle
          rwa [hmiddle] at hinFirst
        | cons head middle =>
          have hhead : q = head := by
            simp only [List.cons_append, List.cons.injEq] at hafter
            exact hafter.1
          have hq1 := hfirst q (by rw [hmiddle, hhead]; simp)
          exact absurd hq1 hqlength
    refine hbefore _ hinBefore ⟨by rw [hqeq]; exact hqsome, ?_⟩
    exact hqname

end Delete

/-- Deleting a file deletes exactly its own files if and only if it is no artifact, or it is one at the top and no
directory has a file whose name continues its name, or it is one in a directory at or below which there is no such
file. -/
theorem deletes_own_iff {t : PathTree ι} {revision : Str} {file : Path} {i : ι} (hfile : t.fileAt file = some i)
    (hsafe : ∀ p, (t.fileAt p).isSome → Admitted p) :
    DeletesOwn revision t file ↔
      (Dist.isArtifact (revision ++ '/' :: pathText file) = true → OnlyAtTop t file) :=
  ⟨onlyAtTop_of_deletesOwn hfile hsafe, deletesOwn_of_onlyAtTop hfile hsafe⟩

instance Admitted.decidable (p : Path) : Decidable (Admitted p) := inferInstanceAs (Decidable (_ ∧ _))

/-- An artifact at the top and its signature. -/
def signedAtTop : PathTree Nat :=
  (PathTree.empty.insert ["a.tar.gz".toList] (.file 1) (by simp) rfl).insert ["a.tar.gz.asc".toList] (.file 2) (by simp) rfl

/-- Both go. -/
theorem deletes_own_at_top : DeletesOwn "/revisions/00001".toList signedAtTop ["a.tar.gz".toList] := by
  have hfile : signedAtTop.fileAt ["a.tar.gz".toList] = some 1 := by decide +kernel
  have hsafe : ∀ row ∈ signedAtTop.table.rows, Admitted row.1 := by decide +kernel
  have honly : ∀ row ∈ signedAtTop.table.rows, parentOf row.1 = [] := by decide +kernel
  exact (deletes_own_iff hfile (PathTree.forall_fileAt hsafe)).2 fun _ p hsome _ =>
    ⟨rfl, PathTree.forall_fileAt (P := fun p => parentOf p = []) honly p hsome⟩

/-- An artifact in a directory and its signature. -/
def signedInDirectory : PathTree Nat :=
  ((PathTree.empty.insert ["d".toList] .dir (by simp) rfl).insert ["d".toList, "a.tar.gz".toList] (.file 1) (by simp)
    (by decide +kernel)).insert ["d".toList, "a.tar.gz.asc".toList] (.file 2) (by simp) (by decide +kernel)

/-- The signature is looked for at the top of the revision, and the deletion fails. -/
theorem not_deletes_own_in_directory :
    signedInDirectory.fileAt ["d".toList, "a.tar.gz".toList] = some 1 ∧
      (∀ p, (signedInDirectory.fileAt p).isSome → Admitted p) ∧
      ¬ DeletesOwn "/revisions/00001".toList signedInDirectory ["d".toList, "a.tar.gz".toList] := by
  have hsafe : ∀ row ∈ signedInDirectory.table.rows, Admitted row.1 := by decide +kernel
  refine ⟨by decide +kernel, PathTree.forall_fileAt hsafe, fun h => ?_⟩
  obtain ⟨t', result, hdelete, -⟩ := h
  have herror : (deleteFile "/revisions/00001".toList signedInDirectory ["d".toList, "a.tar.gz".toList]).toOption.isNone =
      true := by decide +kernel
  rw [hdelete] at herror
  cases herror

end Draft

end TrustedReleases
