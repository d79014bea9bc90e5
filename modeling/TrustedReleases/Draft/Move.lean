import TrustedReleases.Draft.Delete

/-!
# Moving files of a draft

`move_file` takes files and directories of a draft to a directory, one after the other.  A file goes with its
signature and its checksums, which are found from its name, or from the name without one of their suffixes.
-/

namespace TrustedReleases

open Lib

namespace Draft

variable {ι : Type}

/-! ### The source -/

/-- `datatypes.FailedError`, or an error of the system. -/
inductive MoveError where
  | failed (message : Str)
  | os (error : OsError)
  deriving DecidableEq, Repr

def SPECIAL_SUFFIXES : List Str := [".asc".toList, ".sha256".toList, ".sha512".toList]

/-- The name of `path.with_suffix("")`, if the suffix is a special one, and of `path` otherwise. -/
def baseName (name : Str) : Str :=
  match SPECIAL_SUFFIXES.find? fun suffix => decide (suffix <:+ name ∧ suffix ≠ name) with
  | some suffix => name.take (name.length - suffix.length)
  | none => name

/-- `__related_files` -/
def relatedFiles (path : Path) : List Path :=
  let parentDir := parentOf path
  let nameWithoutExt := baseName (nameOf path)
  [parentDir ++ [nameWithoutExt],
    parentDir ++ [nameWithoutExt ++ ".asc".toList],
    parentDir ++ [nameWithoutExt ++ ".sha256".toList],
    parentDir ++ [nameWithoutExt ++ ".sha512".toList]]

/-- The files of the new revision, with the names for the answer. -/
structure Moving (ι : Type) where
  tree : PathTree ι
  movedFilesNames : List Str
  skippedFilesNames : List Str

/-- The related files that are there. -/
def bundleOf (t : PathTree ι) (source : Path) : List Path := (relatedFiles source).filter fun f => (t.get f).isSome

/-- One file of a bundle. -/
def renameInto (target : Path) (t : PathTree ι) (f : Path) : Except MoveError (PathTree ι) :=
  (t.rename f (target ++ [nameOf f])).mapError .os

/-- `__setup_revision_item` -/
def setupRevisionItem (target : Path) (s : Moving ι) (source : Path) : Except MoveError (Moving ι) :=
  if parentOf source = target then .ok { s with skippedFilesNames := s.skippedFilesNames ++ [nameOf source] }
  else if s.tree.isDir source then do
    raiseIf (source <+: target) (.failed "Cannot move a directory into itself or a subdirectory of itself".toList)
    raiseIf ((s.tree.get (target ++ [nameOf source])).isSome) (.failed "Target name already exists".toList)
    let t ← (s.tree.rename source (target ++ [nameOf source])).mapError .os
    .ok { s with tree := t, movedFilesNames := s.movedFilesNames ++ [nameOf source] }
  else do
    let bundle := bundleOf s.tree source
    raiseIf (∃ f ∈ bundle, s.tree.isDir f) (.failed "A related 'file' is actually a directory".toList)
    raiseIf (∃ f ∈ bundle, (s.tree.get (target ++ [nameOf f])).isSome)
      (.failed "A related file already exists in the target directory".toList)
    let t ← bundle.foldlM (renameInto target) s.tree
    .ok { s with
      tree := t
      movedFilesNames := s.movedFilesNames ++ (bundle.filter fun f => f = source).map nameOf }

/-- `is_disallowed_dotfile` -/
def isDisallowedDotfile (segment : Str) : Bool :=
  decide (".".toList <+: segment ∧ ¬ ".atr".toList <+: segment ∧ segment ≠ ".gitkeep".toList)

/-- A directory with a disallowed name is not made. -/
def checkSegment (part : Str) : Except MoveError Unit := do
  raiseIf (isDisallowedDotfile part) (.failed "This segment is a disallowed dotfile".toList)
  raiseIf ("..".toList <:+: part) (.failed "Segments must not contain '..'".toList)

/-- The target directory is made, if it is not there; `revision` is the path of the new revision's directory. -/
def prepareTarget (revision : Path) (t : PathTree ι) (target : Path) : Except MoveError (PathTree ι) :=
  if (t.get target).isNone then do
    (revision ++ target).forM checkSegment
    (t.makedirs target).mapError fun _ => .failed "Failed to create target directory".toList
  else if t.isDir target then .ok t
  else .error (.failed "Target path is not a directory".toList)

/-- `__setup_revision` -/
def setupRevision (revision : Path) (t : PathTree ι) (sources : List Path) (target : Path) :
    Except MoveError (Moving ι) := do
  let t ← prepareTarget revision t target
  sources.foldlM (setupRevisionItem target) ⟨t, [], []⟩

/-- `move_file`: the files of the revision before are changed, and become a revision if that goes well.  The answer is
an error, or the names of what was moved and of what was skipped. -/
def moveFile (revision : Path) (revisions : List (PathTree ι)) (t : PathTree ι) (sources : List Path) (target : Path) :
    Except OsError (List (PathTree ι) × Except Str (List Str × List Str)) :=
  match setupRevision revision t sources target with
  | .ok s => .ok (revisions ++ [s.tree], .ok (s.movedFilesNames, s.skippedFilesNames))
  | .error (.failed message) => .ok (revisions, .error message)
  | .error (.os error) => .error error

/-! ### Where paths go -/

/-- Where one item takes a path: with a directory, as a file of a bundle, or nowhere. -/
def takes (t : PathTree ι) (target source p : Path) : Path :=
  if parentOf source = target then p
  else if t.isDir source then PathTree.moved source (target ++ [nameOf source]) p
  else if p ∈ bundleOf t source then target ++ [nameOf p]
  else p

/-- Where all items take a path. -/
def journey (target : Path) (s : Moving ι) : List Path → Path → Path
  | [], p => p
  | source :: rest, p =>
    match setupRevisionItem target s source with
    | .ok s' => journey target s' rest (takes s.tree target source p)
    | .error _ => p

theorem raiseIf_bind_of {ε β : Type} {p : Prop} [Decidable p] {e : ε} {f : Unit → Except ε β} (h : p) :
    (raiseIf p e >>= f) = .error e := by
  rw [raiseIf, if_pos h]
  rfl

theorem raiseIf_bind_of_not {ε β : Type} {p : Prop} [Decidable p] {e : ε} {f : Unit → Except ε β} (h : ¬ p) :
    (raiseIf p e >>= f) = f () := by
  rw [raiseIf, if_neg h]
  rfl

/-! ### One item -/

section Item

variable {t t' : PathTree ι} {s s' : Moving ι} {target source : Path} {e : MoveError}

private theorem parent_isDir_of_target (name : Str) (h : t.get target = some .dir) :
    t.get (target ++ [name]).dropLast = some .dir := by
  rwa [List.dropLast_concat]

theorem source_ne_nil (h : ¬ source <+: target) : source ≠ [] := by
  intro heq
  exact h (by rw [heq]; exact List.nil_prefix)

theorem bundleOf_parent {f : Path} (h : f ∈ bundleOf t source) : parentOf f = parentOf source ∧ (t.get f).isSome := by
  obtain ⟨hmem, hsome⟩ := List.mem_filter.1 h
  refine ⟨?_, hsome⟩
  simp only [relatedFiles, List.mem_cons, List.not_mem_nil, or_false] at hmem
  rcases hmem with rfl | rfl | rfl | rfl <;> simp [parentOf]

private theorem bundleOf_nodup : ((bundleOf t source).map nameOf).Nodup := by
  have hnames : (relatedFiles source).map nameOf =
      ([[], ".asc".toList, ".sha256".toList, ".sha512".toList] : List Str).map (baseName (nameOf source) ++ ·) := by
    simp [relatedFiles, nameOf]
  have hall : ((relatedFiles source).map nameOf).Nodup := by
    rw [hnames]
    exact List.Nodup.map (fun a b h => List.append_cancel_left h) (by decide)
  exact (List.filter_sublist.map nameOf).nodup hall

/-- Files of one directory are renamed into another one where no file has their names. -/
private theorem renameInto_ok {bundle : List Path} (htarget : t.get target = some .dir)
    (hfiles : ∀ f ∈ bundle, (t.fileAt f).isSome) (hparent : ∀ f ∈ bundle, parentOf f ≠ target)
    (hfree : ∀ f ∈ bundle, t.get (target ++ [nameOf f]) = none) (hnames : (bundle.map nameOf).Nodup) :
    ∃ t', bundle.foldlM (renameInto target) t = .ok t' ∧ t'.get target = some .dir ∧
      PathTree.FilesMoved t t' fun p => if p ∈ bundle then target ++ [nameOf p] else p := by
  induction bundle generalizing t with
  | nil => exact ⟨t, rfl, htarget, (PathTree.FilesMoved.refl t).congr fun p _ => by simp⟩
  | cons f bundle ih =>
    rw [List.forall_mem_cons] at hfiles hparent hfree
    rw [List.map_cons, List.nodup_cons] at hnames
    obtain ⟨i, hi⟩ := Option.isSome_iff_exists.1 hfiles.1
    have hsome : (t.get f).isSome := by
      rw [PathTree.fileAt_eq_some.1 hi]
      rfl
    have hbelow : ¬ f <+: target ++ [nameOf f] := by
      intro hpre
      obtain ⟨rest, hrest⟩ := hpre
      by_cases hnil : rest = []
      · rw [hnil, List.append_nil] at hrest
        refine hparent.1 ?_
        rw [hrest, parentOf, List.dropLast_concat]
      · have heq : f ++ rest.dropLast = target := by
          have hdrop := congrArg List.dropLast hrest
          rwa [List.dropLast_append_of_ne_nil hnil, List.dropLast_concat] at hdrop
        by_cases hlast : rest.dropLast = []
        · rw [hlast, List.append_nil] at heq
          rw [heq, PathTree.fileAt_eq_some, htarget] at hi
          cases hi
        · rw [← heq, PathTree.get_below_file hi hlast] at htarget
          cases htarget
    obtain ⟨t₁, hrename, hrenamed⟩ :=
      PathTree.rename_ok hsome hfree.1 (parent_isDir_of_target (nameOf f) htarget) hbelow
    have hget := hrenamed.get_file hi hfree.1
    have hstep : renameInto target t f = .ok t₁ := by
      rw [renameInto, hrename]
      rfl
    have htarget₁ : t₁.get target = some .dir := by
      rw [hget, if_neg (by simp), if_neg, htarget]
      intro heq
      rw [← heq, PathTree.fileAt_eq_some, htarget] at hi
      cases hi
    have hother : ∀ g ∈ bundle, g ≠ f ∧ nameOf g ≠ nameOf f := by
      intro g hg
      have hname : nameOf g ≠ nameOf f := fun heq => hnames.1 (heq ▸ List.mem_map.2 ⟨g, hg, rfl⟩)
      exact ⟨fun heq => hname (by rw [heq]), hname⟩
    have hinto : ∀ g ∈ bundle, g ≠ target ++ [nameOf f] := by
      intro g hg heq
      refine hparent.2 g hg ?_
      rw [heq, parentOf, List.dropLast_concat]
    have hfiles₁ : ∀ g ∈ bundle, (t₁.fileAt g).isSome := by
      intro g hg
      have hsame : t₁.get g = t.get g := by rw [hget, if_neg (hinto g hg), if_neg (hother g hg).1]
      rw [PathTree.fileAt_eq_of_get hsame]
      exact hfiles.2 g hg
    have hfree₁ : ∀ g ∈ bundle, t₁.get (target ++ [nameOf g]) = none := by
      intro g hg
      rw [hget, if_neg]
      · split
        · rfl
        · exact hfree.2 g hg
      · intro heq
        exact (hother g hg).2 (by simpa using heq)
    obtain ⟨t', hloop, htarget', hmoved⟩ := ih htarget₁ hfiles₁ hparent.2 hfree₁ hnames.2
    refine ⟨t', by rw [List.foldlM_cons, hstep, ok_bind]; exact hloop, htarget', ?_⟩
    refine ((hrenamed.filesMoved hfree.1).trans hmoved).congr fun p hp => ?_
    simp only [Function.comp_apply]
    by_cases hpf : p = f
    · have hself : PathTree.moved f (target ++ [nameOf f]) p = target ++ [nameOf f] := by
        rw [hpf]
        simpa using PathTree.moved_append f (target ++ [nameOf f]) []
      rw [hself, if_pos (by rw [hpf]; exact List.mem_cons_self), if_neg, hpf]
      intro hin
      exact hinto _ hin rfl
    · have hnot : ¬ f <+: p := by
        intro hpre
        obtain ⟨rest, rfl⟩ := hpre
        have hrest : rest ≠ [] := by
          intro hnil
          exact hpf (by rw [hnil, List.append_nil])
        obtain ⟨j, hj⟩ := Option.isSome_iff_exists.1 hp
        rw [PathTree.fileAt_eq_some, PathTree.get_below_file hi hrest] at hj
        cases hj
      rw [PathTree.moved_of_not_below hnot]
      simp [hpf]

/-- An item that is accepted takes every file where `takes` says. -/
structure ItemDone (target source : Path) (t t' : PathTree ι) : Prop where
  stays : t'.get target = some .dir
  files : PathTree.FilesMoved t t' (takes t target source)

/-- An item is done, or refused with a message. -/
def ItemDoneOrRefused (target source : Path) (s : Moving ι) : Prop :=
  (∃ s', setupRevisionItem target s source = .ok s' ∧ ItemDone target source s.tree s'.tree ∧
    (s.tree.isDir source = true → parentOf source ≠ target → ¬ source <+: target)) ∨
    ∃ message, setupRevisionItem target s source = .error (.failed message)

private theorem setupRevisionItem_skip (htarget : s.tree.get target = some .dir) (hskip : parentOf source = target) :
    ItemDoneOrRefused target source s := by
  have hok : setupRevisionItem target s source =
      .ok ⟨s.tree, s.movedFilesNames, s.skippedFilesNames ++ [nameOf source]⟩ := if_pos hskip
  refine .inl ⟨_, hok, ⟨htarget, ?_⟩, fun _ hne => absurd hskip hne⟩
  refine (PathTree.FilesMoved.refl s.tree).congr fun p _ => ?_
  exact if_pos hskip

private theorem setupRevisionItem_directory (htarget : s.tree.get target = some .dir) (hskip : parentOf source ≠ target)
    (hdir : s.tree.isDir source = true) : ItemDoneOrRefused target source s := by
  by_cases hbelow : source <+: target
  · refine .inr ⟨"Cannot move a directory into itself or a subdirectory of itself".toList, ?_⟩
    rw [setupRevisionItem, if_neg hskip, if_pos hdir, raiseIf_bind_of hbelow]
  · by_cases hexists : (s.tree.get (target ++ [nameOf source])).isSome = true
    · refine .inr ⟨"Target name already exists".toList, ?_⟩
      rw [setupRevisionItem, if_neg hskip, if_pos hdir, raiseIf_bind_of_not hbelow, raiseIf_bind_of hexists]
    · have hfree : s.tree.get (target ++ [nameOf source]) = none := by simpa using hexists
      have hsome : (s.tree.get source).isSome := by
        rw [PathTree.isDir_iff.1 hdir]
        rfl
      have hbelow' : ¬ source <+: target ++ [nameOf source] := by
        intro hpre
        rcases List.prefix_concat_iff.1 hpre with heq | hpre
        · rw [heq, hfree] at hsome
          cases hsome
        · exact hbelow hpre
      obtain ⟨t', hrename, hrenamed⟩ :=
        PathTree.rename_ok hsome hfree (parent_isDir_of_target (nameOf source) htarget) hbelow'
      have hok : setupRevisionItem target s source =
          .ok ⟨t', s.movedFilesNames ++ [nameOf source], s.skippedFilesNames⟩ := by
        rw [setupRevisionItem, if_neg hskip, if_pos hdir, raiseIf_bind_of_not hbelow,
          raiseIf_bind_of_not hexists, hrename]
        rfl
      refine .inl ⟨_, hok, ⟨?_, ?_⟩, fun _ _ => hbelow⟩
      · have hnot : ¬ target ++ [nameOf source] <+: target := by
          intro hpre
          have hlength := hpre.length_le
          simp at hlength
        show t'.get target = some .dir
        rw [hrenamed.left target hnot, if_neg hbelow, htarget]
      · refine (hrenamed.filesMoved hfree).congr fun p _ => ?_
        rw [takes, if_neg hskip, if_pos hdir]

private theorem setupRevisionItem_bundle (htarget : s.tree.get target = some .dir) (hskip : parentOf source ≠ target)
    (hdir : s.tree.isDir source ≠ true) : ItemDoneOrRefused target source s := by
  by_cases hdirs : ∃ f ∈ bundleOf s.tree source, s.tree.isDir f = true
  · refine .inr ⟨"A related 'file' is actually a directory".toList, ?_⟩
    rw [setupRevisionItem, if_neg hskip, if_neg hdir, raiseIf_bind_of hdirs]
  · by_cases hcollide : ∃ f ∈ bundleOf s.tree source, (s.tree.get (target ++ [nameOf f])).isSome = true
    · refine .inr ⟨"A related file already exists in the target directory".toList, ?_⟩
      rw [setupRevisionItem, if_neg hskip, if_neg hdir, raiseIf_bind_of_not hdirs, raiseIf_bind_of hcollide]
    · have hfiles : ∀ f ∈ bundleOf s.tree source, (s.tree.fileAt f).isSome := by
        intro f hf
        obtain ⟨e, he⟩ := Option.isSome_iff_exists.1 (bundleOf_parent hf).2
        cases e with
        | file i =>
          rw [PathTree.fileAt_eq_some.2 he]
          rfl
        | dir => exact absurd ⟨f, hf, PathTree.isDir_iff.2 he⟩ hdirs
      have hparent : ∀ f ∈ bundleOf s.tree source, parentOf f ≠ target := by
        intro f hf
        rw [(bundleOf_parent hf).1]
        exact hskip
      have hfree : ∀ f ∈ bundleOf s.tree source, s.tree.get (target ++ [nameOf f]) = none := by
        intro f hf
        by_contra hne
        exact hcollide ⟨f, hf, Option.isSome_iff_ne_none.2 hne⟩
      obtain ⟨t', hloop, htarget', hmoved⟩ := renameInto_ok htarget hfiles hparent hfree bundleOf_nodup
      have hok : setupRevisionItem target s source = .ok
          ⟨t', s.movedFilesNames ++ ((bundleOf s.tree source).filter fun f => f = source).map nameOf,
            s.skippedFilesNames⟩ := by
        rw [setupRevisionItem, if_neg hskip, if_neg hdir, raiseIf_bind_of_not hdirs,
          raiseIf_bind_of_not hcollide]
        show ((bundleOf s.tree source).foldlM (renameInto target) s.tree >>= fun _ => _) = _
        rw [hloop]
        rfl
      refine .inl ⟨_, hok, ⟨htarget', ?_⟩, fun h => absurd h hdir⟩
      refine hmoved.congr fun p _ => ?_
      rw [takes, if_neg hskip, if_neg hdir]

theorem setupRevisionItem_spec (htarget : s.tree.get target = some .dir) : ItemDoneOrRefused target source s := by
  by_cases hskip : parentOf source = target
  · exact setupRevisionItem_skip htarget hskip
  · by_cases hdir : s.tree.isDir source = true
    · exact setupRevisionItem_directory htarget hskip hdir
    · exact setupRevisionItem_bundle htarget hskip hdir

end Item

end Draft

end TrustedReleases
