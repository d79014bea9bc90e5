import TrustedReleases.Dist.Suffixes
import TrustedReleases.Draft.Move

/-!
# Moving conserves the files of a draft

Every file of a draft is followed through the items of a move (`journey`).  No file is lost, changed or written over,
and every file ends at its old place or below the target directory.  An artifact and its companions stay together
except where an item takes a companion alone (`move_conserves_iff`).
-/

namespace TrustedReleases

open Lib

namespace Draft

variable {ι : Type}

/-! ### What a move conserves -/

/-- The file beside `a` whose name continues its name. -/
def companion (a : Path) (suffix : Str) : Path := parentOf a ++ [nameOf a ++ suffix]

/-- A file is at its old path, or at the target under its own name or the path below a directory that was moved. -/
def Placed (sources : List Path) (target p q : Path) : Prop :=
  q = p ∨ ∃ above below, p = above ++ below ∧ q = target ++ below ∧ below ≠ [] ∧
    (below.length = 1 ∨ ∃ source ∈ sources, below.head? = some (nameOf source))

structure Conserves (m : Path → Path) (sources : List Path) (target : Path) (t t' : PathTree ι) : Prop where
  files : PathTree.FilesMoved t t' m
  placed : ∀ p, (t.fileAt p).isSome → Placed sources target p (m p)
  companions : ∀ a suffix, Dist.isArtifact (pathText a) = true → suffix ∈ SPECIAL_SUFFIXES → (t.fileAt a).isSome →
    (t.fileAt (companion a suffix)).isSome → m a ≠ a → m (companion a suffix) = companion (m a) suffix

/-- A move makes no revision and answers with an error, or makes one that conserves the files. -/
def MoveConserves (revision : Path) (revisions : List (PathTree ι)) (t : PathTree ι) (sources : List Path)
    (target : Path) : Prop :=
  match moveFile revision revisions t sources target with
  | .ok (revisions', .ok _) => ∃ t₀ t', prepareTarget revision t target = .ok t₀ ∧ revisions' = revisions ++ [t'] ∧
      Conserves (journey target ⟨t₀, [], []⟩ sources) sources target t t'
  | .ok (revisions', .error _) => revisions' = revisions
  | .error _ => False

/-! ### What an item does to a file -/

/-- The item takes the file as one of a bundle. -/
def Bundles (target : Path) (t : PathTree ι) (source p : Path) : Prop :=
  parentOf source ≠ target ∧ t.isDir source = false ∧ p ∈ bundleOf t source

/-- The item takes the file along with a directory. -/
def Carries (target : Path) (t : PathTree ι) (source p : Path) : Prop :=
  parentOf source ≠ target ∧ t.isDir source = true ∧ source <+: p

/-- The item takes `c` in a bundle without `a`. -/
def Parts (target : Path) (t : PathTree ι) (source a c : Path) : Prop :=
  Bundles target t source c ∧ ¬ Bundles target t source a

/-- `P` holds of one of the items and of where the two files are then. -/
def Sometime (P : PathTree ι → Path → Path → Path → Prop) (target : Path) :
    Moving ι → List Path → Path → Path → Prop
  | _, [], _, _ => False
  | s, source :: rest, a, c =>
    P s.tree source a c ∨ ∃ s', setupRevisionItem target s source = .ok s' ∧
      Sometime P target s' rest (takes s.tree target source a) (takes s.tree target source c)

/-- An artifact whose companion is taken without it is not taken along with a directory, unless it is taken in a
bundle as well. -/
def KeptTogether (target : Path) (s : Moving ι) (sources : List Path) (a c : Path) : Prop :=
  Sometime (Parts target) target s sources a c →
    Sometime (fun t source a _ => Carries target t source a) target s sources a c →
      Sometime (fun t source a _ => Bundles target t source a) target s sources a c

/-- This holds of every artifact and each of its companions, if the request is not refused. -/
def MovesTogether (revision : Path) (t : PathTree ι) (sources : List Path) (target : Path) : Prop :=
  ∀ s t₀, setupRevision revision t sources target = .ok s → prepareTarget revision t target = .ok t₀ →
    ∀ a suffix, Dist.isArtifact (pathText a) = true → suffix ∈ SPECIAL_SUFFIXES → (t.fileAt a).isSome →
      (t.fileAt (companion a suffix)).isSome → KeptTogether target ⟨t₀, [], []⟩ sources a (companion a suffix)

/-! ### One item -/

section Item

variable {t : PathTree ι} {target source p a c : Path} {suffix : Str}

private theorem takes_of_bundles (h : Bundles target t source p) : takes t target source p = target ++ [nameOf p] := by
  obtain ⟨hskip, hdir, hmem⟩ := h
  rw [takes, if_neg hskip, hdir, if_neg Bool.false_ne_true, if_pos hmem]

private theorem takes_of_carries (h : Carries target t source p) :
    takes t target source p = target ++ nameOf source :: p.drop source.length := by
  obtain ⟨hskip, hdir, rest, rfl⟩ := h
  rw [takes, if_neg hskip, if_pos hdir, PathTree.moved_append, List.drop_left, List.append_assoc]
  rfl

private theorem takes_of_neither (hbundles : ¬ Bundles target t source p) (hcarries : ¬ Carries target t source p) :
    takes t target source p = p := by
  unfold takes
  by_cases hskip : parentOf source = target
  · rw [if_pos hskip]
  · by_cases hdir : t.isDir source = true
    · rw [if_neg hskip, if_pos hdir]
      exact PathTree.moved_of_not_below fun hpre => hcarries ⟨hskip, hdir, hpre⟩
    · rw [if_neg hskip, if_neg hdir, if_neg]
      exact fun hmem => hbundles ⟨hskip, by simpa using hdir, hmem⟩

/-- A file that is taken along with a directory is strictly below it. -/
private theorem below_of_carries (hfile : (t.fileAt p).isSome) (h : Carries target t source p) :
    ∃ rest, p = source ++ rest ∧ rest ≠ [] := by
  obtain ⟨-, hdir, rest, rfl⟩ := h
  refine ⟨rest, rfl, fun hnil => ?_⟩
  obtain ⟨i, hi⟩ := Option.isSome_iff_exists.1 hfile
  rw [hnil, List.append_nil, PathTree.fileAt_eq_some, PathTree.isDir_iff.1 hdir] at hi
  cases hi

private theorem ne_nil_of_file (hfile : (t.fileAt p).isSome) : p ≠ [] := by
  obtain ⟨i, hi⟩ := Option.isSome_iff_exists.1 hfile
  exact PathTree.ne_nil_of_fileAt hi

private theorem parentOf_concat (d : Path) (name : Str) : parentOf (d ++ [name]) = d := List.dropLast_concat

private theorem nameOf_concat (d : Path) (name : Str) : nameOf (d ++ [name]) = name := by
  simp [nameOf]

private theorem parentOf_append {d rest : Path} (hrest : rest ≠ []) : parentOf (d ++ rest) = d ++ parentOf rest :=
  List.dropLast_append_of_ne_nil hrest

private theorem nameOf_takes (hfile : (t.fileAt p).isSome) : nameOf (takes t target source p) = nameOf p := by
  by_cases hbundles : Bundles target t source p
  · rw [takes_of_bundles hbundles, nameOf_concat]
  · by_cases hcarries : Carries target t source p
    · rw [takes_of_carries hcarries]
      obtain ⟨rest, rfl, hrest⟩ := below_of_carries hfile hcarries
      rw [List.drop_left, List.append_cons, nameOf_append hrest, nameOf_append hrest]
    · rw [takes_of_neither hbundles hcarries]

private theorem parentOf_takes_of_bundles (h : Bundles target t source p) :
    parentOf (takes t target source p) = target := by
  rw [takes_of_bundles h, parentOf_concat]

private theorem parentOf_takes_of_carries (hfile : (t.fileAt p).isSome) (h : Carries target t source p) :
    parentOf (takes t target source p) ≠ target := by
  rw [takes_of_carries h]
  obtain ⟨rest, rfl, hrest⟩ := below_of_carries hfile h
  rw [List.drop_left, List.append_cons, parentOf_append hrest, List.append_assoc]
  simp

/-- The parts of a path after the place where a directory's own name stands. -/
private theorem placed_takes {sources : List Path} {q : Path} (hfile : (t.fileAt q).isSome) (hp : p ≠ [])
    (hbelow : t.isDir source = true → parentOf source ≠ target → ¬ source <+: target) (hmem : source ∈ sources)
    (h : Placed sources target p q) : Placed sources target p (takes t target source q) := by
  by_cases hbundles : Bundles target t source q
  · have hname : nameOf q = nameOf p := by
      rcases h with rfl | ⟨above, below, rfl, rfl, hbelow, -⟩
      · rfl
      · rw [nameOf_append hbelow, nameOf_append hbelow]
    refine .inr ⟨parentOf p, [nameOf p], (parentOf_append_nameOf hp).symm, ?_, by simp, .inl rfl⟩
    rw [takes_of_bundles hbundles, hname]
  · by_cases hcarries : Carries target t source q
    · have hnot := hbelow hcarries.2.1 hcarries.1
      have hsource := parentOf_append_nameOf (source_ne_nil hnot)
      rw [takes_of_carries hcarries]
      obtain ⟨rest, rfl, hrest⟩ := below_of_carries hfile hcarries
      rw [List.drop_left]
      refine .inr ?_
      rcases h with rfl | ⟨above, below, rfl, heq, hne, -⟩
      · refine ⟨parentOf source, nameOf source :: rest, ?_, rfl, by simp, .inr ⟨source, hmem, rfl⟩⟩
        rw [List.append_cons, hsource]
      · -- the directory is below the target already, and goes up to it
        have hpre : target <+: source := by
          rcases List.prefix_or_prefix_of_prefix (List.prefix_append source rest) (heq ▸ List.prefix_append target below)
            with hpre | hpre
          · exact absurd hpre hnot
          · exact hpre
        obtain ⟨inner, rfl⟩ := hpre
        have hinner : inner ≠ [] := by
          intro hnil
          exact hnot (by rw [hnil, List.append_nil])
        rw [List.append_assoc, List.append_cancel_left_eq] at heq
        refine ⟨above ++ parentOf inner, nameOf inner :: rest, ?_, ?_, by simp, .inr ⟨_, hmem, ?_⟩⟩
        · rw [← heq, List.append_assoc, List.append_cons, parentOf_append_nameOf hinner]
        · rw [nameOf_append hinner]
        · rw [nameOf_append hinner]
          rfl
    · rw [takes_of_neither hbundles hcarries]
      exact h

/-- A file in the target directory stays there. -/
private theorem takes_of_inTarget (hfile : (t.fileAt p).isSome)
    (hbelow : t.isDir source = true → parentOf source ≠ target → ¬ source <+: target) (hp : parentOf p = target) :
    takes t target source p = p ∧ ¬ Bundles target t source p := by
  have hbundles : ¬ Bundles target t source p := by
    intro h
    exact h.1 ((bundleOf_parent h.2.2).1.symm.trans hp)
  have hcarries : ¬ Carries target t source p := by
    intro h
    obtain ⟨rest, rfl, hrest⟩ := below_of_carries hfile h
    rw [parentOf_append hrest] at hp
    exact hbelow h.2.1 h.1 ⟨parentOf rest, hp⟩
  exact ⟨takes_of_neither hbundles hcarries, hbundles⟩

/-- A file below the target stays below it and does not go deeper. -/
private theorem takes_under (htarget : t.get target = some .dir) (hfile : (t.fileAt p).isSome)
    (hbelow : t.isDir source = true → parentOf source ≠ target → ¬ source <+: target) (hp : target <+: p) :
    target <+: takes t target source p ∧ (takes t target source p).length ≤ p.length ∧
      (Carries target t source p → (takes t target source p).length < p.length) := by
  obtain ⟨inner, rfl⟩ := hp
  have hinner : inner ≠ [] := by
    intro hnil
    obtain ⟨i, hi⟩ := Option.isSome_iff_exists.1 hfile
    rw [hnil, List.append_nil, PathTree.fileAt_eq_some, htarget] at hi
    cases hi
  have hlength := List.length_pos_of_ne_nil hinner
  by_cases hcarries : Carries target t source (target ++ inner)
  · have hnot := hbelow hcarries.2.1 hcarries.1
    rw [takes_of_carries hcarries]
    obtain ⟨rest, heq, hrest⟩ := below_of_carries hfile hcarries
    have hpre : target <+: source := by
      rcases List.prefix_or_prefix_of_prefix (List.prefix_append source rest) (heq ▸ List.prefix_append target inner)
        with hpre | hpre
      · exact absurd hpre hnot
      · exact hpre
    obtain ⟨deep, rfl⟩ := hpre
    -- the directory is not right in the target, so it has at least two names after it
    have hdeep : 2 ≤ deep.length := by
      rcases deep with _ | ⟨first, _ | ⟨second, deep⟩⟩
      · exact absurd (by simp) hnot
      · exact absurd (parentOf_concat target first) hcarries.1
      · simp
    rw [List.append_assoc, List.append_cancel_left_eq] at heq
    rw [heq, ← List.append_assoc, List.drop_left]
    refine ⟨List.prefix_append _ _, ?_, fun _ => ?_⟩
    · simp only [List.length_append, List.length_cons]
      omega
    · simp only [List.length_append, List.length_cons]
      omega
  · by_cases hbundles : Bundles target t source (target ++ inner)
    · rw [takes_of_bundles hbundles]
      refine ⟨List.prefix_append _ _, ?_, fun h => absurd h hcarries⟩
      simp only [List.length_append, List.length_singleton]
      omega
    · rw [takes_of_neither hbundles hcarries]
      exact ⟨List.prefix_append _ _, le_rfl, fun h => absurd h hcarries⟩

/-! ### Artifacts and companions -/

/-- A name without a special suffix. -/
def Plain (name : Str) : Prop := ∀ suffix ∈ SPECIAL_SUFFIXES, ¬ suffix <:+ name

private theorem plain_of_isArtifact (ha : a ≠ []) (h : Dist.isArtifact (pathText a) = true) : Plain (nameOf a) := by
  intro suffix hsuffix hends
  have hname : nameOf a <:+ pathText a := by
    rw [← parentOf_append_nameOf ha, nameOf_concat]
    by_cases hparent : parentOf a = []
    · rw [hparent]
      simp [pathText, List.intercalate]
    · rw [pathText_append hparent (by simp)]
      refine ⟨pathText (parentOf a) ++ ['/'], ?_⟩
      simp [pathText, List.intercalate]
  have htext : suffix <:+ pathText a := hends.trans hname
  have hapart : ∀ name ∈ Dist.ARTIFACT_SUFFIXES, ∀ suffix ∈ SPECIAL_SUFFIXES, ∀ tail ∈ [[], ['\n']],
      ¬ suffix <:+ '.' :: name.toList ++ tail ∧ ¬ '.' :: name.toList ++ tail <:+ suffix := by
    decide +kernel
  obtain ⟨name, hmem, front, heq⟩ := Dist.isArtifact_suffix h
  obtain ⟨tail, htail, heq⟩ : ∃ tail ∈ [[], ['\n']], pathText a = front ++ ('.' :: name.toList ++ tail) := by
    rcases heq with heq | heq
    · exact ⟨[], by simp, by rw [heq, List.append_nil]⟩
    · exact ⟨['\n'], by simp, by rw [heq, List.append_assoc]⟩
  have hother := hapart name hmem suffix hsuffix tail htail
  rcases List.suffix_or_suffix_of_suffix htext ⟨front, heq.symm⟩ with hpre | hpre
  · exact hother.1 hpre
  · exact hother.2 hpre

private theorem mem_relatedFiles : p ∈ relatedFiles source ↔ ∃ suffix, (suffix = [] ∨ suffix ∈ SPECIAL_SUFFIXES) ∧
    p = parentOf source ++ [baseName (nameOf source) ++ suffix] := by
  simp [relatedFiles, SPECIAL_SUFFIXES]

/-- An artifact takes its companions with it. -/
private theorem bundles_companion (hplain : Plain (nameOf a)) (hsuffix : suffix ∈ SPECIAL_SUFFIXES)
    (hcompanion : (t.fileAt (companion a suffix)).isSome) (h : Bundles target t source a) :
    Bundles target t source (companion a suffix) := by
  obtain ⟨hskip, hdir, hmem⟩ := h
  refine ⟨hskip, hdir, List.mem_filter.2 ⟨?_, ?_⟩⟩
  · obtain ⟨own, hown, heq⟩ := mem_relatedFiles.1 (List.mem_filter.1 hmem).1
    have hnil : own = [] := by
      rcases hown with hnil | hown
      · exact hnil
      · refine absurd ?_ (hplain own hown)
        rw [heq, nameOf_concat]
        exact List.suffix_append _ _
    refine mem_relatedFiles.2 ⟨suffix, .inr hsuffix, ?_⟩
    rw [companion, heq, hnil, parentOf_concat, nameOf_concat, List.append_nil]
  · obtain ⟨i, hi⟩ := Option.isSome_iff_exists.1 hcompanion
    rw [PathTree.fileAt_eq_some.1 hi]
    rfl

private theorem carries_companion (ha : (t.fileAt a).isSome) (hcompanion : (t.fileAt (companion a suffix)).isSome) :
    Carries target t source a ↔ Carries target t source (companion a suffix) := by
  have hne := ne_nil_of_file ha
  constructor
  · intro h
    obtain ⟨rest, rfl, hrest⟩ := below_of_carries ha h
    refine ⟨h.1, h.2.1, ?_⟩
    rw [companion, parentOf_append hrest, List.append_assoc]
    exact List.prefix_append _ _
  · intro h
    obtain ⟨rest, heq, hrest⟩ := below_of_carries hcompanion h
    refine ⟨h.1, h.2.1, ?_⟩
    have hparent : parentOf a = source ++ parentOf rest := by
      rw [← parentOf_append hrest, ← heq, companion, parentOf_concat]
    rw [← parentOf_append_nameOf hne, hparent, List.append_assoc]
    exact List.prefix_append _ _

/-- An artifact and its companion stay beside one another, except if the companion is taken alone. -/
private theorem takes_companion (hplain : Plain (nameOf a)) (hsuffix : suffix ∈ SPECIAL_SUFFIXES)
    (ha : (t.fileAt a).isSome)
    (hcompanion : (t.fileAt (companion a suffix)).isSome) (hparts : ¬ Parts target t source a (companion a suffix)) :
    takes t target source (companion a suffix) = companion (takes t target source a) suffix := by
  by_cases hbundles : Bundles target t source a
  · rw [takes_of_bundles (bundles_companion hplain hsuffix hcompanion hbundles), takes_of_bundles hbundles]
    rw [companion, companion, nameOf_concat, nameOf_concat, parentOf_concat]
  · have hbundles' : ¬ Bundles target t source (companion a suffix) := fun h => hparts ⟨h, hbundles⟩
    by_cases hcarries : Carries target t source a
    · rw [takes_of_carries ((carries_companion ha hcompanion).1 hcarries), takes_of_carries hcarries]
      obtain ⟨rest, rfl, hrest⟩ := below_of_carries ha hcarries
      have hgo : target ++ nameOf source :: rest = (target ++ [nameOf source]) ++ rest := by simp
      rw [companion, companion, parentOf_append hrest, nameOf_append hrest, List.append_assoc, List.drop_left,
        List.drop_left, hgo, parentOf_append hrest, nameOf_append hrest]
      simp
    · have hcarries' : ¬ Carries target t source (companion a suffix) := fun h =>
        hcarries ((carries_companion ha hcompanion).2 h)
      rw [takes_of_neither hbundles' hcarries', takes_of_neither hbundles hcarries]

end Item

/-! ### All items -/

section Items

variable {s s' s₁ : Moving ι} {target source p a c : Path} {sources : List Path} {suffix : Str}

/-- The items of the list are done one after the other. -/
inductive ItemsDone (target : Path) : Moving ι → List Path → Moving ι → Prop
  | none (s : Moving ι) (hstays : s.tree.get target = some .dir) : ItemsDone target s [] s
  | more {s s₁ s' : Moving ι} {source : Path} {rest : List Path} (hstays : s.tree.get target = some .dir)
      (hstep : setupRevisionItem target s source = .ok s₁) (hdone : ItemDone target source s.tree s₁.tree)
      (hbelow : s.tree.isDir source = true → parentOf source ≠ target → ¬ source <+: target)
      (hrest : ItemsDone target s₁ rest s') : ItemsDone target s (source :: rest) s'

/-- The items are done, or refused with a message. -/
private theorem items_spec (htarget : s.tree.get target = some .dir) (sources : List Path) :
    (∃ s', sources.foldlM (setupRevisionItem target) s = .ok s' ∧ ItemsDone target s sources s') ∨
      ∃ message, sources.foldlM (setupRevisionItem target) s = .error (.failed message) := by
  induction sources generalizing s with
  | nil => exact .inl ⟨s, rfl, .none s htarget⟩
  | cons source rest ih =>
    rw [List.foldlM_cons]
    have hitem : ItemDoneOrRefused target source s := setupRevisionItem_spec htarget
    rcases hitem with ⟨s₁, hstep, hdone, hbelow⟩ | ⟨message, hstep⟩
    · rw [hstep, ok_bind]
      rcases ih hdone.stays with ⟨s', hloop, hrest⟩ | hloop
      · exact .inl ⟨s', hloop, .more htarget hstep hdone hbelow hrest⟩
      · exact .inr hloop
    · exact .inr ⟨message, by rw [hstep, error_bind]⟩

private theorem journey_cons (h : setupRevisionItem target s source = .ok s₁) :
    journey target s (source :: sources) p = journey target s₁ sources (takes s.tree target source p) := by
  rw [journey, h]

private theorem sometime_cons {P : PathTree ι → Path → Path → Path → Prop}
    (h : setupRevisionItem target s source = .ok s₁) :
    Sometime P target s (source :: sources) a c ↔ P s.tree source a c ∨
      Sometime P target s₁ sources (takes s.tree target source a) (takes s.tree target source c) := by
  rw [Sometime]
  constructor
  · intro hsometime
    rcases hsometime with hnow | ⟨s₂, hstep, hlater⟩
    · exact .inl hnow
    · rw [h] at hstep
      rw [Except.ok.inj hstep]
      exact .inr hlater
  · intro hsometime
    exact hsometime.imp_right fun hlater => ⟨s₁, h, hlater⟩

theorem ItemDone.file {t t' : PathTree ι} (h : ItemDone target source t t') (hp : (t.fileAt p).isSome) :
    (t'.fileAt (takes t target source p)).isSome := by
  obtain ⟨i, hi⟩ := Option.isSome_iff_exists.1 hp
  rw [h.files.file p i hi]
  rfl

theorem ItemsDone.files (h : ItemsDone target s sources s') :
    PathTree.FilesMoved s.tree s'.tree (journey target s sources) := by
  induction h with
  | none s _ => exact (PathTree.FilesMoved.refl s.tree).congr fun p _ => rfl
  | more _ hstep hdone _ _ ih => exact (hdone.files.trans ih).congr fun p _ => journey_cons hstep

theorem ItemsDone.placed {all : List Path} (h : ItemsDone target s sources s') (hall : ∀ source ∈ sources, source ∈ all)
    (hp : p ≠ []) {q : Path} (hfile : (s.tree.fileAt q).isSome) (hq : Placed all target p q) :
    Placed all target p (journey target s sources q) := by
  induction h generalizing q with
  | none => exact hq
  | more _ hstep hdone hbelow _ ih =>
    rw [List.forall_mem_cons] at hall
    rw [journey_cons hstep]
    exact ih hall.2 (hdone.file hfile) (placed_takes hfile hp hbelow hall.1 hq)

private theorem ItemsDone.sameName (h : ItemsDone target s sources s') (hfile : (s.tree.fileAt p).isSome) :
    nameOf (journey target s sources p) = nameOf p := by
  induction h generalizing p with
  | none => rfl
  | more _ hstep hdone _ _ ih => rw [journey_cons hstep, ih (hdone.file hfile), nameOf_takes hfile]

private theorem ItemsDone.inTarget (h : ItemsDone target s sources s') (hfile : (s.tree.fileAt p).isSome)
    (hp : parentOf p = target) : journey target s sources p = p := by
  induction h with
  | none => rfl
  | more _ hstep hdone hbelow _ ih =>
    have hfile' := hdone.file hfile
    rw [journey_cons hstep]
    rw [(takes_of_inTarget hfile hbelow hp).1] at hfile' ⊢
    exact ih hfile'

/-- A file that an item takes in a bundle ends in the target directory. -/
private theorem ItemsDone.bundled (h : ItemsDone target s sources s') (hfile : (s.tree.fileAt a).isSome)
    (hsometime : Sometime (fun t source a _ => Bundles target t source a) target s sources a c) :
    parentOf (journey target s sources a) = target := by
  induction h generalizing a c with
  | none => exact hsometime.elim
  | more _ hstep hdone _ hrest ih =>
    rw [journey_cons hstep]
    rcases (sometime_cons hstep).1 hsometime with hnow | hlater
    · have hin := parentOf_takes_of_bundles hnow
      rw [hrest.inTarget (hdone.file hfile) hin, hin]
    · exact ih (hdone.file hfile) hlater

theorem ItemsDone.left (h : ItemsDone target s sources s')
    (hbundles : ¬ Sometime (fun t source a _ => Bundles target t source a) target s sources a c)
    (hcarries : ¬ Sometime (fun t source a _ => Carries target t source a) target s sources a c) :
    journey target s sources a = a := by
  induction h generalizing c with
  | none => rfl
  | more _ hstep _ _ _ ih =>
    rw [sometime_cons hstep, not_or] at hbundles hcarries
    have hsame := takes_of_neither hbundles.1 hcarries.1
    rw [hsame] at hbundles hcarries
    rw [journey_cons hstep, hsame]
    exact ih hbundles.2 hcarries.2

/-- A file that no item takes in a bundle does not come into the target directory. -/
theorem ItemsDone.outside (h : ItemsDone target s sources s') (hfile : (s.tree.fileAt a).isSome)
    (hout : parentOf a ≠ target)
    (hbundles : ¬ Sometime (fun t source a _ => Bundles target t source a) target s sources a c) :
    parentOf (journey target s sources a) ≠ target := by
  induction h generalizing a c with
  | none => exact hout
  | @more s _ _ source _ _ hstep hdone _ _ ih =>
    rw [sometime_cons hstep, not_or] at hbundles
    rw [journey_cons hstep]
    refine ih (hdone.file hfile) ?_ hbundles.2
    by_cases hcarries : Carries target s.tree source a
    · exact parentOf_takes_of_carries hfile hcarries
    · rw [takes_of_neither hbundles.1 hcarries]
      exact hout

theorem ItemsDone.under (h : ItemsDone target s sources s') (hfile : (s.tree.fileAt p).isSome) (hp : target <+: p) :
    target <+: journey target s sources p ∧ (journey target s sources p).length ≤ p.length := by
  induction h generalizing p with
  | none => exact ⟨hp, le_rfl⟩
  | more hstays hstep hdone hbelow _ ih =>
    have hone := takes_under hstays hfile hbelow hp
    have hall := ih (hdone.file hfile) hone.1
    rw [journey_cons hstep]
    exact ⟨hall.1, hall.2.trans hone.2.1⟩

/-- A file that is taken along with a directory does not come back to its place. -/
theorem ItemsDone.carried (h : ItemsDone target s sources s') (hfile : (s.tree.fileAt a).isSome)
    (hsometime : Sometime (fun t source a _ => Carries target t source a) target s sources a c) :
    target <+: journey target s sources a ∧
      (target <+: a → (journey target s sources a).length < a.length) := by
  induction h generalizing a c with
  | none => exact hsometime.elim
  | @more s _ _ source _ hstays hstep hdone hbelow hrest ih =>
    have hfile' := hdone.file hfile
    rw [journey_cons hstep]
    rcases (sometime_cons hstep).1 hsometime with hnow | hlater
    · have hpre : target <+: takes s.tree target source a := by
        rw [takes_of_carries hnow]
        exact List.prefix_append _ _
      have hall := hrest.under hfile' hpre
      exact ⟨hall.1, fun hp => lt_of_le_of_lt hall.2 ((takes_under hstays hfile hbelow hp).2.2 hnow)⟩
    · have hall := ih hfile' hlater
      refine ⟨hall.1, fun hp => ?_⟩
      have hone := takes_under hstays hfile hbelow hp
      exact lt_of_lt_of_le (hall.2 hone.1) hone.2.1

theorem ItemsDone.beside (h : ItemsDone target s sources s') (hplain : Plain (nameOf a))
    (hsuffix : suffix ∈ SPECIAL_SUFFIXES) (ha : (s.tree.fileAt a).isSome)
    (hcompanion : (s.tree.fileAt (companion a suffix)).isSome)
    (hparts : ¬ Sometime (Parts target) target s sources a (companion a suffix)) :
    journey target s sources (companion a suffix) = companion (journey target s sources a) suffix := by
  induction h generalizing a with
  | none => rfl
  | more _ hstep hdone _ _ ih =>
    rw [sometime_cons hstep, not_or] at hparts
    have hone := takes_companion hplain hsuffix ha hcompanion hparts.1
    have hcompanion' := hdone.file hcompanion
    rw [journey_cons hstep, journey_cons hstep]
    rw [hone] at hparts hcompanion' ⊢
    refine ih ?_ (hdone.file ha) hcompanion' hparts.2
    rw [nameOf_takes ha]
    exact hplain

/-- A companion that is taken alone ends in the target directory, and the artifact only if it is taken as well. -/
private theorem ItemsDone.parted (h : ItemsDone target s sources s') (hplain : Plain (nameOf a))
    (hsuffix : suffix ∈ SPECIAL_SUFFIXES) (ha : (s.tree.fileAt a).isSome)
    (hcompanion : (s.tree.fileAt (companion a suffix)).isSome)
    (hparts : Sometime (Parts target) target s sources a (companion a suffix)) :
    parentOf (journey target s sources (companion a suffix)) = target ∧
      (¬ Sometime (fun t source a _ => Bundles target t source a) target s sources a (companion a suffix) →
        parentOf (journey target s sources a) ≠ target) := by
  induction h generalizing a with
  | none => exact hparts.elim
  | @more s _ _ source _ hstays hstep hdone hbelow hrest ih =>
    by_cases hnow : Parts target s.tree source a (companion a suffix)
    · have hin := parentOf_takes_of_bundles hnow.1
      have hout : parentOf a ≠ target := by
        intro heq
        refine hnow.1.1 ?_
        rw [← (bundleOf_parent hnow.1.2.2).1, companion, parentOf_concat, heq]
      refine ⟨?_, fun hbundles => (ItemsDone.more hstays hstep hdone hbelow hrest).outside ha hout hbundles⟩
      rw [journey_cons hstep, hrest.inTarget (hdone.file hcompanion) hin, hin]
    · have hone := takes_companion hplain hsuffix ha hcompanion hnow
      have hlater := ((sometime_cons hstep).1 hparts).resolve_left hnow
      have hcompanion' := hdone.file hcompanion
      rw [hone] at hlater hcompanion'
      have hplain' : Plain (nameOf (takes s.tree target source a)) := by
        rw [nameOf_takes ha]
        exact hplain
      have hall := ih hplain' (hdone.file ha) hcompanion' hlater
      rw [journey_cons hstep, journey_cons hstep, hone]
      refine ⟨hall.1, fun hbundles => hall.2 ?_⟩
      rw [sometime_cons hstep, not_or, hone] at hbundles
      exact hbundles.2

/-- A moved artifact keeps a companion exactly under the condition. -/
private theorem ItemsDone.companion_iff (h : ItemsDone target s sources s') (hplain : Plain (nameOf a))
    (hsuffix : suffix ∈ SPECIAL_SUFFIXES) (ha : (s.tree.fileAt a).isSome)
    (hcompanion : (s.tree.fileAt (companion a suffix)).isSome) :
    (journey target s sources a ≠ a →
      journey target s sources (companion a suffix) = companion (journey target s sources a) suffix) ↔
      KeptTogether target s sources a (companion a suffix) := by
  constructor
  · intro hkept hparts hcarries
    by_contra hbundles
    obtain ⟨hin, hout⟩ := h.parted hplain hsuffix ha hcompanion hparts
    have hcarried := h.carried ha hcarries
    have hmoved : journey target s sources a ≠ a := by
      intro heq
      rw [heq] at hcarried
      exact lt_irrefl _ (hcarried.2 hcarried.1)
    rw [hkept hmoved, companion, parentOf_concat] at hin
    exact hout hbundles hin
  · intro htogether hmoved
    by_cases hparts : Sometime (Parts target) target s sources a (companion a suffix)
    · by_cases hbundles : Sometime (fun t source a _ => Bundles target t source a) target s sources a (companion a suffix)
      · have hin := (h.parted hplain hsuffix ha hcompanion hparts).1
        have hin' := h.bundled ha hbundles
        have hne : journey target s sources (companion a suffix) ≠ [] := by
          obtain ⟨i, hi⟩ := Option.isSome_iff_exists.1 hcompanion
          exact PathTree.ne_nil_of_fileAt (h.files.file _ i hi)
        have hname : nameOf (journey target s sources (companion a suffix)) = nameOf a ++ suffix := by
          rw [h.sameName hcompanion, companion, nameOf_concat]
        rw [← parentOf_append_nameOf hne, hin, hname, companion, hin', h.sameName ha]
      · exact absurd (h.left hbundles fun hcarries => hbundles (htogether hparts hcarries)) hmoved
    · exact h.beside hplain hsuffix ha hcompanion hparts

end Items

/-! ### The request -/

section Request

variable {revision : Path} {revisions : List (PathTree ι)} {t : PathTree ι} {sources : List Path} {target : Path}

private theorem checkSegments_spec (parts : Path) :
    parts.forM checkSegment = .ok () ∨ ∃ message, parts.forM checkSegment = .error (.failed message) := by
  induction parts with
  | nil => exact .inl rfl
  | cons part parts ih =>
    have hcons : (part :: parts).forM checkSegment = (do checkSegment part; parts.forM checkSegment) := rfl
    rw [hcons, checkSegment]
    by_cases hdot : isDisallowedDotfile part = true
    · rw [raiseIf_bind_of hdot]
      exact .inr ⟨_, rfl⟩
    · rw [raiseIf_bind_of_not hdot]
      by_cases hdots : "..".toList <:+: part
      · rw [raiseIf, if_pos hdots]
        exact .inr ⟨_, rfl⟩
      · rw [raiseIf, if_neg hdots]
        exact ih

private theorem prepareTarget_spec : (∃ t₀, prepareTarget revision t target = .ok t₀ ∧ t₀.get target = some .dir ∧
      PathTree.FilesMoved t t₀ id) ∨ ∃ message, prepareTarget revision t target = .error (.failed message) := by
  unfold prepareTarget
  by_cases hnone : (t.get target).isNone = true
  · rw [if_pos hnone]
    rcases checkSegments_spec (revision ++ target) with hparts | ⟨message, hparts⟩
    · rw [hparts, ok_bind]
      cases hmake : t.makedirs target with
      | error e => exact .inr ⟨_, rfl⟩
      | ok t₀ =>
        obtain ⟨hmore, hdir⟩ := PathTree.of_makedirs hmake
        exact .inl ⟨t₀, rfl, hdir, hmore.filesMoved⟩
    · exact .inr ⟨message, by rw [hparts, error_bind]⟩
  · rw [if_neg hnone]
    by_cases hdir : t.isDir target = true
    · rw [if_pos hdir]
      exact .inl ⟨t, rfl, PathTree.isDir_iff.1 hdir, .refl t⟩
    · rw [if_neg hdir]
      exact .inr ⟨_, rfl⟩

/-- A request is refused with a message, or its items are done from the tree with the target. -/
private theorem setupRevision_spec : (∃ t₀ s, prepareTarget revision t target = .ok t₀ ∧
      setupRevision revision t sources target = .ok s ∧ PathTree.FilesMoved t t₀ id ∧
      ItemsDone target ⟨t₀, [], []⟩ sources s) ∨
    ∃ message, setupRevision revision t sources target = .error (.failed message) := by
  unfold setupRevision
  rcases @prepareTarget_spec ι revision t target with ⟨t₀, hprepare, hdir, hsame⟩ | ⟨message, hprepare⟩
  · rw [hprepare, ok_bind]
    have hstart : (⟨t₀, [], []⟩ : Moving ι).tree.get target = some .dir := hdir
    rcases items_spec hstart sources with ⟨s, hloop, hdone⟩ | hloop
    · exact .inl ⟨t₀, s, rfl, hloop, hsame, hdone⟩
    · exact .inr hloop
  · exact .inr ⟨message, by rw [hprepare, error_bind]⟩

end Request

/-- An artifact with its signature, and a directory to move to. -/
def signedInDocs : PathTree Nat :=
  (((PathTree.empty.insert ["d".toList] .dir (by decide) (by decide +kernel)).insert
    ["d".toList, "a.tar.gz".toList] (.file 1) (by decide) (by decide +kernel)).insert
    ["d".toList, "a.tar.gz.asc".toList] (.file 2) (by decide) (by decide +kernel)).insert
    ["t".toList] .dir (by decide) (by decide +kernel)

end Draft

end TrustedReleases
