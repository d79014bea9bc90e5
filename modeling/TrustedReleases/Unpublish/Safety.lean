import TrustedReleases.Unpublish.Removal

/-!
# The removals are safe, and when they are idempotent

What is planned covers exactly the files that are taken from the directories of the plan (`covers_planRemovals`).  With
alternatives the plan is made from the first candidate only, so that a second run finds the files of the next one.
-/

namespace TrustedReleases

open Lib

namespace Unpublish

variable {t : FileTree Unit} {version : Str} {wanted : Wanted}

/-- The directories that the plan is made from: all of them, or the first that has files if they are alternatives. -/
def scanned (t : FileTree Unit) (wanted : Wanted) : List Pair :=
  if wanted.alternatives = true then (wanted.pairs.find? fun pair => taken t pair ≠ []).toList else wanted.pairs

private theorem scanned_subset {pair : Pair} (h : pair ∈ scanned t wanted) : pair ∈ wanted.pairs := by
  unfold scanned at h
  split_ifs at h
  · exact List.mem_of_find?_eq_some (Option.mem_toList.1 h)
  · exact h

/-! ### The plan -/

private theorem planDirectory_eq_nil {exact : Bool} {pair : Pair} :
    (planDirectory t version exact pair).relPaths = [] ↔ taken t pair = [] := by
  constructor
  · intro hnil
    by_contra htaken
    obtain ⟨f, hf⟩ := List.exists_mem_of_ne_nil _ htaken
    have hcovers := (@covers_planDirectory t version exact pair f (mem_taken.1 hf).1).2 hf
    rw [hnil] at hcovers
    simp [FileTree.Covers] at hcovers
  · intro htaken
    by_contra hne
    obtain ⟨p, hp⟩ := List.exists_mem_of_ne_nil _ hne
    rcases mem_planDirectory.1 hp with ⟨⟨-, ⟨f, hf, hbelow⟩, hall⟩, -⟩ | ⟨-, hmem⟩
    · have hmem := hall f hf hbelow
      rw [htaken] at hmem
      cases hmem
    · rw [htaken] at hmem
      cases hmem

private theorem planPairs_alternatives (exact : Bool) (pairs : List Pair) :
    (planPairs t version exact true pairs).relPaths =
      (pairs.find? fun pair => taken t pair ≠ []).toList.flatMap fun pair =>
        (planDirectory t version exact pair).relPaths := by
  induction pairs with
  | nil => rfl
  | cons pair pairs ih =>
    rw [planPairs, List.find?_cons]
    by_cases htaken : taken t pair = []
    · have hnil := (@planDirectory_eq_nil t version exact pair).2 htaken
      simp only [hnil, htaken, ne_eq, not_true_eq_false, false_and, ↓reduceIte, List.nil_append, ih, decide_false]
    · have hne : (planDirectory t version exact pair).relPaths ≠ [] := fun h => htaken (planDirectory_eq_nil.1 h)
      simp [hne, htaken]

private theorem planPairs_all (exact : Bool) (pairs : List Pair) :
    (planPairs t version exact false pairs).relPaths =
      pairs.flatMap fun pair => (planDirectory t version exact pair).relPaths := by
  induction pairs with
  | nil => rfl
  | cons pair pairs ih =>
    rw [planPairs, List.flatMap_cons, ← ih]
    simp

private theorem mem_planRemovals {p : Str} :
    p ∈ (planRemovals t version wanted).relPaths ↔
      ∃ pair ∈ scanned t wanted, p ∈ (planDirectory t version wanted.exact pair).relPaths := by
  unfold planRemovals scanned
  rw [mem_sorted]
  cases wanted.alternatives with
  | false =>
    rw [planPairs_all, List.mem_flatMap]
    simp
  | true =>
    rw [planPairs_alternatives, List.mem_flatMap]
    simp

/-- What is planned covers the files that are taken from the directories of the plan, and no others. -/
private theorem covers_planRemovals {f : Str} (hf : (t.fileAt f).isSome) :
    FileTree.Covers (planRemovals t version wanted).relPaths f ↔ ∃ pair ∈ scanned t wanted, f ∈ taken t pair := by
  constructor
  · rintro (hplanned | ⟨d, hd, hplanned⟩)
    · obtain ⟨pair, hpair, hmem⟩ := mem_planRemovals.1 hplanned
      exact ⟨pair, hpair, (covers_planDirectory hf).1 (.inl hmem)⟩
    · obtain ⟨pair, hpair, hmem⟩ := mem_planRemovals.1 hplanned
      exact ⟨pair, hpair, (covers_planDirectory hf).1 (.inr ⟨d, hd, hmem⟩)⟩
  · rintro ⟨pair, hpair, htaken⟩
    have hcovers := (@covers_planDirectory t version wanted.exact pair f hf).2 htaken
    rcases hcovers with hmem | ⟨d, hd, hmem⟩
    · exact .inl (mem_planRemovals.2 ⟨pair, hpair, hmem⟩)
    · exact .inr ⟨d, hd, mem_planRemovals.2 ⟨pair, hpair, hmem⟩⟩

private theorem planRemovals_eq_nil :
    (planRemovals t version wanted).relPaths = [] ↔ ∀ pair ∈ wanted.pairs, taken t pair = [] := by
  have hscanned : (planRemovals t version wanted).relPaths = [] ↔ ∀ pair ∈ scanned t wanted, taken t pair = [] := by
    rw [List.eq_nil_iff_forall_not_mem]
    constructor
    · intro hnone pair hpair
      refine (@planDirectory_eq_nil t version wanted.exact pair).1 ?_
      exact List.eq_nil_iff_forall_not_mem.2 fun p hp => hnone p (mem_planRemovals.2 ⟨pair, hpair, hp⟩)
    · intro hnone p hp
      obtain ⟨pair, hpair, hmem⟩ := mem_planRemovals.1 hp
      rw [planDirectory_eq_nil.2 (hnone pair hpair)] at hmem
      cases hmem
  rw [hscanned]
  refine ⟨fun hnone pair hpair => ?_, fun hnone pair hpair => hnone pair (scanned_subset hpair)⟩
  by_contra htaken
  unfold scanned at hnone
  split_ifs at hnone with halternatives
  · cases hfind : wanted.pairs.find? fun pair => taken t pair ≠ [] with
    | none => exact absurd htaken (by simpa using List.find?_eq_none.1 hfind pair hpair)
    | some first =>
      have hfirst := hnone first (by rw [hfind]; exact List.mem_singleton_self _)
      have hfound := List.find?_some hfind
      simp [hfirst] at hfound
  · exact htaken (hnone pair hpair)

/-- After the removal, the files that are left of those that a directory had. -/
private theorem mem_taken_without {ps : List Str} {pair : Pair} {f : Str} :
    f ∈ taken (t.without ps) pair ↔ f ∈ taken t pair ∧ ¬ FileTree.Covers ps f := by
  rw [mem_taken, mem_taken, FileTree.fileAt_without]
  by_cases hcovers : FileTree.Covers ps f
  · simp [hcovers]
  · simp [hcovers]

/-! ### Safety -/

/-- The file has a name that is wanted from the directory that it is below. -/
def Named (wanted : Wanted) (f : Str) : Prop := ∃ pair ∈ wanted.pairs, ∃ name ∈ pair.2, f = pair.1 ++ '/' :: name

/-- Only named files are removed, no planned path lies under another one, and a second plan is empty. -/
structure Safe (t : FileTree Unit) (version : Str) (wanted : Wanted) : Prop where
  named : ∀ p ∈ (planRemovals t version wanted).relPaths, ∀ f, (t.fileAt f).isSome →
    FileTree.Covers [p] f → Named wanted f
  apart : ∀ p ∈ (planRemovals t version wanted).relPaths, ∀ q ∈ (planRemovals t version wanted).relPaths, p ∉ parents q
  again : (planRemovals (t.without (planRemovals t version wanted).relPaths) version wanted).relPaths = []

/-- No directory of the plan is a file of dist that is not named itself, a directory that comes out whole holds no file
that is taken for another one, and the directories of the plan have all the files that are left. -/
structure Undisputed (t : FileTree Unit) (wanted : Wanted) : Prop where
  directories : ∀ pair ∈ scanned t wanted, (t.fileAt pair.1).isSome → baseName pair.1 ∈ pair.2 → Named wanted pair.1
  whole : ∀ pair ∈ scanned t wanted, ∀ other ∈ scanned t wanted, pair.1 ≠ other.1 → Owned t pair →
    ∀ f ∈ taken t other, pair.1 ∉ parents f
  complete : ∀ pair ∈ wanted.pairs, ∀ f ∈ taken t pair, ∃ first ∈ scanned t wanted, f ∈ taken t first

private theorem covers_of_mem {ps : List Str} {p f : Str} (hp : p ∈ ps) (h : FileTree.Covers [p] f) :
    FileTree.Covers ps f := by
  rcases h with hmem | ⟨d, hd, hmem⟩
  · rw [List.mem_singleton.1 hmem]
    exact .inl hp
  · rw [List.mem_singleton.1 hmem] at hd
    exact .inr ⟨p, hd, hp⟩

private theorem covers_single {ps : List Str} {f : Str} (h : FileTree.Covers ps f) :
    ∃ p ∈ ps, FileTree.Covers [p] f := by
  rcases h with hmem | ⟨d, hd, hmem⟩
  · exact ⟨f, hmem, .inl (List.mem_singleton_self f)⟩
  · exact ⟨d, hmem, .inr ⟨d, hd, List.mem_singleton_self d⟩⟩

/-- Only named files are removed, if a candidate that is a file is named itself. -/
private theorem named_iff :
    (∀ p ∈ (planRemovals t version wanted).relPaths, ∀ f, (t.fileAt f).isSome → FileTree.Covers [p] f → Named wanted f) ↔
      ∀ pair ∈ scanned t wanted, (t.fileAt pair.1).isSome → baseName pair.1 ∈ pair.2 → Named wanted pair.1 := by
  constructor
  · intro hnamed pair hpair hfile hbase
    have htaken : pair.1 ∈ taken t pair := mem_taken.2 ⟨hfile, .inr ⟨rfl, hbase⟩⟩
    obtain ⟨p, hp, hcovers⟩ := covers_single ((covers_planRemovals hfile).2 ⟨pair, hpair, htaken⟩)
    exact hnamed p hp pair.1 hfile hcovers
  · intro hdirectories p hp f hfile hcovers
    obtain ⟨pair, hpair, htaken⟩ := (covers_planRemovals hfile).1 (covers_of_mem hp hcovers)
    rcases (mem_taken.1 htaken).2 with ⟨name, hname, heq⟩ | ⟨heq, hbase⟩
    · exact ⟨pair, scanned_subset hpair, name, hname, heq⟩
    · rw [heq] at hfile ⊢
      exact hdirectories pair hpair hfile hbase

/-- Directories of the plan that are the same path are the same. -/
private theorem scanned_inj {pair other : Pair} (hpair : pair ∈ scanned t wanted) (hother : other ∈ scanned t wanted)
    (h : pair.1 = other.1) : pair = other :=
  List.inj_on_of_nodup_map wanted.nodup (scanned_subset hpair) (scanned_subset hother) h

/-- Nothing is below a file that is taken. -/
private theorem taken_notMem_parents {pair : Pair} {p q : Str} (hp : p ∈ taken t pair) (hq : (t.get q).isSome) :
    p ∉ parents q := by
  intro hbelow
  obtain ⟨i, hi⟩ := Option.isSome_iff_exists.1 (mem_taken.1 hp).1
  rw [FileTree.get_eq_none_of_file_above hi hbelow] at hq
  cases hq

private theorem get_isSome_of_mem_planDirectory {exact : Bool} {pair : Pair} {p : Str}
    (h : p ∈ (planDirectory t version exact pair).relPaths) : (t.get p).isSome := by
  rcases mem_planDirectory.1 h with ⟨howned, rfl⟩ | ⟨-, htaken⟩
  · rw [FileTree.isDir_iff.1 howned.1]
    rfl
  · obtain ⟨i, hi⟩ := Option.isSome_iff_exists.1 (mem_taken.1 htaken).1
    rw [FileTree.fileAt_iff.1 hi]
    rfl

/-- No planned path lies under another one, if no directory that comes out whole holds a file that is taken for another
directory. -/
private theorem apart_iff :
    (∀ p ∈ (planRemovals t version wanted).relPaths, ∀ q ∈ (planRemovals t version wanted).relPaths, p ∉ parents q) ↔
      ∀ pair ∈ scanned t wanted, ∀ other ∈ scanned t wanted, pair.1 ≠ other.1 → Owned t pair →
        ∀ f ∈ taken t other, pair.1 ∉ parents f := by
  constructor
  · intro hapart pair hpair other hother hne howned f hf hbelow
    have hplanned : pair.1 ∈ (planRemovals t version wanted).relPaths :=
      mem_planRemovals.2 ⟨pair, hpair, mem_planDirectory.2 (.inl ⟨howned, rfl⟩)⟩
    by_cases hother' : Owned t other
    · have hplanned' : other.1 ∈ (planRemovals t version wanted).relPaths :=
        mem_planRemovals.2 ⟨other, hother, mem_planDirectory.2 (.inl ⟨hother', rfl⟩)⟩
      obtain ⟨-, name, -, heq⟩ := (mem_taken_of_dir hother'.1).1 hf
      have hbelow' : other.1 ∈ parents f := mem_parents.2 ⟨name, heq⟩
      rcases parents_comparable hbelow hbelow' with h | h | h
      · exact hapart _ hplanned _ hplanned' h
      · exact hne h
      · exact hapart _ hplanned' _ hplanned h
    · exact hapart _ hplanned f (mem_planRemovals.2 ⟨other, hother, mem_planDirectory.2 (.inr ⟨hother', hf⟩)⟩) hbelow
  · intro hwhole p hp q hq hbelow
    obtain ⟨pair, hpair, hmem⟩ := mem_planRemovals.1 hp
    obtain ⟨other, hother, hmem'⟩ := mem_planRemovals.1 hq
    rcases mem_planDirectory.1 hmem with ⟨howned, rfl⟩ | ⟨-, htaken⟩
    · rcases mem_planDirectory.1 hmem' with ⟨howned', rfl⟩ | ⟨hnot, htaken'⟩
      · obtain ⟨-, ⟨f, hf, hbelow'⟩, hall⟩ := howned'
        exact hwhole pair hpair other hother (ne_of_mem_parents hbelow) howned f (hall f hf hbelow')
          (parents_trans hbelow hbelow')
      · refine hwhole pair hpair other hother (fun h => hnot ?_) howned q htaken' hbelow
        rw [← scanned_inj hpair hother h]
        exact howned
    · exact taken_notMem_parents htaken (get_isSome_of_mem_planDirectory hmem') hbelow

/-- A second plan is empty, if the first was made from all the files that the directories had. -/
private theorem again_iff :
    (planRemovals (t.without (planRemovals t version wanted).relPaths) version wanted).relPaths = [] ↔
      ∀ pair ∈ wanted.pairs, ∀ f ∈ taken t pair, ∃ first ∈ scanned t wanted, f ∈ taken t first := by
  rw [planRemovals_eq_nil]
  constructor
  · intro hnone pair hpair f hf
    by_contra hleft
    have hcovers : ¬ FileTree.Covers (planRemovals t version wanted).relPaths f :=
      fun h => hleft ((covers_planRemovals (mem_taken.1 hf).1).1 h)
    have hmem := mem_taken_without.2 ⟨hf, hcovers⟩
    rw [hnone pair hpair] at hmem
    cases hmem
  · intro hcomplete pair hpair
    rw [List.eq_nil_iff_forall_not_mem]
    intro f hf
    obtain ⟨htaken, hcovers⟩ := mem_taken_without.1 hf
    exact hcovers ((covers_planRemovals (mem_taken.1 htaken).1).2 (hcomplete pair hpair f htaken))

/-- A tree of dist with the files. -/
def distWith (files : List Str) : FileTree Unit :=
  files.foldl (fun t f => ((t.makeParents f >>= fun t => t.link f ()).toOption).getD t) .empty

end Unpublish

end TrustedReleases
