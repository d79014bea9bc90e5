import TrustedReleases.Merge.Law

/-!
# The bookkeeping of the merge

`merge` updates `n_hashes` and `n_sizes` in place while it links and removes files.  Where the two describe the
temporary directory when it starts, and the stored hashes of the prior revision are right, they describe it when it
ends (`RecordsFiles`), and no file operation fails.  The merge can still fail to end: it indexes `base_hashes` at
every path that the prior revision deleted, also where the inodes alone decide, and `base_hashes` is empty when the
attestable data of the parent revision could not be read.
-/

namespace TrustedReleases

open Lib

variable {ι η : Type}

namespace MergeInput

/-- What a run hands to `merge`: the inodes, hashes and sizes of the files of the temporary directory, and hashes of
the prior revision's files that are right where there are any. -/
structure Recorded (inp : MergeInput ι η) : Prop where
  nInodes_eq : ∀ p, inp.nInodes.get p = inp.tempDir.fileAt p
  nHashes_eq : ∀ p, inp.nHashes.get p = (inp.tempDir.fileAt p).map inp.computeFileHash
  nSizes_eq : ∀ p, inp.nSizes.get p = (inp.tempDir.fileAt p).map inp.stSize
  prior_correct : ∀ p i h, inp.releaseFileHashesAt.get p = some h → inp.priorDir.fileAt p = some i →
    h = inp.computeFileHash i

/-- The keys of `n_hashes` and `n_sizes` are the files of the temporary directory, with the hash and the size of the
file that is there. -/
def RecordsFiles (inp : MergeInput ι η) (s : MergeState ι η) : Prop :=
  ∀ p, s.nHashes.get p = (s.tempDir.fileAt p).map inp.computeFileHash ∧
    s.nSizes.get p = (s.tempDir.fileAt p).map inp.stSize

variable {inp : MergeInput ι η}

private theorem Recorded.newHashed (h : inp.Recorded) : inp.NewHashed := by
  intro p hp
  rw [h.nInodes_eq] at hp
  simpa [h.nHashes_eq] using hp

/-- The hash that the merge records for a file of the prior revision is the file's. -/
private theorem Recorded.priorHashAt_eq (h : inp.Recorded) {p : Str} {i : ι} (hi : inp.priorDir.fileAt p = some i) :
    inp.priorHashAt p i = inp.computeFileHash i := by
  unfold priorHashAt priorHash priorHashesLoad
  split
  · rename_i hash hload
    split at hload
    · have hmap : some (inp.computeFileHash i) = some hash := by simpa [hi] using hload
      exact (Option.some.inj hmap).symm
    · exact h.prior_correct p i hash hload hi
  · rfl

variable [DecidableEq ι] [DecidableEq η]

/-- The records of the final state, where new's describe the files of new and prior's those of prior. -/
private theorem finalRecord_eq {β : Type} {new : Dict Str β} {prior : Str → ι → β} {f : ι → β}
    (hnew : ∀ p, new.get p = (inp.nInodes.get p).map f)
    (hprior : ∀ p i, inp.priorDir.fileAt p = some i → prior p i = f i) (p : Str) :
    inp.finalRecord new prior p = (inp.finalFile p).map f := by
  unfold finalRecord finalFile
  cases inp.outcome p with
  | keepNew => exact hnew p
  | delete => rfl
  | replaceWithPrior | addFromPrior =>
    cases hi : inp.priorDir.fileAt p with
    | none => rfl
    | some i => exact congrArg some (hprior p i hi)

/-- The merge of what a run hands over ends, with the files of the temporary directory recorded, if and only if
`base_hashes` has the paths at which it is indexed; otherwise it fails with the `KeyError` of such a path.  It never
links onto an entry, makes a directory through a file or removes a file that is not there. -/
theorem merge_recordsFiles_iff (h : inp.Recorded) :
    ((∃ s, inp.merge = .ok s ∧ inp.RecordsFiles s) ↔ ∀ p, inp.IndexesBase p → (inp.baseHashes.get p).isSome) ∧
      ∀ e, inp.merge = .error e → ∃ p, e = .keyError p ∧ inp.IndexesBase p ∧ inp.baseHashes.get p = none := by
  rcases merge_cases h.nInodes_eq h.newHashed with ⟨hbase, -⟩ | ⟨p, hp, hnone, herr⟩
  · obtain ⟨s, hok, hfile, hhash, hsize⟩ := merge_ok ⟨h.nInodes_eq, h.newHashed, hbase⟩
    have hrecords : inp.RecordsFiles s := by
      intro p
      rw [hhash, hsize, hfile]
      exact ⟨finalRecord_eq (fun q => by rw [h.nHashes_eq, h.nInodes_eq]) (fun _ _ => h.priorHashAt_eq) p,
        finalRecord_eq (f := inp.stSize) (fun q => by rw [h.nSizes_eq, h.nInodes_eq]) (fun _ _ _ => rfl) p⟩
    exact ⟨⟨fun _ => hbase, fun _ => ⟨s, hok, hrecords⟩⟩, fun e he => by rw [hok] at he; cases he⟩
  · refine ⟨⟨?_, fun hall => ?_⟩, fun e he => ?_⟩
    · rintro ⟨s, hok, -⟩
      rw [herr] at hok
      cases hok
    · have := hall p hp
      rw [hnone] at this
      cases this
    · rw [herr] at he
      exact ⟨p, (Except.error.inj he).symm, hp, hnone⟩

/-- The merge of trees whose hashes are all computed from the files, with the given `base_hashes`. -/
def ofTreesWith (base prior new : FileTree Nat) (baseHashes : Dict Str Nat) : MergeInput Nat Nat :=
  { ofTrees base prior new id id with baseHashes := baseHashes }

private theorem ofTreesWith_recorded (base prior new : FileTree Nat) (baseHashes : Dict Str Nat) :
    (ofTreesWith base prior new baseHashes).Recorded where
  nInodes_eq p := FileTree.get_files new p
  nHashes_eq p := by simp [ofTreesWith, ofTrees]
  nSizes_eq p := by simp [ofTreesWith, ofTrees]
  prior_correct p i h hh hi := by
    have hmap : prior.fileAt p = some h := by simpa [ofTreesWith, ofTrees] using hh
    exact Option.some.inj (hmap.symm.trans hi)

/-- Without base hashes the merge ends where no path of the base was deleted and the inodes decide: here the prior
revision replaced the file that new left alone. -/
theorem merge_recordsFiles_noHashes :
    ∃ s, (ofTreesWith (.single ['a'] 1 rfl) (.single ['a'] 2 rfl) (.single ['a'] 1 rfl) ∅).merge = .ok s ∧
      (ofTreesWith (.single ['a'] 1 rfl) (.single ['a'] 2 rfl) (.single ['a'] 1 rfl) ∅).RecordsFiles s := by
  refine (merge_recordsFiles_iff (ofTreesWith_recorded ..)).1.2 fun p hp => ?_
  obtain ⟨b, n, hb, hn, hq⟩ := hp
  have hb' : (FileTree.single ['a'] 1 rfl).fileAt p = some b := (FileTree.get_files _ p).symm.trans hb
  have hpa : p = ['a'] := by
    have hget : some (Entry.file b) = if p = ['a'] then some (Entry.file 1) else none :=
      (FileTree.fileAt_iff.1 hb').symm.trans (FileTree.get_single ['a'] 1 rfl p)
    by_contra hne
    rw [if_neg hne] at hget
    cases hget
  subst hpa
  have hbn : b = n := Option.some.inj (hb.symm.trans hn)
  exact absurd hbn (hq 2 (by decide)).2.2

/-- The prior revision deleted the file `a` that base and new share, and `base_hashes` is empty: the merge fails
with a `KeyError`, though the inodes are equal and no hash is needed. -/
theorem merge_recordsFiles_fails :
    (ofTreesWith (.single ['a'] 1 rfl) .empty (.single ['a'] 1 rfl) ∅).Recorded ∧
      (ofTreesWith (.single ['a'] 1 rfl) .empty (.single ['a'] 1 rfl) ∅).merge = .error (.keyError ['a']) :=
  ⟨ofTreesWith_recorded .., rfl⟩

end MergeInput

end TrustedReleases
