import TrustedReleases.Revision.Records

/-!
# The attribution history of a release

What a record says of a content is meant to stay: the records of later revisions have its uploaders and basenames too.
Every record is rebuilt from the one that its commit is handed, so it has what that one has; it has what the latest
one has exactly when the one handed does.  A restored revision is handed the record of the revision that it restores,
and a commit whose data cannot be read is handed none.
-/

namespace TrustedReleases

open Lib

variable {ι η ρ : Type} [DecidableEq η]

/-- Every entry of a record is in a later one, with its uploaders and basenames. -/
structure CarriedOn (earlier later : Dict η HashEntry) : Prop where
  entry : ∀ h, (earlier.get h).isSome → (later.get h).isSome
  uploaders : ∀ h, uploadersOf earlier h ⊆ uploadersOf later h
  names : ∀ h, namesOf earlier h ⊆ namesOf later h

theorem CarriedOn.trans {a b c : Dict η HashEntry} (hab : CarriedOn a b) (hbc : CarriedOn b c) : CarriedOn a c where
  entry h hsome := hbc.entry h (hab.entry h hsome)
  uploaders h := List.Subset.trans (hab.uploaders h) (hbc.uploaders h)
  names h := List.Subset.trans (hab.names h) (hbc.names h)

/-- The revision has more paths with the content than the one that it was built on. -/
def RevisionRecord.Increased (r : RevisionRecord ι η ρ) (h : η) : Prop :=
  (hashToPaths ((r.builtOn.map (·.pathToHash)).getD ∅) h).length < (hashToPaths r.revision.pathToHash h).length

/-- The attribution history of a release is complete: every record has the entries of all records before it, it lists
the basenames of its revision's paths, and its uploaders have added paths with the content. -/
structure Records.AttributionKept (s : Records ι η ρ) : Prop where
  carried : ∀ a ∈ s.recorded, ∀ b ∈ s.recorded, a.revision.seq < b.revision.seq → CarriedOn a.hashes b.hashes
  listed : ∀ r ∈ s.recorded, ∀ p h, r.revision.pathToHash.get p = some h →
    (r.hashes.get h).isSome ∧ pathBasename p ∈ namesOf r.hashes h
  increased : ∀ r ∈ s.recorded, ∀ h, ∀ u ∈ uploadersOf r.hashes h,
    ∃ n ∈ s.recorded, n.revision.seq = u.2 ∧ n.Increased h

private theorem isSome_of_mem_uploadersOf {d : Dict η HashEntry} {h : η} {u : Str × Nat} (hu : u ∈ uploadersOf d h) :
    (d.get h).isSome := by
  cases hget : d.get h with
  | none => simp [uploadersOf, hget] at hu
  | some e => rfl

private theorem isSome_of_mem_namesOf {d : Dict η HashEntry} {h : η} {b : Str} (hb : b ∈ namesOf d h) :
    (d.get h).isSome := by
  cases hget : d.get h with
  | none => simp [namesOf, hget] at hb
  | some e => rfl

/-- Two dictionaries with the same values have as many paths for a content. -/
private theorem hashToPaths_length_congr {d d' : Dict Str η} (he : ∀ p, d.get p = d'.get p) (h : η) :
    (hashToPaths d h).length = (hashToPaths d' h).length := by
  have hnd : ∀ d : Dict Str η, (hashToPaths d h).Nodup := fun d => List.Nodup.filter _ d.nodupKeys
  have hperm : (hashToPaths d h).Perm (hashToPaths d' h) := by
    apply (List.perm_ext_iff_of_nodup (hnd d) (hnd d')).2
    intro p
    rw [mem_hashToPaths, mem_hashToPaths, he]
  exact hperm.length_eq

omit [DecidableEq η] in
/-- The paths in the attestable data of a revision are those that it was committed with. -/
private theorem Revision.get_pathHashes (k : Revision ι η ρ) (p : Str) :
    k.attestable.pathHashes.get p = k.pathToHash.get p := by
  obtain ⟨paths, ha, hp⟩ := k.recorded
  rw [ha, ← hp]
  simp [Attestable.pathHashes]

namespace Records

/-- The entries of the latest record are in the record that the commit is handed, with their uploaders, and with their
basenames but for those that the run's own files of the content have. -/
def HandsOn [DecidableEq ι] (disk : Disk ι η) (s : Records ι η ρ) (c : Commit ι η ρ) : Prop :=
  ∀ latest, s.recorded.head? = some latest → ∀ h, (latest.hashes.get h).isSome →
    ((s.previousHashes c).get h).isSome ∧ uploadersOf latest.hashes h ⊆ uploadersOf (s.previousHashes c) h ∧
      ∀ b ∈ namesOf latest.hashes h, b ∈ namesOf (s.previousHashes c) h ∨
        ∃ p, (c.pathToHash disk).get p = some h ∧ pathBasename p = b

variable {s : Records ι η ρ} {latest r : RevisionRecord ι η ρ}

/-- The latest record is that of the latest revision. -/
private theorem latestRevision_eq (hlatest : s.recorded.head? = some latest) :
    s.store.latestRevision = some latest.revision := by
  unfold Store.latestRevision
  rw [← s.complete, List.head?_map, hlatest]
  rfl

private theorem seq_le_latest (hlatest : s.recorded.head? = some latest) (hr : r ∈ s.recorded) :
    r.revision.seq ≤ latest.revision.seq := Store.seq_le_latest (latestRevision_eq hlatest) (revision_mem hr)

/-- There is one record for every revision. -/
private theorem record_eq {a b : RevisionRecord ι η ρ} (ha : a ∈ s.recorded) (hb : b ∈ s.recorded)
    (h : a.revision.seq = b.revision.seq) : a = b := by
  have hnd : (s.recorded.map fun r => r.revision.seq).Nodup := by
    have hlt : (s.store.revisions.map (·.seq)).Nodup := by
      apply List.pairwise_map.2
      exact s.store.seq_lt.imp fun hab => ne_of_gt hab
    rw [← s.complete, List.map_map] at hlt
    exact hlt
  exact List.inj_on_of_nodup_map hnd ha hb h

/-- All records are carried on into the latest one. -/
private theorem AttributionKept.to_latest (hkept : s.AttributionKept) (hlatest : s.recorded.head? = some latest)
    (hr : r ∈ s.recorded) : CarriedOn r.hashes latest.hashes := by
  have hmem := List.mem_of_mem_head? hlatest
  have hle := seq_le_latest hlatest hr
  by_cases heq : r.revision.seq = latest.revision.seq
  · rw [record_eq hr hmem heq]
    exact ⟨fun _ h => h, fun _ => List.Subset.refl _, fun _ => List.Subset.refl _⟩
  · have hlt : r.revision.seq < latest.revision.seq := by omega
    exact hkept.carried r hr latest hmem hlt

variable [DecidableEq ι] [DecidableEq ρ] {disk : Disk ι η} {c : AttributedCommit ι η ρ} {l : Locked ι η ρ}

omit [DecidableEq ρ] in
/-- Where a basename of the latest record is not in the record handed, the files of the commit are those of the run. -/
private theorem handed_or_alone (hl : lockAndMerge disk s.store c.toCommit = .ok l)
    (hlatest : s.recorded.head? = some latest)
    {h : η} (hsome : ((s.previousHashes c.toCommit).get h).isSome) :
    s.previousHashes c.toCommit = latest.hashes ∨ l.pathToHash = c.pathToHash disk := by
  cases hm : c.toCommit.mergeWith s.store.latestRevision with
  | none => exact .inr (lockAndMerge_alone hl hm)
  | some prior =>
    -- a commit that merges is handed the latest record, or none
    have hprior : prior = latest.revision := by
      have heq := mergeWith_latest hm
      rw [latestRevision_eq hlatest] at heq
      exact (Option.some.inj heq).symm
    unfold previousHashes Commit.previousRevision at hsome ⊢
    simp only [hm] at hsome ⊢
    by_cases hread : c.context.priorReadable
    · simp only [hread, if_true] at hsome ⊢
      obtain ⟨r, hr, hrevision, hhashes⟩ := hashesOf_revision (revision_mem (List.mem_of_mem_head? hlatest))
      have heq : r = latest := record_eq hr (List.mem_of_mem_head? hlatest) (by rw [hrevision])
      exact .inl (by rw [hprior, hhashes, heq])
    · simp [hread] at hsome

omit [DecidableEq ρ] in
/-- The latest record is carried on into the new one exactly when it is handed on. -/
private theorem carriedOn_newRecord_iff (hl : lockAndMerge disk s.store c.toCommit = .ok l) :
    (∀ latest, s.recorded.head? = some latest → CarriedOn latest.hashes (newRecord s c l).hashes) ↔
      s.HandsOn disk c.toCommit := by
  constructor
  · intro hcarried latest hlatest h hsome
    have hnew := hcarried latest hlatest
    have hmem := List.mem_of_mem_head? hlatest
    -- the number of the new revision is not in the latest record, so its uploaders come from the record handed
    have huploaders : uploadersOf latest.hashes h ⊆ uploadersOf (s.previousHashes c.toCommit) h := by
      intro u hu
      have hle := (s.uploaded latest hmem).number_le h u hu
      have hlast := s.store.seq_le _ (revision_mem hmem)
      rcases mem_uploadersOf_computeHashes.1 (hnew.uploaders h hu) with hold | ⟨rfl, -, -⟩
      · exact hold
      · have hlt : s.store.lastAllocatedNumber < s.store.nextSeq := Nat.lt_succ_self _
        have hle' : s.store.nextSeq ≤ latest.revision.seq := hle
        omega
    obtain ⟨u, hu⟩ := List.exists_mem_of_ne_nil _ ((s.uploaded latest hmem).nonempty h hsome)
    have hhanded := isSome_of_mem_uploadersOf (huploaders hu)
    refine ⟨hhanded, huploaders, ?_⟩
    intro b hb
    rcases handed_or_alone hl hlatest hhanded with heq | halone
    · exact .inl (heq ▸ hb)
    · have hnames := mem_namesOf_computeHashes.1 (hnew.names h hb)
      rw [halone] at hnames
      exact hnames
  · intro hhands latest hlatest
    constructor
    · intro h hsome
      exact isSome_computeHashes.2 (.inl (hhands latest hlatest h hsome).1)
    · intro h u hu
      have hhanded := hhands latest hlatest h (isSome_of_mem_uploadersOf hu)
      exact mem_uploadersOf_computeHashes.2 (.inl (hhanded.2.1 hu))
    · intro h b hb
      obtain ⟨hsome, -, hnames⟩ := hhands latest hlatest h (isSome_of_mem_namesOf hb)
      apply mem_namesOf_computeHashes.2
      rcases handed_or_alone hl hlatest hsome with heq | halone
      · exact .inl (heq ▸ hb)
      · rw [halone]
        exact hnames b hb

omit [DecidableEq ρ] in
/-- A content that is new in a record has more paths than in the revision that the new one is built on. -/
private theorem newRecord_increased (hl : lockAndMerge disk s.store c.toCommit = .ok l) (hr : c.ReadFrom s.store)
    (hkept : s.AttributionKept) (hhands : s.HandsOn disk c.toCommit) {h : η} (hnew : h ∈ contents l.pathToHash)
    (hadded : (s.previousHashes c.toCommit).get h = none ∨
      (hashToPaths ((l.previousAttestable.map (·.pathHashes)).getD ∅) h).length < (hashToPaths l.pathToHash h).length) :
    (newRecord s c l).Increased h := by
  have hpos := hashToPaths_pos.2 hnew
  show (hashToPaths (((c.toCommit.builtOn s.store).map (·.pathToHash)).getD ∅) h).length <
    (hashToPaths l.pathToHash h).length
  -- a revision whose record has no entry for the content has no path with it
  have hnone : ∀ r ∈ s.recorded, r.hashes.get h = none → hashToPaths r.revision.pathToHash h = [] := by
    intro r hrec hget
    apply List.eq_nil_iff_forall_not_mem.2
    intro p hp
    have hsome := (hkept.listed r hrec p h (mem_hashToPaths.1 hp)).1
    simp [hget] at hsome
  cases hprevious : c.toCommit.previousRevision s.store with
  | some k =>
    have hbuilt := builtOn_of_previous hprevious
    rw [hbuilt]
    rcases hadded with hget | hlt
    · obtain ⟨r, hrec, hrevision, hhashes⟩ := hashesOf_revision (builtOn_mem hr hbuilt)
      have hempty : r.hashes.get h = none := by
        simp only [previousHashes, hprevious] at hget
        rwa [hhashes] at hget
      have hpaths := hnone r hrec hempty
      rw [hrevision] at hpaths
      simpa [hpaths] using hpos
    · rw [lockAndMerge_previous hl, hprevious] at hlt
      simp only [Option.map_some, Option.getD_some] at hlt ⊢
      rwa [hashToPaths_length_congr k.get_pathHashes] at hlt
  | none =>
    cases hbuilt : c.toCommit.builtOn s.store with
    | none => simpa [hashToPaths] using hpos
    | some k =>
      -- nothing is handed, so the latest record is empty, and with it all before it
      obtain ⟨r, hrec, hrevision, -⟩ := hashesOf_revision (builtOn_mem hr hbuilt)
      obtain ⟨latest, hlatest⟩ : ∃ latest, s.recorded.head? = some latest := by
        cases hhead : s.recorded.head? with
        | none => rw [List.head?_eq_none_iff.1 hhead] at hrec; cases hrec
        | some latest => exact ⟨latest, rfl⟩
      have hempty : r.hashes.get h = none := by
        by_contra hne
        have hsome := (hkept.to_latest hlatest hrec).entry h (Option.isSome_iff_ne_none.2 hne)
        have hhanded := (hhands latest hlatest h hsome).1
        simp [previousHashes, hprevious] at hhanded
      have hpaths := hnone r hrec hempty
      rw [hrevision] at hpaths
      simpa [hpaths] using hpos

omit [DecidableEq ι] in
/-- A commit does not repair the history. -/
private theorem AttributionKept.of_add (h : (s.add c l).AttributionKept) : s.AttributionKept where
  carried a ha b hb hlt := h.carried a (List.mem_cons_of_mem _ ha) b (List.mem_cons_of_mem _ hb) hlt
  listed r hr p x hp := h.listed r (List.mem_cons_of_mem _ hr) p x hp
  increased r hr x u hu := by
    obtain ⟨n, hn, hseq, hincreased⟩ := h.increased r (List.mem_cons_of_mem _ hr) x u hu
    rcases List.mem_cons.1 hn with rfl | hn
    · have hle := (s.uploaded r hr).number_le x u hu
      have hlast := s.store.seq_le _ (revision_mem hr)
      have hnext : s.store.nextSeq = u.2 := hseq
      unfold Store.nextSeq at hnext
      omega
    · exact ⟨n, hn, hseq, hincreased⟩

/-- A commit keeps the attribution history exactly when the latest record is handed on to it. -/
private theorem add_attributionKept_iff (hl : lockAndMerge disk s.store c.toCommit = .ok l) (hr : c.ReadFrom s.store)
    (hkept : s.AttributionKept) : (s.add c l).AttributionKept ↔ s.HandsOn disk c.toCommit := by
  rw [← carriedOn_newRecord_iff hl]
  have hlt : ∀ r ∈ s.recorded, r.revision.seq < s.store.nextSeq := fun r hrec =>
    Nat.lt_succ_of_le (s.store.seq_le _ (revision_mem hrec))
  constructor
  · intro h latest hlatest
    have hmem := List.mem_of_mem_head? hlatest
    exact h.carried latest (List.mem_cons_of_mem _ hmem) _ List.mem_cons_self (hlt latest hmem)
  · intro hcarried
    have hhands := (carriedOn_newRecord_iff hl).1 hcarried
    constructor
    · intro a ha b hb hab
      rcases List.mem_cons.1 hb with rfl | hb
      · rcases List.mem_cons.1 ha with rfl | ha
        · exact absurd hab (lt_irrefl _)
        · cases hhead : s.recorded.head? with
          | none => rw [List.head?_eq_none_iff.1 hhead] at ha; cases ha
          | some latest => exact (hkept.to_latest hhead ha).trans (hcarried latest hhead)
      · rcases List.mem_cons.1 ha with rfl | ha
        · have hnext : s.store.nextSeq < b.revision.seq := hab
          have hb' := hlt b hb
          omega
        · exact hkept.carried a ha b hb hab
    · intro r hrec p x hp
      rcases List.mem_cons.1 hrec with rfl | hrec
      · have hname : pathBasename p ∈ namesOf (newRecord s c l).hashes x :=
          mem_namesOf_computeHashes.2 (.inr ⟨p, hp, rfl⟩)
        exact ⟨isSome_of_mem_namesOf hname, hname⟩
      · exact hkept.listed r hrec p x hp
    · intro r hrec x u hu
      have hold : ∀ r ∈ s.recorded, u ∈ uploadersOf r.hashes x →
          ∃ n ∈ (s.add c l).recorded, n.revision.seq = u.2 ∧ n.Increased x := by
        intro r hrec hu
        obtain ⟨n, hn, hincreased⟩ := hkept.increased r hrec x u hu
        exact ⟨n, List.mem_cons_of_mem _ hn, hincreased⟩
      rcases List.mem_cons.1 hrec with rfl | hrec
      · rcases mem_uploadersOf_computeHashes.1 hu with hprevious | ⟨rfl, hnew, hadded⟩
        · rcases s.previousHashes_cases c.toCommit with hempty | ⟨r, hrec, he⟩
          · simp [hempty, uploadersOf] at hprevious
          · exact hold r hrec (he ▸ hprevious)
        · exact ⟨_, List.mem_cons_self, rfl, newRecord_increased hl hr hkept hhands hnew hadded⟩
      · exact hold r hrec hu

end Records

variable [DecidableEq ι] [DecidableEq ρ] {disk : Disk ι η} {dependencies : ρ → List Str} {s' : Records ι η ρ}

/-- In every history of commits the attribution history is complete if and only if every commit is handed on the
entries of the latest record. -/
theorem history_attributionKept_iff {n : Nat} {history : List (AttributedCommit ι η ρ)}
    (hrun : runAll (createRecorded disk dependencies) (Records.empty n) history = .ok s')
    (hdom : Along (createRecorded disk dependencies) (fun s c => c.ReadFrom s.store) (Records.empty n) history) :
    s'.AttributionKept ↔
      Along (createRecorded disk dependencies) (fun s c => s.HandsOn disk c.toCommit) (Records.empty n) history := by
  have hempty : (Records.empty n : Records ι η ρ).AttributionKept := by
    constructor <;> simp [Records.empty]
  apply Along.good_iff Records.AttributionKept ?_ ?_ hrun hdom hempty
  · intro s c s₁ _ hstep hkept
    obtain ⟨l, -, rfl⟩ := createRecorded_ok hstep
    exact hkept.of_add
  · intro s c s₁ hread hstep hkept
    obtain ⟨l, hl, rfl⟩ := createRecorded_ok hstep
    exact Records.add_attributionKept_iff hl hread hkept

/-! ### A restored revision that loses an entry -/

/-- A commit of a user to a release. -/
def attributedOf (c : Commit Nat Nat Unit) : AttributedCommit Nat Nat Unit := { c with asfUid := ['u'] }

/-- The release after such a commit, where nothing is merged. -/
def recordsAfter (s : Records Nat Nat Unit) (c : Commit Nat Nat Unit) : Records Nat Nat Unit :=
  s.add (attributedOf c) (lockedOf s.store c)

def records₁ : Records Nat Nat Unit := recordsAfter (.empty 0) firstCommit

def records₂ : Records Nat Nat Unit := recordsAfter records₁ replacingCommit

/-- A revision with `a`, one that replaces it, and the first one restored: the record of the restored revision has no
entry for the content of the second one. -/
theorem history_attribution_lost :
    ∃ s, runAll (createRecorded ⟨id, id⟩ fun _ => []) (.empty 0)
        [attributedOf firstCommit, attributedOf replacingCommit, attributedOf restoringCommit] = .ok s ∧
      Along (createRecorded ⟨id, id⟩ fun _ => []) (fun s c => c.ReadFrom s.store) (.empty 0)
        [attributedOf firstCommit, attributedOf replacingCommit, attributedOf restoringCommit] ∧
      ∃ a ∈ s.recorded, ∃ b ∈ s.recorded, a.revision.seq < b.revision.seq ∧ (a.hashes.get 2).isSome ∧
        b.hashes.get 2 = none := by
  refine ⟨recordsAfter records₂ restoringCommit, rfl, ?_, newRecord records₁ (attributedOf replacingCommit) _,
    List.mem_cons_of_mem _ List.mem_cons_self, _, List.mem_cons_self, by decide, by decide, by decide⟩
  refine Along.cons (t := records₁) rfl firstCommit_readFrom ?_
  refine Along.cons (t := records₂) rfl replacingCommit_readFrom ?_
  exact Along.cons rfl restoringCommit_readFrom trivial

/-- Without the restored revision the attribution history is complete. -/
theorem history_attributionKept_replaced :
    ∃ s, runAll (createRecorded ⟨id, id⟩ fun _ => []) (.empty 0)
        [attributedOf firstCommit, attributedOf replacingCommit] = .ok s ∧ s.AttributionKept := by
  have hrun : runAll (createRecorded ⟨id, id⟩ fun _ => []) (.empty 0)
      [attributedOf firstCommit, attributedOf replacingCommit] = .ok records₂ := rfl
  refine ⟨records₂, hrun, (history_attributionKept_iff hrun ?_).2 ?_⟩
  · refine Along.cons (t := records₁) rfl firstCommit_readFrom ?_
    exact Along.cons (t := records₂) rfl replacingCommit_readFrom trivial
  · refine Along.cons (t := records₁) rfl ?_ ?_
    · intro latest hlatest
      cases hlatest
    · refine Along.cons (t := records₂) rfl ?_ trivial
      intro latest hlatest h hsome
      obtain rfl : latest = newRecord (.empty 0) (attributedOf firstCommit) _ := (Option.some.inj hlatest).symm
      exact ⟨hsome, List.Subset.refl _, fun b hb => .inl hb⟩

end TrustedReleases
