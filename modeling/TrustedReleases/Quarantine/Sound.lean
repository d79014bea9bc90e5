import TrustedReleases.Quarantine.System

/-!
# What the quarantine lets through

The entries of the records, the directories of extracted archives and the rows of the file state all stand for
archives that have been extracted.  `Invariant` ties them together: a content that a revision, a record, a row or a
waiting upload has under a name with a suffix has been extracted under that suffix, or is still listed for it.  The
directories are named by the content alone, so the invariant needs a condition on the archives that are skipped.
-/

namespace TrustedReleases

open Lib

variable {ι η ρ : Type}

/-- The content has been extracted with the suffix of a file name, if it has one, before a revision was committed. -/
def ExtractedAs (extractions : List (Extraction η)) (before : Nat) (content : η) (name : Str) : Prop :=
  ∀ suffix, quarantineArchiveSuffix name = some suffix →
    ∃ e ∈ extractions, e.content = content ∧ e.suffix = suffix ∧ e.lastRevision < before

private theorem ExtractedAs.mono {extractions later : List (Extraction η)} {before after : Nat} {content : η}
    {name : Str}
    (h : ExtractedAs extractions before content name) (hsub : extractions ⊆ later) (hle : before ≤ after) :
    ExtractedAs later after content name := by
  intro suffix hsuffix
  obtain ⟨e, he, hcontent, hname, hlt⟩ := h suffix hsuffix
  exact ⟨e, hsub he, hcontent, hname, lt_of_lt_of_le hlt hle⟩

/-- Only the suffix of the name matters. -/
theorem ExtractedAs.congr {extractions : List (Extraction η)} {before : Nat} {content : η} {name other : Str}
    (h : ExtractedAs extractions before content name)
    (hsuffix : quarantineArchiveSuffix other = quarantineArchiveSuffix name) :
    ExtractedAs extractions before content other := by
  intro suffix hother
  exact h suffix (hsuffix ▸ hother)

variable [DecidableEq η]

namespace Quarantine

/-- The content has been extracted with the suffix of a path. -/
def Validated (s : Quarantine ι η ρ) (content : η) (path : Str) : Prop :=
  ExtractedAs s.extractions s.records.store.nextSeq content (pathBasename path)

/-- An upload in quarantine: each of its files has been validated or has an archive with its content and suffix on the
list, and the file of each archive has the hash that is listed for it, or that hash has been validated. -/
structure Waiting (disk : Disk ι η) (s : Quarantine ι η ρ) (q : QuarantinedUpload ι η) : Prop where
  file : ∀ p i, q.quarantineDir.fileAt p = some i → s.Validated (disk.computeFileHash i) p ∨
    ∃ a ∈ q.archives, a.2 = disk.computeFileHash i ∧ pathSuffix a.1 = pathSuffix p
  archive : ∀ a ∈ q.archives, ∀ i, q.quarantineDir.fileAt a.1 = some i →
    disk.computeFileHash i = a.2 ∨ s.Validated a.2 a.1

/-- Whatever the release knows of a content under a name with a suffix has been extracted with that suffix. -/
structure Invariant (disk : Disk ι η) (s : Quarantine ι η ρ) : Prop where
  file : ∀ r ∈ s.records.store.revisions, ∀ p i, r.tree.fileAt p = some i →
    ExtractedAs s.extractions r.seq (disk.computeFileHash i) (pathBasename p)
  entry : ∀ r ∈ s.records.recorded, ∀ h, ∀ b ∈ namesOf r.hashes h, ExtractedAs s.extractions r.revision.seq h b
  row : ∀ row ∈ s.records.store.rows, ∀ h, row.hash = some h → s.Validated h row.path
  waiting : ∀ id q, s.quarantined.get id = some q → s.Waiting disk q

/-- Where the validation task skips an archive, its content has been extracted with its suffix. -/
def SkipsExtracted (s : Quarantine ι η ρ) : QuarantineEvent ι η ρ → Prop
  | .validate id early => ∀ q relPath contentHash rest, s.quarantined.get id = some q →
      q.archives = (relPath, contentHash) :: rest → s.Skips contentHash early →
      ∃ e ∈ s.extractions, e.content = contentHash ∧ some e.suffix = pathSuffix relPath
  | _ => True

variable {disk : Disk ι η} {s s' : Quarantine ι η ρ}

private theorem empty_invariant (n : Nat) (archiveDirs : List η) :
    (Quarantine.empty n archiveDirs : Quarantine ι η ρ).Invariant disk := by
  constructor <;> simp [Quarantine.empty, Records.empty, Store.empty]

private theorem Validated.mono {content : η} {p : Str} (h : s.Validated content p)
    (hsub : s.extractions ⊆ s'.extractions)
    (hle : s.records.store.nextSeq ≤ s'.records.store.nextSeq) : s'.Validated content p :=
  ExtractedAs.mono h hsub hle

theorem Validated.congr {content : η} {p q : Str} (h : s.Validated content p) (hsuffix : pathSuffix q = pathSuffix p) :
    s.Validated content q := ExtractedAs.congr h hsuffix

/-- An extraction that is there validates its content under its suffix. -/
private theorem validated_of_extraction {content : η} {p : Str}
    (h : ∃ e ∈ s.extractions, e.content = content ∧ some e.suffix = pathSuffix p) : s.Validated content p := by
  obtain ⟨e, he, hcontent, hname⟩ := h
  intro suffix hsuffix
  have hsame : some e.suffix = some suffix := hname.trans hsuffix
  exact ⟨e, he, hcontent, Option.some.inj hsame, Nat.lt_succ_of_le (s.extracted_le e he)⟩

private theorem Waiting.mono {q : QuarantinedUpload ι η} (h : s.Waiting disk q) (hsub : s.extractions ⊆ s'.extractions)
    (hle : s.records.store.nextSeq ≤ s'.records.store.nextSeq) : s'.Waiting disk q where
  file p i hi := (h.file p i hi).imp_left fun hv => hv.mono hsub hle
  archive a ha i hi := (h.archive a ha i hi).imp_right fun hv => hv.mono hsub hle

/-- A step that leaves the revisions, the records and the rows as they are. -/
theorem Invariant.same (h : s.Invariant disk) (hrecords : s'.records = s.records)
    (hsub : s.extractions ⊆ s'.extractions)
    (hwaiting : ∀ id q, s'.quarantined.get id = some q → s'.Waiting disk q) : s'.Invariant disk where
  file r hr p i hi := by
    rw [hrecords] at hr
    exact (h.file r hr p i hi).mono hsub le_rfl
  entry r hr x b hb := by
    rw [hrecords] at hr
    exact (h.entry r hr x b hb).mono hsub le_rfl
  row row hrow x hx := by
    rw [hrecords] at hrow
    exact (h.row row hrow x hx).mono hsub (by rw [hrecords])
  waiting := hwaiting

theorem Invariant.dropped (h : s.Invariant disk) (id : Nat) : (s.dropped id).Invariant disk := by
  have hrecords : (s.dropped id).records = s.records := rfl
  apply h.same hrecords (List.Subset.refl _)
  intro id' q hq
  have hget : (if id' = id then none else s.quarantined.get id') = some q := by
    rw [← Dict.get_pop]
    exact hq
  by_cases he : id' = id
  · simp [he] at hget
  · rw [if_neg he] at hget
    exact (h.waiting id' q hget).mono (List.Subset.refl _) le_rfl

/-- An archive that has been validated leaves the list of its upload. -/
theorem Waiting.passed {q : QuarantinedUpload ι η} {a : Str × η} {rest : List (Str × η)} (h : s.Waiting disk q)
    (harchives : q.archives = a :: rest) (hvalidated : s.Validated a.2 a.1) :
    s.Waiting disk { q with archives := rest } where
  file p i hi := by
    rcases h.file p i hi with hv | ⟨b, hb, hcontent, hsuffix⟩
    · exact .inl hv
    · rw [harchives] at hb
      rcases List.mem_cons.1 hb with rfl | hb
      · left
        rw [← hcontent]
        exact hvalidated.congr hsuffix.symm
      · exact .inr ⟨b, hb, hcontent, hsuffix⟩
  archive b hb := h.archive b (by rw [harchives]; exact List.mem_cons_of_mem _ hb)

theorem Invariant.passed {q : QuarantinedUpload ι η} {id : Nat} {a : Str × η} {rest : List (Str × η)}
    (h : s.Invariant disk) (hq : s.quarantined.get id = some q) (harchives : q.archives = a :: rest)
    (hvalidated : s.Validated a.2 a.1) : (s.passed id q rest).Invariant disk := by
  have hrecords : (s.passed id q rest).records = s.records := rfl
  apply h.same hrecords (List.Subset.refl _)
  intro id' q' hq'
  have hget : (if id' = id then some { q with archives := rest } else s.quarantined.get id') = some q' := by
    rw [← Dict.get_set]
    exact hq'
  by_cases he : id' = id
  · rw [if_pos he] at hget
    obtain rfl := Option.some.inj hget
    exact ((h.waiting id q hq).passed harchives hvalidated).mono (List.Subset.refl _) le_rfl
  · rw [if_neg he] at hget
    exact (h.waiting id' q' hget).mono (List.Subset.refl _) le_rfl

theorem Invariant.extracted (h : s.Invariant disk) (contentHash : η) (found : η × Str) :
    (s.extracted contentHash found).Invariant disk := by
  have hrecords : (s.extracted contentHash found).records = s.records := rfl
  have hsub : s.extractions ⊆ (s.extracted contentHash found).extractions := List.subset_cons_self _ _
  apply h.same hrecords hsub
  intro id q hq
  exact (h.waiting id q hq).mono hsub le_rfl

/-- A pass of the validation loop. -/
private theorem Invariant.validateNext (h : s.Invariant disk) {extracts : η → Str → Bool} {id : Nat} {early : Bool}
    (hskips : s.SkipsExtracted (.validate id early)) : (s.validateNext disk extracts id early).Invariant disk := by
  unfold Quarantine.validateNext
  cases hq : s.quarantined.get id with
  | none => exact h
  | some q =>
    cases harchives : q.archives with
    | nil => simpa [harchives] using h
    | cons a rest =>
      obtain ⟨relPath, contentHash⟩ := a
      simp only [harchives]
      by_cases hskip : s.Skips contentHash early
      · rw [if_pos hskip]
        exact h.passed hq harchives (validated_of_extraction (hskips q relPath contentHash rest hq harchives hskip))
      · rw [if_neg hskip]
        cases hfound : extractArchive disk extracts q relPath with
        | none => exact h.dropped id
        | some found =>
          refine (h.extracted contentHash found).passed hq harchives ?_
          -- the content of the file has just been extracted, and the listed hash is its own or has been validated
          unfold extractArchive at hfound
          split at hfound
          · rename_i i suffix hi hsuffix
            have hmem : (relPath, contentHash) ∈ q.archives := by simp [harchives]
            rcases (h.waiting id q hq).archive _ hmem i hi with heq | hvalidated
            · apply validated_of_extraction
              refine ⟨_, List.mem_cons_self, ?_, ?_⟩
              · split at hfound
                · rw [← Option.some.inj hfound]
                  exact heq
                · cases hfound
              · split at hfound
                · rw [← Option.some.inj hfound]
                  exact hsuffix.symm
                · cases hfound
            · exact hvalidated.mono (List.subset_cons_self _ _) le_rfl
          · cases hfound

/-- The records that a commit is handed know only what has been extracted. -/
private theorem Invariant.previousEntries (h : s.Invariant disk) {c : Commit ι η ρ} {x : η} {b : Str}
    (hb : b ∈ namesOf (s.records.previousHashes c) x) :
    ExtractedAs s.extractions s.records.store.nextSeq x b := by
  rcases s.records.previousHashes_cases c with hempty | ⟨r, hr, he⟩
  · simp [hempty, namesOf] at hb
  · rw [he] at hb
    have hle := s.records.store.seq_le _ (Records.revision_mem hr)
    exact (h.entry r hr x b hb).mono (List.Subset.refl _) (Nat.le_succ_of_le hle)

variable [DecidableEq ι] [DecidableEq ρ] {dependencies : ρ → List Str} {c : AttributedCommit ι η ρ}
  {l : Locked ι η ρ}

omit [DecidableEq ρ] in
/-- The files after the lock have been validated where the run's own ones have. -/
private theorem Invariant.locked_file (h : s.Invariant disk) (hl : lockAndMerge disk s.records.store c.toCommit = .ok l)
    (hown : ∀ p i, c.tempDir.fileAt p = some i → l.tempDir.fileAt p = some i →
      l.pathToHash.get p = some (disk.computeFileHash i) → s.Validated (disk.computeFileHash i) p)
    {p : Str} {i : ι} (hi : l.tempDir.fileAt p = some i) : s.Validated (disk.computeFileHash i) p := by
  rcases lockAndMerge_file hl hi with ⟨hfile, hhash⟩ | ⟨prior, hprior, hfile⟩
  · exact hown p i hfile hi hhash
  · have hle := s.records.store.seq_le _ hprior
    exact (h.file prior hprior p i hfile).mono (List.Subset.refl _) (Nat.le_succ_of_le hle)

omit [DecidableEq ρ] in
/-- So have the contents that are recorded for the paths. -/
private theorem Invariant.locked_hash (h : s.Invariant disk) (hl : lockAndMerge disk s.records.store c.toCommit = .ok l)
    (hfiles : ∀ p i, l.tempDir.fileAt p = some i → s.Validated (disk.computeFileHash i) p)
    {p : Str} {x : η} (hx : l.pathToHash.get p = some x) : s.Validated x p := by
  rcases lockAndMerge_hash hl hx with ⟨i, hi, rfl⟩ | ⟨row, hrow, rfl, hhash⟩
  · exact hfiles p i hi
  · exact h.row row hrow x hhash

/-- A commit of files that have been validated. -/
theorem Invariant.commit (h : s.Invariant disk) (hl : lockAndMerge disk s.records.store c.toCommit = .ok l)
    (hfiles : ∀ p i, l.tempDir.fileAt p = some i → s.Validated (disk.computeFileHash i) p) :
    (s.commit c l).Invariant disk where
  file r hr p i hi := by
    rcases List.mem_cons.1 hr with rfl | hr
    · exact hfiles p i hi
    · exact h.file r hr p i hi
  entry r hr x b hb := by
    rcases List.mem_cons.1 hr with rfl | hr
    · rcases mem_namesOf_computeHashes.1 hb with hprevious | ⟨p, hp, rfl⟩
      · exact h.previousEntries hprevious
      · exact h.locked_hash hl hfiles hp
    · exact h.entry r hr x b hb
  row row hrow x hx := by
    have hle : s.records.store.nextSeq ≤ (s.commit c l).records.store.nextSeq := Nat.le_succ _
    rcases List.mem_append.1 hrow with hrow | hrow
    · exact (h.row row hrow x hx).mono (List.Subset.refl _) hle
    · unfold newRows at hrow
      split at hrow
      · rename_i hw
        rw [(row_eq (base_of_canWrite hw) hrow).2] at hx
        exact (h.locked_hash hl hfiles hx).mono (List.Subset.refl _) hle
      · cases hrow
  waiting id q hq := (h.waiting id q hq).mono (List.Subset.refl _) (Nat.le_succ _)

omit [DecidableEq ι] [DecidableEq ρ] in
/-- A path that is not detected has a content that has been validated. -/
private theorem Invariant.not_detected (h : s.Invariant disk) {pathToHash : Dict Str η} {p : Str} {x : η}
    (hx : pathToHash.get p = some x)
    (hnot : p ∉ detectArchivesRequiringQuarantine pathToHash (s.previousEntries c.toCommit)) : s.Validated x p := by
  intro suffix hsuffix
  have hkey : archiveKey pathToHash p = some (x, suffix) := archiveKey_eq_some.2 ⟨hx, hsuffix⟩
  have hneeds : needsQuarantine (s.previousEntries c.toCommit) x suffix = false := by
    by_contra hne
    exact hnot (mem_detect.2 ⟨x, suffix, hkey, by simpa using hne⟩)
  obtain ⟨hashes, hprevious, b, hb, hbsuffix⟩ := recorded_of_not_needs hneeds
  have heq : hashes = s.records.previousHashes c.toCommit := by
    unfold Quarantine.previousEntries at hprevious
    unfold Records.previousHashes
    cases hr : c.toCommit.previousRevision s.records.store with
    | none => rw [hr] at hprevious; cases hprevious
    | some r =>
      rw [hr] at hprevious
      exact (Option.some.inj hprevious).symm
  rw [heq] at hb
  exact h.previousEntries hb suffix hbsuffix

omit [DecidableEq ρ] in
/-- An upload goes into quarantine with an archive on the list for each of its files that has not been validated. -/
private theorem Invariant.locked_waiting (h : s.Invariant disk)
    (hl : lockAndMerge disk s.records.store c.toCommit = .ok l) :
    s.Waiting disk ⟨l.tempDir, l.priorRevisionKey, deduplicateQuarantineArchives
      (detectArchivesRequiringQuarantine l.pathToHash (s.previousEntries c.toCommit)) l.pathToHash, c.asfUid⟩ where
  file p i hi := by
    rcases lockAndMerge_file hl hi with ⟨-, hhash⟩ | ⟨prior, hprior, hfile⟩
    · by_cases hp : p ∈ detectArchivesRequiringQuarantine l.pathToHash (s.previousEntries c.toCommit)
      · right
        obtain ⟨x, suffix, hkey, -⟩ := mem_detect.1 hp
        have hx := (archiveKey_eq_some.1 hkey).1
        rw [hhash] at hx
        obtain rfl := Option.some.inj hx
        obtain ⟨e, ⟨hmem, hekey⟩, -⟩ := deduplicate_existsUnique hp hkey
        have hcontent := (mem_of_mem_deduplicate hmem).2
        rw [(archiveKey_eq_some.1 hekey).1] at hcontent
        refine ⟨e, hmem, (Option.some.inj hcontent).symm, ?_⟩
        rw [(archiveKey_eq_some.1 hekey).2, (archiveKey_eq_some.1 hkey).2]
      · exact .inl (h.not_detected hhash hp)
    · have hle := s.records.store.seq_le _ hprior
      exact .inl ((h.file prior hprior p i hfile).mono (List.Subset.refl _) (Nat.le_succ_of_le hle))
  archive a ha i hi := by
    have hhash := (mem_of_mem_deduplicate ha).2
    rcases lockAndMerge_hash hl hhash with ⟨j, hj, he⟩ | ⟨row, hrow, hpath, hrowhash⟩
    · have hij : some i = some j := hi.symm.trans hj
      exact .inl (Option.some.inj hij ▸ he)
    · exact .inr (hpath ▸ h.row row hrow a.2 hrowhash)

omit [DecidableEq ι] [DecidableEq ρ] in
theorem Invariant.quarantine {c : Upload ι η ρ} {deduped : List (Str × η)} (h : s.Invariant disk)
    (hwaiting : s.Waiting disk ⟨l.tempDir, l.priorRevisionKey, deduped, c.asfUid⟩) :
    (s.quarantine c l deduped).Invariant disk := by
  have hrecords : (s.quarantine c l deduped).records = s.records := rfl
  apply h.same hrecords (List.Subset.refl _)
  intro id q hq
  have hget : (if id = s.nextId then some ⟨l.tempDir, l.priorRevisionKey, deduped, c.asfUid⟩
      else s.quarantined.get id) = some q := by
    rw [← Dict.get_set]
    exact hq
  by_cases he : id = s.nextId
  · rw [if_pos he] at hget
    obtain rfl := Option.some.inj hget
    exact hwaiting.mono (List.Subset.refl _) le_rfl
  · rw [if_neg he] at hget
    exact (h.waiting id q hget).mono (List.Subset.refl _) le_rfl

/-- A commit of an upload in which nothing is detected. -/
private theorem Invariant.commit_undetected (h : s.Invariant disk)
    (hl : lockAndMerge disk s.records.store c.toCommit = .ok l)
    (hnone : detectArchivesRequiringQuarantine l.pathToHash (s.previousEntries c.toCommit) = []) :
    (s.commit c l).Invariant disk := by
  apply h.commit hl
  intro p i hi
  apply h.locked_file hl ?_ hi
  intro p i _ _ hhash
  apply h.not_detected (c := c) hhash
  simp [hnone]

theorem Invariant.upload (h : s.Invariant disk) {c : Upload ι η ρ}
    (hstep : s.upload disk dependencies c = .ok s') : s'.Invariant disk := by
  unfold Quarantine.upload at hstep
  obtain ⟨l, hl, hstep⟩ := bind_eq_ok hstep
  obtain ⟨_, -, hstep⟩ := bind_eq_ok hstep
  have hlock := mapError_eq_ok.1 hl
  simp only [commitOrQuarantine] at hstep
  by_cases hnone : detectArchivesRequiringQuarantine l.pathToHash (s.previousEntries c.toCommit) = []
  · rw [if_pos hnone] at hstep
    obtain rfl := Except.ok.inj hstep
    exact h.commit_undetected hlock hnone
  · rw [if_neg hnone] at hstep
    split at hstep
    · cases hstep
    · split at hstep
      · -- every path that is detected has an entry, so the list is not empty
        rename_i hempty
        obtain ⟨p, hp⟩ := List.exists_mem_of_ne_nil _ hnone
        obtain ⟨x, suffix, hkey, -⟩ := mem_detect.1 hp
        obtain ⟨e, ⟨hmem, -⟩, -⟩ := deduplicate_existsUnique hp hkey
        rw [hempty] at hmem
        cases hmem
      · obtain rfl := Except.ok.inj hstep
        exact h.quarantine (h.locked_waiting hlock)

theorem Invariant.promote (h : s.Invariant disk) {id : Nat} {attestableReadable : Bool} {context : CommitContext η}
    (hstep : s.promote disk id attestableReadable context = .ok s') : s'.Invariant disk := by
  unfold Quarantine.promote at hstep
  obtain ⟨q, hq, hstep⟩ := demand_bind_eq_ok.1 hstep
  obtain ⟨harchives, hstep⟩ := raiseIf_bind_eq_ok.1 hstep
  obtain ⟨l, hl, hstep⟩ := bind_eq_ok hstep
  have hlock := mapError_eq_ok.1 hl
  obtain rfl := Except.ok.inj hstep
  apply Invariant.dropped
  apply h.commit hlock
  intro p i hi
  apply h.locked_file hlock ?_ hi
  -- nothing is left on the list, so every file of the upload has been validated
  intro p i hfile _ _
  rcases (h.waiting id q hq).file p i hfile with hv | ⟨a, ha, -⟩
  · exact hv
  · rw [not_not.1 harchives] at ha
    cases ha

theorem Invariant.step (h : s.Invariant disk) {extracts : η → Str → Bool} {event : QuarantineEvent ι η ρ}
    (hskips : s.SkipsExtracted event) (hstep : s.step disk dependencies extracts event = .ok s') :
    s'.Invariant disk := by
  cases event with
  | upload c => exact h.upload hstep
  | validate id early =>
    obtain rfl := Except.ok.inj hstep
    exact h.validateNext hskips
  | promote id attestableReadable context => exact h.promote hstep
  | fail id =>
    obtain rfl := Except.ok.inj hstep
    exact h.dropped id

/-! ### Runs -/

/-- Every extraction is of an archive that can be extracted. -/
def Genuine (extracts : η → Str → Bool) (s : Quarantine ι η ρ) : Prop :=
  ∀ e ∈ s.extractions, extracts e.content e.suffix = true

omit [DecidableEq ι] [DecidableEq ρ] in
private theorem Genuine.validateNext {extracts : η → Str → Bool} (h : s.Genuine extracts) {id : Nat} {early : Bool} :
    (s.validateNext disk extracts id early).Genuine extracts := by
  unfold Quarantine.validateNext
  cases hq : s.quarantined.get id with
  | none => exact h
  | some q =>
    cases harchives : q.archives with
    | nil => simpa [harchives] using h
    | cons a rest =>
      simp only [harchives]
      split
      · exact h
      · cases hfound : extractArchive disk extracts q a.1 with
        | none => exact h
        | some found =>
          intro e he
          rcases List.mem_cons.1 he with rfl | he
          · unfold extractArchive at hfound
            split at hfound
            · split at hfound
              · rename_i hextracts
                rw [← Option.some.inj hfound]
                exact hextracts
              · cases hfound
            · cases hfound
          · exact h e he

theorem Genuine.step {extracts : η → Str → Bool} (h : s.Genuine extracts) {event : QuarantineEvent ι η ρ}
    (hstep : s.step disk dependencies extracts event = .ok s') : s'.Genuine extracts := by
  cases event with
  | upload c =>
    obtain ⟨l, -, hstep⟩ := bind_eq_ok hstep
    obtain ⟨_, -, hstep⟩ := bind_eq_ok hstep
    simp only [commitOrQuarantine] at hstep
    split at hstep
    · obtain rfl := Except.ok.inj hstep
      exact h
    · split at hstep
      · cases hstep
      · split at hstep
        · obtain rfl := Except.ok.inj hstep
          exact h
        · obtain rfl := Except.ok.inj hstep
          exact h
  | validate id early =>
    obtain rfl := Except.ok.inj hstep
    exact h.validateNext
  | promote id attestableReadable context =>
    obtain ⟨q, -, hstep⟩ := demand_bind_eq_ok.1 hstep
    obtain ⟨-, hstep⟩ := raiseIf_bind_eq_ok.1 hstep
    obtain ⟨l, -, hstep⟩ := bind_eq_ok hstep
    obtain rfl := Except.ok.inj hstep
    exact h
  | fail id =>
    obtain rfl := Except.ok.inj hstep
    exact h

/-- An upload in which an archive is detected waits with a list of archives, one for every content and suffix that
needs quarantine. -/
private theorem upload_lists {c : Upload ι η ρ} (hl : lockAndMerge disk s.records.store c.toCommit = .ok l)
    (hstep : s.upload disk dependencies c = .ok s') {p : Str}
    (hp : p ∈ detectArchivesRequiringQuarantine l.pathToHash (s.previousEntries c.toCommit)) :
    ∃ q, s'.quarantined.get s.nextId = some q ∧ ∀ x suffix, archiveKey l.pathToHash p = some (x, suffix) →
      ∃! e, e ∈ q.archives ∧ archiveKey l.pathToHash e.1 = some (x, suffix) := by
  unfold Quarantine.upload at hstep
  obtain ⟨l', hl', hstep⟩ := bind_eq_ok hstep
  obtain ⟨_, -, hstep⟩ := bind_eq_ok hstep
  have hlock := mapError_eq_ok.1 hl'
  rw [hl] at hlock
  obtain rfl := Except.ok.inj hlock
  simp only [commitOrQuarantine] at hstep
  rw [if_neg (List.ne_nil_of_mem hp)] at hstep
  split at hstep
  · cases hstep
  · split at hstep
    · rename_i hempty
      obtain ⟨x, suffix, hkey, -⟩ := mem_detect.1 hp
      obtain ⟨e, ⟨hmem, -⟩, -⟩ := deduplicate_existsUnique hp hkey
      rw [hempty] at hmem
      cases hmem
    · obtain rfl := Except.ok.inj hstep
      refine ⟨_, (Dict.get_set _ _ _ _).trans (if_pos rfl), ?_⟩
      intro x suffix hkey
      exact deduplicate_existsUnique hp hkey

end Quarantine

section Sound

variable [DecidableEq ι] [DecidableEq ρ] {disk : Disk ι η} {dependencies : ρ → List Str} {extracts : η → Str → Bool}
  {s' : Quarantine ι η ρ}

/-- In every history in which archives are skipped only after their content has been extracted with their suffix, every
archive of a revision has been extracted with its suffix before the revision was committed.  An upload that needs
quarantine lists every content and suffix that needs it under exactly one path. -/
theorem quarantine_sound {n : Nat} {archiveDirs : List η} {events : List (QuarantineEvent ι η ρ)}
    (hrun : runAll (fun s e => s.step disk dependencies extracts e) (Quarantine.empty n archiveDirs) events = .ok s')
    (hskips : Along (fun s e => s.step disk dependencies extracts e) Quarantine.SkipsExtracted
      (Quarantine.empty n archiveDirs) events) :
    (∀ r ∈ s'.records.store.revisions, ∀ p i suffix, r.tree.fileAt p = some i → pathSuffix p = some suffix →
      extracts (disk.computeFileHash i) suffix = true ∧
        ∃ e ∈ s'.extractions, e.content = disk.computeFileHash i ∧ e.suffix = suffix ∧ e.lastRevision < r.seq) ∧
      ∀ (c : Upload ι η ρ) l s'', lockAndMerge disk s'.records.store c.toCommit = .ok l →
        s'.upload disk dependencies c = .ok s'' →
        ∀ p ∈ detectArchivesRequiringQuarantine l.pathToHash (s'.previousEntries c.toCommit),
          ∃ q, s''.quarantined.get s'.nextId = some q ∧ ∀ x suffix, archiveKey l.pathToHash p = some (x, suffix) →
            ∃! e, e ∈ q.archives ∧ archiveKey l.pathToHash e.1 = some (x, suffix) := by
  have hempty : (Quarantine.empty n archiveDirs : Quarantine ι η ρ).Genuine extracts := by
    intro e he
    cases he
  have hinvariant : s'.Invariant disk ∧ s'.Genuine extracts := by
    refine Along.keeps (I := fun s => s.Invariant disk ∧ s.Genuine extracts) ?_ hrun hskips
      ⟨Quarantine.empty_invariant n archiveDirs, hempty⟩
    intro s e s₁ hskip hstep hs
    exact ⟨hs.1.step hskip hstep, hs.2.step hstep⟩
  constructor
  · intro r hr p i suffix hi hsuffix
    obtain ⟨e, he, hcontent, hname, hlt⟩ := hinvariant.1.file r hr p i hi suffix hsuffix
    have hextracts := hinvariant.2 e he
    rw [hcontent, hname] at hextracts
    exact ⟨hextracts, e, he, hcontent, hname, hlt⟩
  · intro c l s'' hl hstep p hp
    exact Quarantine.upload_lists hl hstep hp

end Sound

/-! ### An archive that is promoted without an extraction -/

/-- An upload of one file with the content 1. -/
def archiveUpload (old : Option (Revision Nat Nat Unit)) (name : Str) (h : parents name = []) : Upload Nat Nat Unit where
  toCommit := commitOf none old (.single name 1 h)
  asfUid := ['u']
  pathSources := false
  modify := true

/-- Only archives in one format can be extracted. -/
def zipOnly (_ : Nat) (suffix : Str) : Bool := decide (suffix = ".zip".toList)

def sampleStep (s : Quarantine Nat Nat Unit) (e : QuarantineEvent Nat Nat Unit) :
    Except QuarantineError (Quarantine Nat Nat Unit) := s.step ⟨id, id⟩ (fun _ => []) zipOnly e

/-- An archive is uploaded, validated and promoted. -/
def zipEvents : List (QuarantineEvent Nat Nat Unit) :=
  [.upload (archiveUpload none "a.zip".toList rfl), .validate 0 false, .promote 0 true ⟨true, fun _ _ => ['s']⟩]

/-- The revision that is then the latest one. -/
def zipRevision : Option (Revision Nat Nat Unit) :=
  ((runAll sampleStep (Quarantine.empty 0 []) zipEvents).toOption).bind fun s => s.records.store.latestRevision

/-- The same content is uploaded with another suffix. -/
def jarEvents : List (QuarantineEvent Nat Nat Unit) :=
  [.upload (archiveUpload zipRevision "a.jar".toList rfl), .validate 1 false, .promote 1 true ⟨true, fun _ _ => ['s']⟩]

/-- The second archive cannot be extracted; but the directory of its content is there, so it is not extracted, and it
is promoted. -/
theorem quarantine_promotes_unextracted :
    ∃ s, runAll sampleStep (Quarantine.empty 0 []) (zipEvents ++ jarEvents) = .ok s ∧
      ∃ r ∈ s.records.store.revisions, r.tree.fileAt "a.jar".toList = some 1 ∧
        pathSuffix "a.jar".toList = some ".jar".toList ∧ zipOnly 1 ".jar".toList = false ∧
        ∀ e ∈ s.extractions, ¬ (e.content = 1 ∧ e.suffix = ".jar".toList) := by
  have hrun : (runAll sampleStep (Quarantine.empty 0 []) (zipEvents ++ jarEvents)).toOption.map
      (fun s => (s.records.store.latestRevision.map fun r => r.tree.fileAt "a.jar".toList, s.extractions)) =
      some (some (some 1), [⟨1, ".zip".toList, 0⟩]) := by decide +kernel
  obtain ⟨s, hs, hvalue⟩ := Option.map_eq_some_iff.1 hrun
  obtain ⟨hlatest, hextractions⟩ := Prod.mk.inj hvalue
  obtain ⟨r, hr, hfile⟩ := Option.map_eq_some_iff.1 hlatest
  refine ⟨s, toOption_eq_some.1 hs, r, Store.latest_mem hr, hfile, by decide +kernel, by decide +kernel, ?_⟩
  rw [hextractions]
  decide +kernel

/-- The first archive was extracted before its revision was committed. -/
theorem quarantine_sound_zip :
    ∃ s, runAll sampleStep (Quarantine.empty 0 []) zipEvents = .ok s ∧
      ∃ r ∈ s.records.store.revisions, ∃ e ∈ s.extractions, e.content = 1 ∧ e.suffix = ".zip".toList ∧
        e.lastRevision < r.seq := by
  have hrun : (runAll sampleStep (Quarantine.empty 0 []) zipEvents).toOption.map
      (fun s => s.records.store.latestRevision.map fun r => r.tree.fileAt "a.zip".toList) = some (some (some 1)) := by
    decide +kernel
  obtain ⟨s, hs, hlatest⟩ := Option.map_eq_some_iff.1 hrun
  obtain ⟨r, hr, hfile⟩ := Option.map_eq_some_iff.1 hlatest
  have hs := toOption_eq_some.1 hs
  have hskips : Along sampleStep Quarantine.SkipsExtracted (Quarantine.empty 0 []) zipEvents := by
    refine ⟨trivial, fun s₁ hs₁ => ⟨?_, fun s₂ _ => ⟨trivial, fun _ _ => trivial⟩⟩⟩
    -- no directory is there when the archive is validated
    intro q relPath contentHash rest _ _ hskip
    have hdirs : ((sampleStep (Quarantine.empty 0 []) (.upload (archiveUpload none "a.zip".toList rfl))).toOption.map
        (·.archiveDirs)) = some [] := by decide +kernel
    rw [hs₁] at hdirs
    have hnone : s₁.archiveDirs = [] := Option.some.inj hdirs
    have hmem := hskip.1
    rw [hnone] at hmem
    cases hmem
  obtain ⟨-, e, he⟩ := (quarantine_sound hs hskips).1 r (Store.latest_mem hr) "a.zip".toList 1 ".zip".toList hfile
    (by decide +kernel)
  exact ⟨s, hs, r, Store.latest_mem hr, e, he⟩

end TrustedReleases
