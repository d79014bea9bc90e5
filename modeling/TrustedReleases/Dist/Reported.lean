import TrustedReleases.Dist.Notify

/-!
# Every release is reported

A commit is reported in full exactly if no file that it removes is the source of several artifacts, and no release that
it publishes is of a project with more managed artifacts than one, or with any if it has no committee
(`notify_reported_iff`).
-/

namespace TrustedReleases

open Lib

namespace Dist

variable {t : Tables} {date : Nat} {supersededKeys : List Str}

/-! ### Queries for one row -/

private theorem scalarOneOrNone_eq_ok {α : Type} {rows : List α} :
    (∃ a, scalarOneOrNone rows = .ok a) ↔ rows.length ≤ 1 := by
  match rows with
  | [] => simp [scalarOneOrNone]
  | [a] => simp [scalarOneOrNone]
  | a :: b :: rows => simp [scalarOneOrNone]

/-- The artifacts that a removed file can be the source of. -/
def sourceArtifacts (db : Db) (file : Str × Str) : List Artifact :=
  db.artifacts.filter fun a =>
    decide (a.downloadPathSuffix = some file.1 ∧ a.artifactPath = file.2 ∧ a.classification = some .source)

private theorem resolveRemovedFile_ok_iff {db : Db} {file : Str × Str} :
    (∃ found, resolveRemovedFile db file.1 file.2 = .ok found) ↔ (sourceArtifacts db file).length ≤ 1 := by
  rw [← scalarOneOrNone_eq_ok]
  unfold resolveRemovedFile
  constructor
  · intro h
    obtain ⟨found, hfound⟩ := h
    obtain ⟨artifact, hartifact, -⟩ := bind_eq_ok hfound
    exact ⟨artifact, hartifact⟩
  · intro h
    obtain ⟨artifact, hartifact⟩ := h
    have hquery : scalarOneOrNone (db.artifacts.filter fun a =>
        decide (a.downloadPathSuffix = some file.1 ∧ a.artifactPath = file.2 ∧ a.classification = some .source)) =
      .ok artifact := hartifact
    rw [hquery]
    exact ⟨_, rfl⟩

private theorem archiveFile_ok_iff {db : Db} (published : List Str) (s : Archives) {file : Str × Str} :
    (∃ s', archiveFile db published s file = .ok s') ↔ (sourceArtifacts db file).length ≤ 1 := by
  rw [← resolveRemovedFile_ok_iff]
  unfold archiveFile
  constructor
  · intro h
    obtain ⟨s', hs'⟩ := h
    obtain ⟨found, hfound, -⟩ := bind_eq_ok hs'
    exact ⟨found, hfound⟩
  · intro h
    obtain ⟨found, hfound⟩ := h
    rw [hfound, ok_bind]
    split
    · exact ⟨s, rfl⟩
    · split <;> exact ⟨_, rfl⟩

private theorem archiveFiles_ok_iff {db : Db} (published : List Str) {files : List (Str × Str)} (s : Archives) :
    (∃ s', files.foldlM (archiveFile db published) s = .ok s') ↔ ∀ file ∈ files, (sourceArtifacts db file).length ≤ 1 := by
  induction files generalizing s with
  | nil => exact ⟨fun _ file hfile => (by cases hfile), fun _ => ⟨s, rfl⟩⟩
  | cons file files ih =>
    rw [List.forall_mem_cons, List.foldlM_cons]
    constructor
    · intro h
      obtain ⟨s', hs'⟩ := h
      obtain ⟨s₁, h₁, hrest⟩ := bind_eq_ok hs'
      exact ⟨(archiveFile_ok_iff published s).1 ⟨s₁, h₁⟩, (ih s₁).1 ⟨s', hrest⟩⟩
    · intro h
      obtain ⟨s₁, h₁⟩ := (archiveFile_ok_iff published s).2 h.1
      rw [h₁, ok_bind]
      exact (ih s₁).2 h.2

/-- The changes of a commit are resolved exactly if no removed file is the source of several artifacts. -/
private theorem resolveChanges_ok_iff (rules : DistRules) (db : Db) (reading : Reading) :
    (∃ resolution, resolveChanges rules db reading = .ok resolution) ↔
      ∀ file ∈ reading.removedFiles, (sourceArtifacts db file).length ≤ 1 := by
  have hfiles : (∀ file ∈ reading.removedFiles, (sourceArtifacts db file).length ≤ 1) ↔
      ∀ file ∈ orderBy (fun f : Str × Str => toLex f) reading.removedFiles.dedup,
        (sourceArtifacts db file).length ≤ 1 := by
    simp only [mem_orderBy, List.mem_dedup]
  rw [hfiles]
  unfold resolveChanges
  constructor
  · intro h
    obtain ⟨resolution, hok⟩ := h
    obtain ⟨archives, harchives, -⟩ := bind_eq_ok hok
    exact (archiveFiles_ok_iff _ _).1 ⟨archives, harchives⟩
  · intro h
    dsimp only
    obtain ⟨archives, harchives⟩ := (archiveFiles_ok_iff (publishedReleaseKeys rules db reading.added)
      ((orderBy (fun k : Key => sortKey k.1 k.2.1 k.2.2) reading.removed).foldl (archiveDirectory rules db) ⟨[], []⟩)).2 h
    rw [harchives, ok_bind]
    exact ⟨_, rfl⟩

/-! ### One release -/

private theorem hasCommittee_iff {projectKey : Str} :
    hasCommittee t projectKey = true ↔ ∃ committee, projectCommittee t projectKey = .ok committee := by
  unfold hasCommittee
  cases projectCommittee t projectKey <;> simp [Except.toOption]

/-- Few enough managed artifacts: one, or none without a committee. -/
def FewManaged (t : Tables) (projectKey : Str) : Prop :=
  (managedArtifacts t projectKey).length ≤ if hasCommittee t projectKey then 1 else 0

/-- The loop goes on behind a release unless its project has a committee and several managed artifacts. -/
private theorem notifyRelease_eq_none {r : ResolvedRelease} :
    (notifyRelease t date supersededKeys r).2 = none ↔
      (hasCommittee t r.projectKey = true → (managedArtifacts t r.projectKey).length ≤ 1) := by
  unfold notifyRelease warnUnmanaged
  cases hcommittee : projectCommittee t r.projectKey with
  | error e => simp [hasCommittee, hcommittee, Except.toOption]
  | ok committee =>
    have hhas : hasCommittee t r.projectKey = true := hasCommittee_iff.2 ⟨committee, hcommittee⟩
    rw [hhas, ← scalarOneOrNone_eq_ok]
    cases scalarOneOrNone (managedArtifacts t r.projectKey) with
    | error e => simp
    | ok managed => cases managed <;> simp

section

variable {r : ResolvedRelease} {p v : Str}

private theorem countP_notifyCommittee {a : Str × Str} {message : Message} {q : MessageTask → Bool} :
    (notifyCommittee t a.1 a.2 message).2.countP q =
      if hasCommittee t a.1 && q ⟨message, a.1, a.2⟩ then 1 else 0 := by
  unfold notifyCommittee hasCommittee
  cases projectCommittee t a.1 <;> simp [Except.toOption, List.countP_singleton]

/-- What is queued for a release: the message to the releases list, and the warning if there is a managed artifact. -/
private theorem notifyRelease_tasks (h : (notifyRelease t date supersededKeys r).2 = none) :
    (notifyRelease t date supersededKeys r).1 =
      (notifySeen t r.projectKey r.versionKey date (decide (releaseKey r.projectKey r.versionKey ∈ supersededKeys))).2 ++
        if hasCommittee t r.projectKey && !(managedArtifacts t r.projectKey).isEmpty then
          [⟨.unmanagedReleaseWarning date, r.projectKey, r.versionKey⟩]
        else [] := by
  rw [notifyRelease_eq_none] at h
  unfold notifyRelease warnUnmanaged
  cases hcommittee : projectCommittee t r.projectKey with
  | error e => simp [hasCommittee, hcommittee, Except.toOption]
  | ok committee =>
    have hhas : hasCommittee t r.projectKey = true := hasCommittee_iff.2 ⟨committee, hcommittee⟩
    have hlength := h hhas
    rw [hhas]
    rcases hmanaged : managedArtifacts t r.projectKey with _ | ⟨a, _ | ⟨b, rest⟩⟩
    · simp [scalarOneOrNone]
    · simp [scalarOneOrNone]
    · rw [hmanaged] at hlength
      simp at hlength

/-- One message of each kind at most is queued for a release. -/
private theorem countP_notifyRelease (h : (notifyRelease t date supersededKeys r).2 = none) :
    (notifyRelease t date supersededKeys r).1.countP (·.isSeen p v) =
        (if decide (r.projectKey = p ∧ r.versionKey = v) && hasCommittee t p then 1 else 0) ∧
      (notifyRelease t date supersededKeys r).1.countP (·.isRetired p v) = 0 ∧
      (notifyRelease t date supersededKeys r).1.countP (·.isWarning p v) =
        (if decide (r.projectKey = p ∧ r.versionKey = v) &&
          (hasCommittee t p && !(managedArtifacts t p).isEmpty) then 1 else 0) := by
  have hseen : ∀ q : MessageTask → Bool, (notifySeen t r.projectKey r.versionKey date
      (decide (releaseKey r.projectKey r.versionKey ∈ supersededKeys))).2.countP q = _ :=
    fun q => countP_notifyCommittee (a := (r.projectKey, r.versionKey))
  rw [notifyRelease_tasks h]
  simp only [List.countP_append, hseen]
  by_cases habout : r.projectKey = p ∧ r.versionKey = v
  · obtain ⟨rfl, rfl⟩ := habout
    cases hasCommittee t r.projectKey <;> cases (managedArtifacts t r.projectKey).isEmpty <;>
      simp [MessageTask.isSeen, MessageTask.isRetired, MessageTask.isWarning]
  · cases hasCommittee t r.projectKey <;> cases (managedArtifacts t r.projectKey).isEmpty <;>
      simp [MessageTask.isSeen, MessageTask.isRetired, MessageTask.isWarning, habout]

end

/-! ### The loops -/

/-- A loop that queues one task that counts for some elements and none for the others. -/
private theorem countP_flatMap_of {α β : Type} {f : α → List β} {g : α → Bool} {q : β → Bool} {l : List α}
    (h : ∀ a ∈ l, (f a).countP q = if g a then 1 else 0) : (l.flatMap f).countP q = l.countP g := by
  induction l with
  | nil => rfl
  | cons a l ih =>
    rw [List.forall_mem_cons] at h
    rw [List.flatMap_cons, List.countP_append, h.1, ih h.2, List.countP_cons, Nat.add_comm]

private theorem notifyReleases_eq_none {releases : List ResolvedRelease} :
    (notifyReleases t date supersededKeys releases).2 = none ↔
      ∀ r ∈ releases, (notifyRelease t date supersededKeys r).2 = none := by
  induction releases with
  | nil => exact ⟨fun _ r hr => (by cases hr), fun _ => rfl⟩
  | cons r releases ih =>
    rw [List.forall_mem_cons, ← ih, notifyReleases]
    split
    · rename_i heq
      simp [heq]
    · rename_i heq
      simp [heq]

private theorem notifyReleases_tasks {releases : List ResolvedRelease}
    (h : ∀ r ∈ releases, (notifyRelease t date supersededKeys r).2 = none) :
    (notifyReleases t date supersededKeys releases).1 =
      releases.flatMap fun r => (notifyRelease t date supersededKeys r).1 := by
  induction releases with
  | nil => rfl
  | cons r releases ih =>
    rw [List.forall_mem_cons] at h
    rw [List.flatMap_cons, ← ih h.2, notifyReleases]
    split
    · rename_i heq
      rw [heq] at h
      cases h.1
    · rename_i heq
      rw [heq]

section

variable {releases : List ResolvedRelease} {archives : List (Str × Str)}

private theorem notify_eq_none :
    (notify t releases archives date supersededKeys).2 = none ↔
      ∀ r ∈ releases, (notifyRelease t date supersededKeys r).2 = none := by
  rw [← notifyReleases_eq_none, notify]
  split
  · rename_i heq
    simp [heq]
  · rename_i heq
    simp [heq]

private theorem notify_tasks (h : ∀ r ∈ releases, (notifyRelease t date supersededKeys r).2 = none) :
    (notify t releases archives date supersededKeys).1 =
      (releases.flatMap fun r => (notifyRelease t date supersededKeys r).1) ++
        archives.flatMap fun a => (notifyArchived t a.1 a.2 date).2 := by
  rw [← notifyReleases_tasks h, notify]
  split
  · rename_i heq
    have hnone := notifyReleases_eq_none.2 h
    rw [heq] at hnone
    cases hnone
  · rename_i heq
    rw [heq]

/-- What a loop that ends well has queued about a release. -/
private theorem notify_counts (archives : List (Str × Str))
    (h : ∀ r ∈ releases, (notifyRelease t date supersededKeys r).2 = none) (p v : Str) :
    (notify t releases archives date supersededKeys).1.countP (·.isSeen p v) =
        releases.countP (fun r => decide (r.projectKey = p ∧ r.versionKey = v) && hasCommittee t p) ∧
      (notify t releases archives date supersededKeys).1.countP (·.isRetired p v) =
        archives.countP (fun a => decide (a.1 = p ∧ a.2 = v) && hasCommittee t p) ∧
      (notify t releases archives date supersededKeys).1.countP (·.isWarning p v) =
        releases.countP (fun r => decide (r.projectKey = p ∧ r.versionKey = v) &&
          (hasCommittee t p && !(managedArtifacts t p).isEmpty)) := by
  have harchives : ∀ (q : MessageTask → Bool) (g : Str × Str → Bool),
      (∀ a, (hasCommittee t a.1 && q ⟨.releaseArchivalNotification date, a.1, a.2⟩) = g a) →
      (archives.flatMap fun a => (notifyArchived t a.1 a.2 date).2).countP q = archives.countP g := by
    intro q g hg
    refine countP_flatMap_of fun a _ => ?_
    rw [← hg a]
    exact countP_notifyCommittee
  have hnone : ∀ q : MessageTask → Bool,
      (∀ a : Str × Str, q ⟨.releaseArchivalNotification date, a.1, a.2⟩ = false) →
      (archives.flatMap fun a => (notifyArchived t a.1 a.2 date).2).countP q = 0 := by
    intro q hq
    rw [harchives q (fun _ => false) fun a => by rw [hq a, Bool.and_false]]
    exact List.countP_eq_zero.2 fun _ _ => Bool.false_ne_true
  rw [notify_tasks h]
  simp only [List.countP_append]
  refine ⟨?_, ?_, ?_⟩
  · rw [hnone _ fun a => by simp [MessageTask.isSeen], Nat.add_zero]
    exact countP_flatMap_of fun r hr => (countP_notifyRelease (h r hr)).1
  · have hzero : (releases.flatMap fun r => (notifyRelease t date supersededKeys r).1).countP (·.isRetired p v) = 0 := by
      rw [countP_flatMap_of (g := fun _ => false) fun r hr => (countP_notifyRelease (h r hr)).2.1]
      exact List.countP_eq_zero.2 fun _ _ => Bool.false_ne_true
    rw [hzero, Nat.zero_add]
    refine harchives _ _ fun a => ?_
    by_cases habout : a.1 = p ∧ a.2 = v
    · simp [MessageTask.isRetired, habout.1, habout.2]
    · simp [MessageTask.isRetired, habout]
  · rw [hnone _ fun a => by simp [MessageTask.isWarning], Nat.add_zero]
    exact countP_flatMap_of fun r hr => (countP_notifyRelease (h r hr)).2.2

/-- Releases are reported exactly if the projects of those that were seen have few managed artifacts. -/
private theorem reported_iff :
    Reported t releases archives (notify t releases archives date supersededKeys) ↔
      ∀ r ∈ releases, FewManaged t r.projectKey := by
  constructor
  · intro hreported r hr
    obtain ⟨hnone, hcounts⟩ := hreported
    rw [notify_eq_none] at hnone
    unfold FewManaged
    by_cases hhas : hasCommittee t r.projectKey = true
    · rw [if_pos hhas]
      exact notifyRelease_eq_none.1 (hnone r hr) hhas
    · rw [if_neg hhas]
      have hwarned := (hcounts r.projectKey r.versionKey).2.2
      rw [(notify_counts archives hnone r.projectKey r.versionKey).2.2, Bool.eq_false_of_not_eq_true hhas] at hwarned
      have hzero : releases.countP (fun r' => decide (r'.projectKey = r.projectKey ∧ r'.versionKey = r.versionKey) &&
          !(managedArtifacts t r.projectKey).isEmpty) = 0 := by
        rw [← hwarned]
        exact List.countP_eq_zero.2 fun _ _ => by simp
      have hempty := List.countP_eq_zero.1 hzero r hr
      simpa using hempty
  · intro hfew
    have hnone : ∀ r ∈ releases, (notifyRelease t date supersededKeys r).2 = none := by
      intro r hr
      refine notifyRelease_eq_none.2 fun hhas => ?_
      have hlength := hfew r hr
      rwa [FewManaged, if_pos hhas] at hlength
    refine ⟨notify_eq_none.2 hnone, fun p v => ?_⟩
    obtain ⟨hseen, hretired, hwarned⟩ := notify_counts archives hnone p v
    refine ⟨hseen, hretired, hwarned.trans (List.countP_congr fun r hr => ?_)⟩
    by_cases habout : r.projectKey = p ∧ r.versionKey = v
    · have hlength := hfew r hr
      rw [FewManaged, habout.1] at hlength
      cases hhas : hasCommittee t p with
      | true => simp
      | false =>
        rw [hhas, if_neg Bool.false_ne_true] at hlength
        simp [List.eq_nil_of_length_eq_zero (Nat.le_zero.1 hlength)]
    · simp [habout]

end

/-! ### The commit -/

/-- A commit is resolved and reported in full exactly if no file that it removes is the source of several artifacts, and
no release that was seen is of a project with several managed artifacts, or with any if it has no committee.  The
tables may have changed when it comes to the notifications. -/
theorem notify_reported_iff (rules : DistRules) (resolved notified : Tables) (reading : Reading)
    (releases : List ResolvedRelease) (archives : List (Str × Str)) (date : Nat) (supersededKeys : List Str) :
    ((∃ resolution, resolveChanges rules resolved.db reading = .ok resolution) ∧
        Reported notified releases archives (notify notified releases archives date supersededKeys)) ↔
      (∀ file ∈ reading.removedFiles, (sourceArtifacts resolved.db file).length ≤ 1) ∧
        ∀ r ∈ releases, FewManaged notified r.projectKey := by
  rw [resolveChanges_ok_iff, reported_iff]

private theorem oneProject_nodup :
    (([⟨"foo".toList, some "foo".toList⟩] : List Project).map Project.key).Nodup := by decide

private theorem oneRelease_nodup :
    (([⟨"foo".toList, "1.0".toList, .release, false, none⟩] : List Release).map Release.key).Nodup := by
  decide

/-- A project with a release of two managed artifacts. -/
def fooManaged : Tables where
  projects := [⟨"foo".toList, some "foo".toList⟩]
  releases := [⟨"foo".toList, "1.0".toList, .release, false, none⟩]
  artifacts := [
    ⟨"foo".toList, "1.0".toList, "foo-1.0-src.tar.gz".toList, some "foo".toList, some .source,
      some "foo-1.0".toList, true⟩,
    ⟨"foo".toList, "1.0".toList, "foo-1.0-bin.tar.gz".toList, some "foo".toList, some .binary,
      some "foo-1.0".toList, true⟩]
  projects_nodup := oneProject_nodup
  releases_nodup := oneRelease_nodup
  artifacts_nodup := by decide
  artifacts_project := by decide

/-- A source of the next release is added. -/
def nextAdded : Changed := OrdDict.empty.set "release/foo/foo-1.1-src.tar.gz".toList ['A']

/-- The next release is seen, and the look for a managed artifact raises. -/
theorem notify_raises :
    ∃ resolution, resolveChanges emptyRules fooManaged.db (readCommit emptyRules (fun _ => none) nextAdded) =
        .ok resolution ∧
      resolution.releases.length = 1 ∧
      ¬ Reported fooManaged resolution.releases resolution.archives
        (notify fooManaged resolution.releases resolution.archives 0 []) := by
  have hrun : (resolveChanges emptyRules fooManaged.db (readCommit emptyRules (fun _ => none) nextAdded)).toOption.map
      (fun resolution => (resolution.releases.length,
        (notify fooManaged resolution.releases resolution.archives 0 []).2)) =
    some (1, some .multipleResultsFound) := by decide +kernel
  obtain ⟨resolution, hok, heq⟩ := Option.map_eq_some_iff.1 hrun
  obtain ⟨hlength, hraised⟩ := Prod.mk.inj heq
  refine ⟨resolution, toOption_eq_some.1 hok, hlength, fun hreported => ?_⟩
  rw [Reported, hraised] at hreported
  cases hreported.1

end Dist

end TrustedReleases
