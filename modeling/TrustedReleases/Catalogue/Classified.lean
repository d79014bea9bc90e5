import TrustedReleases.Catalogue.Diff

/-!
# What a classification guarantees

The changes of a difference, and what holds of those that a classification finds: the guards of each row, and that no
two of them converge on one key (`classifyRows_classified`).  Each loop is inverted once by what one pass does.
-/

namespace TrustedReleases

open Lib

namespace Catalogue

/-! ### Changes -/

/-- The parts of a difference that are written. -/
structure Changes where
  projectAdds : List ProjectRow
  releaseAdds : List ReleaseRow
  artifactAdds : List ArtifactRow
  artifactRepoints : List ArtifactRepoint
  releaseRepoints : List ReleaseRepoint
  projectDeletions : List Str
  releaseDeletions : List Str
  artifactDeletions : List Pk

def CatalogueDiff.changes (diff : CatalogueDiff) : Changes :=
  ⟨diff.projectAdds, diff.releaseAdds, diff.artifactAdds, diff.artifactRepoints, diff.releaseRepoints,
    diff.projectDeletions, diff.releaseDeletions, diff.artifactDeletions⟩

private theorem changes_add_project (diff : CatalogueDiff) (row : ProjectRow) :
    (diff.add (.project row)).changes = { diff.changes with projectAdds := diff.changes.projectAdds ++ [row] } := by
  simp [CatalogueDiff.changes, CatalogueDiff.add, CatalogueDiff.projectAdds, CatalogueDiff.releaseAdds,
    CatalogueDiff.artifactAdds, Row.toProject?, Row.toRelease?, Row.toArtifact?]

private theorem changes_add_release (diff : CatalogueDiff) (row : ReleaseRow) :
    (diff.add (.release row)).changes = { diff.changes with releaseAdds := diff.changes.releaseAdds ++ [row] } := by
  simp [CatalogueDiff.changes, CatalogueDiff.add, CatalogueDiff.projectAdds, CatalogueDiff.releaseAdds,
    CatalogueDiff.artifactAdds, Row.toProject?, Row.toRelease?, Row.toArtifact?]

private theorem changes_add_artifact (diff : CatalogueDiff) (row : ArtifactRow) :
    (diff.add (.artifact row)).changes = { diff.changes with artifactAdds := diff.changes.artifactAdds ++ [row] } := by
  simp [CatalogueDiff.changes, CatalogueDiff.add, CatalogueDiff.projectAdds, CatalogueDiff.releaseAdds,
    CatalogueDiff.artifactAdds, Row.toProject?, Row.toRelease?, Row.toArtifact?]

/-- Parsing changes nothing. -/
private theorem changes_parse {ρ : Type} (table identity : Str) (validate : RawRow → Except Str ρ) (lines : List RawRow)
    (diff : CatalogueDiff) : (parse table identity validate lines diff).2.changes = diff.changes := by
  have hfold : ∀ (f : List ρ × CatalogueDiff → RawRow → List ρ × CatalogueDiff),
      (∀ s raw, (f s raw).2.changes = s.2.changes) → ∀ (lines : List RawRow) (s : List ρ × CatalogueDiff),
        (lines.foldl f s).2.changes = s.2.changes := by
    intro f hstep lines
    induction lines with
    | nil => exact fun s => rfl
    | cons raw lines ih =>
      intro s
      rw [List.foldl_cons, ih, hstep]
  unfold parse
  refine hfold _ (fun s raw => ?_) lines ([], diff)
  cases validate raw with
  | ok row => rfl
  | error e => rfl

private theorem knownProjects_congr (snapshot : DbSnapshot) (committeeKey : Str) {diff diff' : CatalogueDiff}
    (h : diff.projectAdds = diff'.projectAdds) :
    knownProjects snapshot diff committeeKey = knownProjects snapshot diff' committeeKey := by
  unfold knownProjects
  rw [h]

private theorem artifactsContext_congr (snapshot : DbSnapshot) (committeeKey : Str) {diff diff' : CatalogueDiff}
    (hprojects : diff.projectAdds = diff'.projectAdds) (hadds : diff.releaseAdds = diff'.releaseAdds)
    (hrepoints : diff.releaseRepoints = diff'.releaseRepoints) :
    artifactsContext snapshot committeeKey diff = artifactsContext snapshot committeeKey diff' := by
  unfold artifactsContext afterReleaseRepoints repointedProjects
  rw [knownProjects_congr _ _ hprojects, hadds, hrepoints]

/-! ### Projects -/

/-- Project rows that may be added: no project of a committee has their keys, and no two have one key. -/
structure ProjectsClassified (snapshot : DbSnapshot) (adds : List ProjectRow) : Prop where
  new : ∀ row ∈ adds, row.key.1 ∉ snapshot.projectCommittee.keys
  nodup : (adds.map fun row => row.key.1).Nodup

/-- One pass either changes nothing or adds the row. -/
private theorem classifyProject_cases (snapshot : DbSnapshot) (committeeKey : Str) (s : ProjectsState)
    (row : ProjectRow) :
    ((classifyProject snapshot committeeKey s row).diff.changes = s.diff.changes ∧
      s.seen ⊆ (classifyProject snapshot committeeKey s row).seen) ∨
    (row.key.1 ∉ s.seen ∧ row.key.1 ∉ snapshot.projectCommittee.keys ∧
      (classifyProject snapshot committeeKey s row).diff.changes =
        { s.diff.changes with projectAdds := s.diff.changes.projectAdds ++ [row] } ∧
      (classifyProject snapshot committeeKey s row).seen = row.key.1 :: s.seen) := by
  unfold classifyProject
  by_cases hseen : row.key.1 ∈ s.seen
  · rw [if_pos hseen]
    exact .inl ⟨rfl, fun _ h => h⟩
  · rw [if_neg hseen]
    cases projectReferenceConflict row snapshot committeeKey with
    | some reason => exact .inl ⟨rfl, List.subset_cons_self _ _⟩
    | none =>
      dsimp only
      split_ifs with hkey
      · exact .inl ⟨rfl, List.subset_cons_self _ _⟩
      · exact .inr ⟨hseen, hkey, changes_add_project _ _, rfl⟩

private theorem classifyProjects_classified (rows : List ProjectRow) (snapshot : DbSnapshot) (committeeKey : Str)
    {diff : CatalogueDiff} (h : diff.changes.projectAdds = []) :
    ProjectsClassified snapshot (classifyProjects rows snapshot committeeKey diff).changes.projectAdds ∧
      (classifyProjects rows snapshot committeeKey diff).changes = { diff.changes with
        projectAdds := (classifyProjects rows snapshot committeeKey diff).changes.projectAdds } := by
  have hfold : ∀ (rows : List ProjectRow) (s : ProjectsState), ProjectsClassified snapshot s.diff.changes.projectAdds →
      (∀ row ∈ s.diff.changes.projectAdds, row.key.1 ∈ s.seen) →
      ProjectsClassified snapshot (rows.foldl (classifyProject snapshot committeeKey) s).diff.changes.projectAdds ∧
        (rows.foldl (classifyProject snapshot committeeKey) s).diff.changes = { s.diff.changes with
          projectAdds := (rows.foldl (classifyProject snapshot committeeKey) s).diff.changes.projectAdds } := by
    intro rows
    induction rows with
    | nil => exact fun s hs _ => ⟨hs, rfl⟩
    | cons row rows ih =>
      intro s hs hseen
      rw [List.foldl_cons]
      rcases classifyProject_cases snapshot committeeKey s row with ⟨hquiet, hsub⟩ | ⟨hunseen, hnew, hadd, hcons⟩
      · have hrest := ih (classifyProject snapshot committeeKey s row) (by rwa [hquiet])
          (by rw [hquiet]; exact fun row' hrow' => hsub (hseen row' hrow'))
        rwa [hquiet] at hrest
      · have hclassified : ProjectsClassified snapshot (s.diff.changes.projectAdds ++ [row]) := by
          constructor
          · intro row' hrow'
            rcases List.mem_append.1 hrow' with hold | hlast
            · exact hs.new row' hold
            · rwa [List.mem_singleton.1 hlast]
          · rw [List.map_append, List.map_singleton]
            refine List.nodup_append_comm.1 (List.nodup_cons.2 ⟨fun hmem => ?_, hs.nodup⟩)
            obtain ⟨row', hrow', heq⟩ := List.mem_map.1 hmem
            exact hunseen (heq ▸ hseen row' hrow')
        have hrest := ih (classifyProject snapshot committeeKey s row) (by rwa [hadd]) (by
          rw [hadd, hcons]
          intro row' hrow'
          rcases List.mem_append.1 hrow' with hold | hlast
          · exact List.mem_cons_of_mem _ (hseen row' hold)
          · rw [List.mem_singleton.1 hlast]
            exact List.mem_cons_self)
        rwa [hadd] at hrest
  exact hfold rows ⟨[], diff⟩ (by rw [h]; exact ⟨by simp, by simp⟩) (by rw [h]; simp)

/-! ### Releases -/

/-- Releases that may be added or repointed: the guards of each row, and no two of them converge on one key. -/
structure ReleasesClassified (snapshot : DbSnapshot) (known : List Str) (adds : List ReleaseRow)
    (repoints : List ReleaseRepoint) : Prop where
  add : ∀ row ∈ adds, row.key.1 = releaseKeyOf row.projectKey.1 row.version.1 ∧ row.projectKey.1 ∈ known ∧
    row.key.1 ∉ snapshot.releaseKeys
  held : ∀ r ∈ repoints, Dict.get snapshot.releaseProject r.key = some r.fromProject ∧
    r.key = releaseKeyOf r.fromProject r.row.version.1
  target : ∀ r ∈ repoints, r.toProject ∈ known ∧ r.fromProject ≠ r.toProject ∧ r.newKey ∉ snapshot.releaseKeys
  unprotected : ∀ r ∈ repoints, r.key ∉ snapshot.protectedReleaseKeys
  separate : ∀ r ∈ repoints, ∀ path, (⟨r.fromProject, r.row.version.1, path⟩ : Pk) ∈ snapshot.artifactPks →
    (⟨r.toProject, r.row.version.1, path⟩ : Pk) ∉ snapshot.artifactPks
  keys : (repoints.map fun r => r.key).Nodup
  newKeys : ((adds.map fun row => row.key.1) ++ repoints.map ReleaseRepoint.newKey).Nodup

private theorem repointArtifactCollision_eq_none {snapshot : DbSnapshot} {fromProject toProject version : Str}
    (h : repointArtifactCollision snapshot fromProject toProject version = none) (path : Str)
    (hfrom : (⟨fromProject, version, path⟩ : Pk) ∈ snapshot.artifactPks) :
    (⟨toProject, version, path⟩ : Pk) ∉ snapshot.artifactPks := by
  intro hto
  rw [repointArtifactCollision, Option.map_eq_none_iff, List.find?_eq_none] at h
  exact h _ (List.mem_filter.2 ⟨hfrom, decide_eq_true ⟨rfl, rfl⟩⟩) (decide_eq_true hto)

/-- One pass changes nothing, adds the row or repoints its release. -/
private theorem classifyRelease_cases (snapshot : DbSnapshot) (known : List Str) (s : ReleasesState)
    (row : ReleaseRow) :
    ((classifyRelease snapshot known s row).diff.changes = s.diff.changes ∧
      (classifyRelease snapshot known s row).claimed = s.claimed ∧
      s.seen ⊆ (classifyRelease snapshot known s row).seen) ∨
    (row.key.1 = releaseKeyOf row.projectKey.1 row.version.1 ∧ row.projectKey.1 ∈ known ∧
      row.key.1 ∉ snapshot.releaseKeys ∧ row.key.1 ∉ s.claimed ∧
      (classifyRelease snapshot known s row).diff.changes =
        { s.diff.changes with releaseAdds := s.diff.changes.releaseAdds ++ [row] } ∧
      (classifyRelease snapshot known s row).claimed = row.key.1 :: s.claimed ∧
      s.seen ⊆ (classifyRelease snapshot known s row).seen) ∨
    ∃ current, Dict.get snapshot.releaseProject row.key.1 = some current ∧
      row.key.1 = releaseKeyOf current row.version.1 ∧ row.projectKey.1 ∈ known ∧ current ≠ row.projectKey.1 ∧
      row.key.1 ∉ snapshot.protectedReleaseKeys ∧ releaseKeyOf row.projectKey.1 row.version.1 ∉ snapshot.releaseKeys ∧
      releaseKeyOf row.projectKey.1 row.version.1 ∉ s.claimed ∧ row.key.1 ∉ s.seen ∧
      (∀ path, (⟨current, row.version.1, path⟩ : Pk) ∈ snapshot.artifactPks →
        (⟨row.projectKey.1, row.version.1, path⟩ : Pk) ∉ snapshot.artifactPks) ∧
      (classifyRelease snapshot known s row).diff.changes = { s.diff.changes with
        releaseRepoints := s.diff.changes.releaseRepoints ++ [⟨row.key.1, current, row.projectKey.1, row⟩] } ∧
      (classifyRelease snapshot known s row).claimed = releaseKeyOf row.projectKey.1 row.version.1 :: s.claimed ∧
      (classifyRelease snapshot known s row).seen = row.key.1 :: s.seen := by
  unfold classifyRelease
  split_ifs with hseen
  · exact .inl ⟨rfl, rfl, fun _ h => h⟩
  · dsimp only
    cases hreference : releaseReferenceConflict row snapshot known (Dict.get snapshot.releaseProject row.key.1) with
    | some reason => exact .inl ⟨rfl, rfl, List.subset_cons_self _ _⟩
    | none =>
      unfold releaseReferenceConflict at hreference
      split_ifs at hreference with hkey hknown
      rw [not_not] at hkey
      cases hcurrent : Dict.get snapshot.releaseProject row.key.1 with
      | none =>
        rw [hcurrent] at hkey
        dsimp only
        unfold classifyNewRelease
        split_ifs with hexists
        · exact .inl ⟨rfl, rfl, List.subset_cons_self _ _⟩
        · rw [not_or] at hexists
          exact .inr (.inl ⟨hkey, hknown, hexists.1, hexists.2, changes_add_release _ _, rfl, List.subset_cons_self _ _⟩)
      | some current =>
        rw [hcurrent] at hkey
        dsimp only
        unfold classifyHeldRelease
        dsimp only
        split_ifs with hsame hprotected htarget
        · exact .inl ⟨rfl, rfl, List.subset_cons_self _ _⟩
        · exact .inl ⟨rfl, rfl, List.subset_cons_self _ _⟩
        · exact .inl ⟨rfl, rfl, List.subset_cons_self _ _⟩
        · rw [not_or] at htarget
          cases hcollision : repointArtifactCollision snapshot current row.projectKey.1 row.version.1 with
          | some reason => exact .inl ⟨rfl, rfl, List.subset_cons_self _ _⟩
          | none =>
            exact .inr (.inr ⟨current, rfl, hkey, hknown, hsame, hprotected, htarget.1, htarget.2, hseen,
              repointArtifactCollision_eq_none hcollision, rfl, rfl, rfl⟩)

/-- What the loop over release rows keeps: the keys of its repoints are seen, and the keys it takes are claimed. -/
structure ReleasesState.Inv (snapshot : DbSnapshot) (known : List Str) (s : ReleasesState) : Prop where
  classified : ReleasesClassified snapshot known s.diff.changes.releaseAdds s.diff.changes.releaseRepoints
  seen : ∀ r ∈ s.diff.changes.releaseRepoints, r.key ∈ s.seen
  claimed : ∀ key ∈ (s.diff.changes.releaseAdds.map fun row => row.key.1) ++
    s.diff.changes.releaseRepoints.map ReleaseRepoint.newKey, key ∈ s.claimed

theorem ReleasesState.Inv.step {snapshot : DbSnapshot} {known : List Str} {s : ReleasesState}
    (h : s.Inv snapshot known) (row : ReleaseRow) : (classifyRelease snapshot known s row).Inv snapshot known := by
  rcases classifyRelease_cases snapshot known s row with ⟨hquiet, hclaimed, hseen⟩ |
    ⟨hkey, hknown, hnew, hfree, hadd, hclaimed, hseen⟩ |
    ⟨current, hcurrent, hkey, hknown, hne, hprotected, hnew, hfree, hunseen, hseparate, hrepoint, hclaimed, hseen⟩
  · constructor
    · rw [hquiet]
      exact h.classified
    · rw [hquiet]
      exact fun r hr => hseen (h.seen r hr)
    · rw [hquiet, hclaimed]
      exact h.claimed
  · constructor
    · rw [hadd]
      have hold := h.classified
      refine ⟨fun row' hrow' => ?_, hold.held, hold.target, hold.unprotected, hold.separate, hold.keys, ?_⟩
      · rcases List.mem_append.1 hrow' with hmem | hlast
        · exact hold.add row' hmem
        · rw [List.mem_singleton.1 hlast]
          exact ⟨hkey, hknown, hnew⟩
      · rw [List.map_append, List.map_singleton, List.append_assoc, List.singleton_append, List.nodup_middle,
          List.nodup_cons]
        exact ⟨fun hmem => hfree (h.claimed _ hmem), hold.newKeys⟩
    · rw [hadd]
      exact fun r hr => hseen (h.seen r hr)
    · rw [hadd, hclaimed]
      intro key hmem
      rw [List.map_append, List.append_assoc, List.mem_append, List.mem_append, List.map_singleton,
        List.mem_singleton] at hmem
      rcases hmem with hmem | rfl | hmem
      · exact List.mem_cons_of_mem _ (h.claimed key (List.mem_append_left _ hmem))
      · exact List.mem_cons_self
      · exact List.mem_cons_of_mem _ (h.claimed key (List.mem_append_right _ hmem))
  · constructor
    · rw [hrepoint]
      have hold := h.classified
      refine ⟨hold.add, fun r hr => ?_, fun r hr => ?_, fun r hr => ?_, fun r hr => ?_, ?_, ?_⟩
      · rcases List.mem_append.1 hr with hmem | hlast
        · exact hold.held r hmem
        · rw [List.mem_singleton.1 hlast]
          exact ⟨hcurrent, hkey⟩
      · rcases List.mem_append.1 hr with hmem | hlast
        · exact hold.target r hmem
        · rw [List.mem_singleton.1 hlast]
          exact ⟨hknown, hne, hnew⟩
      · rcases List.mem_append.1 hr with hmem | hlast
        · exact hold.unprotected r hmem
        · rw [List.mem_singleton.1 hlast]
          exact hprotected
      · rcases List.mem_append.1 hr with hmem | hlast
        · exact hold.separate r hmem
        · rw [List.mem_singleton.1 hlast]
          exact hseparate
      · rw [List.map_append, List.map_singleton]
        refine List.nodup_append_comm.1 (List.nodup_cons.2 ⟨fun hmem => ?_, hold.keys⟩)
        obtain ⟨r, hr, heq⟩ := List.mem_map.1 hmem
        have hsame : r.key = row.key.1 := heq
        exact hunseen (hsame ▸ h.seen r hr)
      · rw [List.map_append, List.map_singleton, ← List.append_assoc]
        exact List.nodup_append_comm.1 (List.nodup_cons.2 ⟨fun hmem => hfree (h.claimed _ hmem), hold.newKeys⟩)
    · rw [hrepoint, hseen]
      intro r hr
      rcases List.mem_append.1 hr with hmem | hlast
      · exact List.mem_cons_of_mem _ (h.seen r hmem)
      · rw [List.mem_singleton.1 hlast]
        exact List.mem_cons_self
    · rw [hrepoint, hclaimed]
      intro key hmem
      rw [List.map_append, ← List.append_assoc, List.mem_append, List.map_singleton, List.mem_singleton] at hmem
      rcases hmem with hmem | rfl
      · exact List.mem_cons_of_mem _ (h.claimed key hmem)
      · exact List.mem_cons_self

private theorem classifyRelease_frame (snapshot : DbSnapshot) (known : List Str) (s : ReleasesState)
    (row : ReleaseRow) :
    (classifyRelease snapshot known s row).diff.changes = { s.diff.changes with
      releaseAdds := (classifyRelease snapshot known s row).diff.changes.releaseAdds
      releaseRepoints := (classifyRelease snapshot known s row).diff.changes.releaseRepoints } := by
  rcases classifyRelease_cases snapshot known s row with ⟨hquiet, -⟩ | ⟨-, -, -, -, hadd, -⟩ |
    ⟨current, -, -, -, -, -, -, -, -, -, hrepoint, -⟩
  · rw [hquiet]
  · rw [hadd]
  · rw [hrepoint]

private theorem classifyReleases_classified (rows : List ReleaseRow) (snapshot : DbSnapshot) (committeeKey : Str)
    {diff : CatalogueDiff} (hadds : diff.changes.releaseAdds = []) (hrepoints : diff.changes.releaseRepoints = []) :
    ReleasesClassified snapshot (knownProjects snapshot diff committeeKey)
        (classifyReleases rows snapshot committeeKey diff).changes.releaseAdds
        (classifyReleases rows snapshot committeeKey diff).changes.releaseRepoints ∧
      (classifyReleases rows snapshot committeeKey diff).changes = { diff.changes with
        releaseAdds := (classifyReleases rows snapshot committeeKey diff).changes.releaseAdds
        releaseRepoints := (classifyReleases rows snapshot committeeKey diff).changes.releaseRepoints } := by
  have hfold : ∀ (known : List Str) (rows : List ReleaseRow) (s : ReleasesState), s.Inv snapshot known →
      (rows.foldl (classifyRelease snapshot known) s).Inv snapshot known ∧
        (rows.foldl (classifyRelease snapshot known) s).diff.changes = { s.diff.changes with
          releaseAdds := (rows.foldl (classifyRelease snapshot known) s).diff.changes.releaseAdds
          releaseRepoints := (rows.foldl (classifyRelease snapshot known) s).diff.changes.releaseRepoints } := by
    intro known rows
    induction rows with
    | nil => exact fun s hs => ⟨hs, rfl⟩
    | cons row rows ih =>
      intro s hs
      obtain ⟨hinv, hframe⟩ := ih _ (hs.step row)
      rw [classifyRelease_frame] at hframe
      exact ⟨hinv, hframe⟩
  have hrun := hfold (knownProjects snapshot diff committeeKey) rows ⟨[], [], diff⟩ ⟨by
    rw [hadds, hrepoints]
    exact ⟨by simp, by simp, by simp, by simp, by simp, by simp, by simp⟩, by simp [hrepoints], by simp [hadds, hrepoints]⟩
  exact ⟨hrun.1.classified, hrun.2⟩

/-! ### Artifacts -/

/-- An artifact row whose release and project are known, and whose release is not protected. -/
structure ArtifactsContext.Accepts (ctx : ArtifactsContext) (row : ArtifactRow) : Prop where
  unprotected : row.releaseKey ∉ ctx.snapshot.protectedReleaseKeys
  known : row.projectKey.1 ∈ ctx.known
  release : row.releaseKey ∈ ctx.knownReleases

/-- Artifacts that may be added or repointed: the guards of each row, and no two of them converge on one primary key. -/
structure ArtifactsClassified (ctx : ArtifactsContext) (adds : List ArtifactRow) (repoints : List ArtifactRepoint) : Prop where
  accepted : ∀ row ∈ adds ++ repoints.map (fun x => x.toRow), ctx.Accepts row ∧ row.pk ∉ ctx.snapshot.artifactPks ∧
    row.pk ∉ ctx.snapshot.artifactPks.map fun pk => repointedPk pk ctx.repointed
  held : ∀ x ∈ repoints, Dict.get ctx.snapshot.artifactByDist x.dist = some x.fromPk ∧
    x.dist.2 = x.toRow.artifactPath.1
  unprotected : ∀ x ∈ repoints, releaseKeyOf x.fromPk.project x.fromPk.version ∉ ctx.snapshot.protectedReleaseKeys
  dists : (repoints.map fun x => x.dist).Nodup
  pks : ((adds ++ repoints.map fun x => x.toRow).map ArtifactRow.pk).Nodup

/-- One pass changes nothing, adds the row or repoints its artifact. -/
private theorem classifyArtifact_cases (ctx : ArtifactsContext) (s : ArtifactsState) (row : ArtifactRow) :
    ((classifyArtifact ctx s row).diff.changes = s.diff.changes ∧ (classifyArtifact ctx s row).claimed = s.claimed ∧
      s.seenDists ⊆ (classifyArtifact ctx s row).seenDists) ∨
    (ctx.Accepts row ∧ row.pk ∉ s.claimed ∧
      (classifyArtifact ctx s row).diff.changes =
        { s.diff.changes with artifactAdds := s.diff.changes.artifactAdds ++ [row] } ∧
      (classifyArtifact ctx s row).claimed = row.pk :: s.claimed ∧
      s.seenDists ⊆ (classifyArtifact ctx s row).seenDists) ∨
    ∃ dist matched, ctx.Accepts row ∧ row.pk ∉ s.claimed ∧ dist ∉ s.seenDists ∧
      Dict.get ctx.snapshot.artifactByDist dist = some matched ∧ dist.2 = row.artifactPath.1 ∧
      releaseKeyOf matched.project matched.version ∉ ctx.snapshot.protectedReleaseKeys ∧
      (classifyArtifact ctx s row).diff.changes = { s.diff.changes with
        artifactRepoints := s.diff.changes.artifactRepoints ++ [⟨dist, matched, row⟩] } ∧
      (classifyArtifact ctx s row).claimed = row.pk :: s.claimed ∧
      (classifyArtifact ctx s row).seenDists = dist :: s.seenDists := by
  unfold classifyArtifact
  dsimp only
  cases hreference : artifactReferenceConflict row ctx.snapshot ctx.known ctx.knownReleases with
  | some reason => exact .inl ⟨rfl, rfl, fun _ h => h⟩
  | none =>
    have haccepts : ctx.Accepts row := by
      unfold artifactReferenceConflict at hreference
      split_ifs at hreference with hprotected hknown hrelease
      exact ⟨hprotected, hknown, hrelease⟩
    dsimp only
    by_cases hseen : ((row.downloadPathSuffix.map fun suffix => suffix.1).getD [], row.artifactPath.1) ∈ s.seenDists ∨
        row.pk ∈ s.seenPks
    · rw [if_pos hseen]
      exact .inl ⟨rfl, rfl, fun _ h => h⟩
    · rw [if_neg hseen]
      rw [not_or] at hseen
      split
      next matched hmatched =>
        unfold classifyHeldArtifact
        split_ifs with hsame hprotected hclaimed
        · exact .inl ⟨rfl, rfl, List.subset_cons_self _ _⟩
        · exact .inl ⟨rfl, rfl, List.subset_cons_self _ _⟩
        · exact .inl ⟨rfl, rfl, List.subset_cons_self _ _⟩
        · have hget : Dict.get ctx.snapshot.artifactByDist
              ((row.downloadPathSuffix.map fun suffix => suffix.1).getD [], row.artifactPath.1) = some matched := by
            split_ifs at hmatched
            exact hmatched
          exact .inr (.inr ⟨_, matched, haccepts, hclaimed, hseen.1, hget, rfl, hprotected, rfl, rfl, rfl⟩)
      next =>
        unfold classifyNewArtifact
        split_ifs with hclaimed
        · exact .inl ⟨rfl, rfl, List.subset_cons_self _ _⟩
        · exact .inr (.inl ⟨haccepts, hclaimed, changes_add_artifact _ _, rfl, List.subset_cons_self _ _⟩)

/-- What the loop over artifact rows keeps: the keys that are taken at its start and by its changes are claimed. -/
structure ArtifactsState.Inv (ctx : ArtifactsContext) (s : ArtifactsState) : Prop where
  classified : ArtifactsClassified ctx s.diff.changes.artifactAdds s.diff.changes.artifactRepoints
  seen : ∀ x ∈ s.diff.changes.artifactRepoints, x.dist ∈ s.seenDists
  claimed : ∀ pk ∈ ctx.snapshot.artifactPks ++ ctx.snapshot.artifactPks.map (fun pk => repointedPk pk ctx.repointed) ++
    (s.diff.changes.artifactAdds ++ s.diff.changes.artifactRepoints.map fun x => x.toRow).map ArtifactRow.pk,
    pk ∈ s.claimed

theorem ArtifactsState.Inv.free {ctx : ArtifactsContext} {s : ArtifactsState} (h : s.Inv ctx) {row : ArtifactRow}
    (hfree : row.pk ∉ s.claimed) :
    row.pk ∉ ctx.snapshot.artifactPks ∧ row.pk ∉ ctx.snapshot.artifactPks.map (fun pk => repointedPk pk ctx.repointed) ∧
      row.pk ∉ (s.diff.changes.artifactAdds ++ s.diff.changes.artifactRepoints.map fun x => x.toRow).map ArtifactRow.pk :=
  ⟨fun hmem => hfree (h.claimed _ (List.mem_append_left _ (List.mem_append_left _ hmem))),
    fun hmem => hfree (h.claimed _ (List.mem_append_left _ (List.mem_append_right _ hmem))),
    fun hmem => hfree (h.claimed _ (List.mem_append_right _ hmem))⟩

theorem ArtifactsState.Inv.step {ctx : ArtifactsContext} {s : ArtifactsState} (h : s.Inv ctx) (row : ArtifactRow) :
    (classifyArtifact ctx s row).Inv ctx := by
  have hold := h.classified
  -- the row joins the accepted ones, as an add or as the target of a repoint
  have haccepted : ∀ rows : List ArtifactRow, ctx.Accepts row → row.pk ∉ s.claimed →
      rows.Perm (row :: (s.diff.changes.artifactAdds ++ s.diff.changes.artifactRepoints.map fun x => x.toRow)) →
      (∀ row' ∈ rows, ctx.Accepts row' ∧ row'.pk ∉ ctx.snapshot.artifactPks ∧
        row'.pk ∉ ctx.snapshot.artifactPks.map fun pk => repointedPk pk ctx.repointed) ∧
      (rows.map ArtifactRow.pk).Nodup ∧
      ∀ pk ∈ ctx.snapshot.artifactPks ++ ctx.snapshot.artifactPks.map (fun pk => repointedPk pk ctx.repointed) ++
        rows.map ArtifactRow.pk, pk ∈ row.pk :: s.claimed := by
    intro rows haccepts hfree hperm
    obtain ⟨hnew, hnewRepointed, hnewRow⟩ := h.free hfree
    refine ⟨fun row' hrow' => ?_, ?_, fun pk hpk => ?_⟩
    · rcases List.mem_cons.1 (hperm.mem_iff.1 hrow') with rfl | hmem
      · exact ⟨haccepts, hnew, hnewRepointed⟩
      · exact hold.accepted row' hmem
    · rw [(hperm.map ArtifactRow.pk).nodup_iff, List.map_cons, List.nodup_cons]
      exact ⟨hnewRow, hold.pks⟩
    · rcases List.mem_append.1 hpk with hmem | hmem
      · exact List.mem_cons_of_mem _ (h.claimed pk (List.mem_append_left _ hmem))
      · rcases List.mem_cons.1 ((hperm.map ArtifactRow.pk).mem_iff.1 hmem) with rfl | hrow
        · exact List.mem_cons_self
        · exact List.mem_cons_of_mem _ (h.claimed pk (List.mem_append_right _ hrow))
  rcases classifyArtifact_cases ctx s row with ⟨hquiet, hclaimed, hseen⟩ | ⟨haccepts, hfree, hadd, hclaimed, hseen⟩ |
    ⟨dist, matched, haccepts, hfree, hunseen, hmatched, hpath, hprotected, hrepoint, hclaimed, hseen⟩
  · constructor
    · rw [hquiet]
      exact hold
    · rw [hquiet]
      exact fun x hx => hseen (h.seen x hx)
    · rw [hquiet, hclaimed]
      exact h.claimed
  · have hperm : (s.diff.changes.artifactAdds ++ [row] ++ s.diff.changes.artifactRepoints.map fun x => x.toRow).Perm
        (row :: (s.diff.changes.artifactAdds ++ s.diff.changes.artifactRepoints.map fun x => x.toRow)) := by
      rw [List.append_assoc, List.singleton_append]
      exact List.perm_middle
    obtain ⟨hrows, hnodup, htaken⟩ := haccepted _ haccepts hfree hperm
    constructor
    · rw [hadd]
      exact ⟨hrows, hold.held, hold.unprotected, hold.dists, hnodup⟩
    · rw [hadd]
      exact fun x hx => hseen (h.seen x hx)
    · rw [hadd, hclaimed]
      exact htaken
  · have hperm : (s.diff.changes.artifactAdds ++
        (s.diff.changes.artifactRepoints ++ [(⟨dist, matched, row⟩ : ArtifactRepoint)]).map fun x => x.toRow).Perm
        (row :: (s.diff.changes.artifactAdds ++ s.diff.changes.artifactRepoints.map fun x => x.toRow)) := by
      rw [List.map_append, List.map_singleton, ← List.append_assoc]
      exact List.perm_append_singleton _ _
    obtain ⟨hrows, hnodup, htaken⟩ := haccepted _ haccepts hfree hperm
    constructor
    · rw [hrepoint]
      refine ⟨hrows, fun x hx => ?_, fun x hx => ?_, ?_, hnodup⟩
      · rcases List.mem_append.1 hx with hmem | hlast
        · exact hold.held x hmem
        · rw [List.mem_singleton.1 hlast]
          exact ⟨hmatched, hpath⟩
      · rcases List.mem_append.1 hx with hmem | hlast
        · exact hold.unprotected x hmem
        · rw [List.mem_singleton.1 hlast]
          exact hprotected
      · rw [List.map_append, List.map_singleton]
        refine List.nodup_append_comm.1 (List.nodup_cons.2 ⟨fun hmem => ?_, hold.dists⟩)
        obtain ⟨x, hx, heq⟩ := List.mem_map.1 hmem
        have hsame : x.dist = dist := heq
        exact hunseen (hsame ▸ h.seen x hx)
    · rw [hrepoint, hseen]
      intro x hx
      rcases List.mem_append.1 hx with hmem | hlast
      · exact List.mem_cons_of_mem _ (h.seen x hmem)
      · rw [List.mem_singleton.1 hlast]
        exact List.mem_cons_self
    · rw [hrepoint, hclaimed]
      exact htaken

private theorem classifyArtifact_frame (ctx : ArtifactsContext) (s : ArtifactsState) (row : ArtifactRow) :
    (classifyArtifact ctx s row).diff.changes = { s.diff.changes with
      artifactAdds := (classifyArtifact ctx s row).diff.changes.artifactAdds
      artifactRepoints := (classifyArtifact ctx s row).diff.changes.artifactRepoints } := by
  rcases classifyArtifact_cases ctx s row with ⟨hquiet, -⟩ | ⟨-, -, hadd, -⟩ | ⟨dist, matched, -, -, -, -, -, -, hrepoint, -⟩
  · rw [hquiet]
  · rw [hadd]
  · rw [hrepoint]

private theorem classifyArtifacts_classified (rows : List ArtifactRow) (snapshot : DbSnapshot) (committeeKey : Str)
    {diff : CatalogueDiff} (hadds : diff.changes.artifactAdds = []) (hrepoints : diff.changes.artifactRepoints = []) :
    ArtifactsClassified (artifactsContext snapshot committeeKey diff)
        (classifyArtifacts rows snapshot committeeKey diff).changes.artifactAdds
        (classifyArtifacts rows snapshot committeeKey diff).changes.artifactRepoints ∧
      (classifyArtifacts rows snapshot committeeKey diff).changes = { diff.changes with
        artifactAdds := (classifyArtifacts rows snapshot committeeKey diff).changes.artifactAdds
        artifactRepoints := (classifyArtifacts rows snapshot committeeKey diff).changes.artifactRepoints } := by
  have hfold : ∀ (ctx : ArtifactsContext) (rows : List ArtifactRow) (s : ArtifactsState), s.Inv ctx →
      (rows.foldl (classifyArtifact ctx) s).Inv ctx ∧
        (rows.foldl (classifyArtifact ctx) s).diff.changes = { s.diff.changes with
          artifactAdds := (rows.foldl (classifyArtifact ctx) s).diff.changes.artifactAdds
          artifactRepoints := (rows.foldl (classifyArtifact ctx) s).diff.changes.artifactRepoints } := by
    intro ctx rows
    induction rows with
    | nil => exact fun s hs => ⟨hs, rfl⟩
    | cons row rows ih =>
      intro s hs
      obtain ⟨hinv, hframe⟩ := ih _ (hs.step row)
      rw [classifyArtifact_frame] at hframe
      exact ⟨hinv, hframe⟩
  have hrun := hfold (artifactsContext snapshot committeeKey diff) rows ⟨snapshot.artifactPks ++
    snapshot.artifactPks.map fun pk => repointedPk pk (artifactsContext snapshot committeeKey diff).repointed, [], [], diff⟩ ⟨by
      rw [hadds, hrepoints]
      exact ⟨by simp, by simp, by simp, by simp, by simp⟩, by simp [hrepoints], by
      rw [hadds, hrepoints, List.map_nil, List.append_nil, List.map_nil, List.append_nil]
      exact fun pk hpk => hpk⟩
  exact ⟨hrun.1.classified, hrun.2⟩

/-! ### The whole classification -/

/-- What holds of the changes that a classification against a snapshot finds. -/
structure Classified (snapshot : DbSnapshot) (committeeKey : Str) (diff : CatalogueDiff) : Prop where
  projects : ProjectsClassified snapshot diff.projectAdds
  releases : ReleasesClassified snapshot (knownProjects snapshot diff committeeKey) diff.releaseAdds diff.releaseRepoints
  artifacts : ArtifactsClassified (artifactsContext snapshot committeeKey diff) diff.artifactAdds diff.artifactRepoints

theorem classifyRows_classified (parsers : Parsers) (upload : Upload) (snapshot : DbSnapshot) (committeeKey : Str)
    {diff : CatalogueDiff} (hadds : diff.adds = []) (hartifacts : diff.artifactRepoints = [])
    (hreleases : diff.releaseRepoints = []) :
    Classified snapshot committeeKey (classifyRows parsers upload snapshot committeeKey diff) ∧
      (classifyRows parsers upload snapshot committeeKey diff).projectDeletions = diff.projectDeletions ∧
      (classifyRows parsers upload snapshot committeeKey diff).releaseDeletions = diff.releaseDeletions ∧
      (classifyRows parsers upload snapshot committeeKey diff).artifactDeletions = diff.artifactDeletions := by
  unfold classifyRows
  dsimp only
  have hparsed := (changes_parse "artifacts".toList "artifact_path".toList parsers.artifact (upload.artifacts.getD [])
    (parse "releases".toList "key".toList parsers.release (upload.releases.getD [])
      (parse "projects".toList "key".toList parsers.project (upload.projects.getD []) diff).2).2).trans
    ((changes_parse _ _ _ _ _).trans (changes_parse _ _ _ _ _))
  generalize parse "artifacts".toList _ _ _ _ = artifacts at hparsed ⊢
  generalize (parse "releases".toList _ _ _ _).1 = releases at hparsed ⊢
  generalize (parse "projects".toList _ _ _ _).1 = projects at hparsed ⊢
  have hempty : diff.changes.projectAdds = [] ∧ diff.changes.releaseAdds = [] ∧ diff.changes.artifactAdds = [] := by
    simp [CatalogueDiff.changes, CatalogueDiff.projectAdds, CatalogueDiff.releaseAdds, CatalogueDiff.artifactAdds, hadds]
  obtain ⟨hprojects, hframe₁⟩ := classifyProjects_classified projects snapshot committeeKey
    (show artifacts.2.changes.projectAdds = [] by rw [hparsed]; exact hempty.1)
  generalize classifyProjects projects snapshot committeeKey artifacts.2 = diff₁ at hprojects hframe₁ ⊢
  rw [hparsed] at hframe₁
  obtain ⟨hreleases', hframe₂⟩ := classifyReleases_classified releases snapshot committeeKey
    (show diff₁.changes.releaseAdds = [] by rw [hframe₁]; exact hempty.2.1)
    (show diff₁.changes.releaseRepoints = [] by rw [hframe₁]; exact hreleases)
  generalize classifyReleases releases snapshot committeeKey diff₁ = diff₂ at hreleases' hframe₂ ⊢
  obtain ⟨hartifacts', hframe₃⟩ := classifyArtifacts_classified artifacts.1 snapshot committeeKey
    (show diff₂.changes.artifactAdds = [] by rw [hframe₂, hframe₁]; exact hempty.2.2)
    (show diff₂.changes.artifactRepoints = [] by rw [hframe₂, hframe₁]; exact hartifacts)
  generalize classifyArtifacts artifacts.1 snapshot committeeKey diff₂ = diff₃ at hartifacts' hframe₃ ⊢
  have hprojects₂ : diff₂.projectAdds = diff₁.projectAdds := congrArg Changes.projectAdds hframe₂
  have hprojects₃ : diff₃.projectAdds = diff₂.projectAdds := congrArg Changes.projectAdds hframe₃
  have hadds₃ : diff₃.releaseAdds = diff₂.releaseAdds := congrArg Changes.releaseAdds hframe₃
  have hrepoints₃ : diff₃.releaseRepoints = diff₂.releaseRepoints := congrArg Changes.releaseRepoints hframe₃
  refine ⟨⟨?_, ?_, ?_⟩, ?_, ?_, ?_⟩
  · rw [hprojects₃, hprojects₂]
    exact hprojects
  · rw [hadds₃, hrepoints₃, knownProjects_congr _ _ (hprojects₃.trans hprojects₂)]
    exact hreleases'
  · rw [artifactsContext_congr _ _ hprojects₃ hadds₃ hrepoints₃]
    exact hartifacts'
  · exact congrArg Changes.projectDeletions (hframe₃.trans (by rw [hframe₂, hframe₁]))
  · exact congrArg Changes.releaseDeletions (hframe₃.trans (by rw [hframe₂, hframe₁]))
  · exact congrArg Changes.artifactDeletions (hframe₃.trans (by rw [hframe₂, hframe₁]))

end Catalogue

end TrustedReleases
