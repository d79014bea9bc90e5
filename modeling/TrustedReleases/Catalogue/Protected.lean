import TrustedReleases.Catalogue.Repointed

/-!
# Protected releases

A release is protected once it has a revision, and its project is managed then.  A difference deletes nothing of a
managed project and neither repoints a protected release nor moves an artifact to or from one (`classify_protectsBoth`), so
that an import leaves a protected release and its artifacts as they were (`Prepared.untouched`).
-/

namespace TrustedReleases

open Lib

namespace Catalogue

variable {db : Db} {diff : CatalogueDiff} {committeeKey : Str} {snapshot : DbSnapshot}

/-! ### Differences -/

/-- The protected releases exist, and the projects that have them are managed. -/
structure DbSnapshot.Consistent (snapshot : DbSnapshot) : Prop where
  exist : ∀ key ∈ snapshot.protectedReleaseKeys, key ∈ snapshot.releaseKeys
  managed : ∀ key ∈ snapshot.protectedReleaseKeys, ∀ project, Dict.get snapshot.releaseProject key = some project →
    project ∈ snapshot.managedProjectKeys

/-- The deletions of a difference are not those of a managed project. -/
structure ProtectsManaged (snapshot : DbSnapshot) (diff : CatalogueDiff) : Prop where
  projects : ∀ key ∈ diff.projectDeletions, key ∉ snapshot.managedProjectKeys
  releases : ∀ key ∈ diff.releaseDeletions, ∃ project, Dict.get snapshot.releaseProject key = some project ∧
    project ∉ snapshot.managedProjectKeys
  artifacts : ∀ pk ∈ diff.artifactDeletions, pk.project ∉ snapshot.managedProjectKeys

/-- No change of a difference is one of a protected release, or of an artifact to or from one. -/
structure ProtectsReleases (snapshot : DbSnapshot) (diff : CatalogueDiff) : Prop where
  deletions : ∀ key ∈ diff.releaseDeletions, key ∉ snapshot.protectedReleaseKeys
  adds : ∀ row ∈ diff.releaseAdds, row.key.1 ∉ snapshot.protectedReleaseKeys
  repoints : ∀ r ∈ diff.releaseRepoints, r.key ∉ snapshot.protectedReleaseKeys ∧
    r.newKey ∉ snapshot.protectedReleaseKeys
  targets : ∀ row ∈ diff.acceptedRows, releaseKeyOf row.projectKey.1 row.version.1 ∉ snapshot.protectedReleaseKeys
  sources : ∀ x ∈ diff.artifactRepoints, releaseKeyOf x.fromPk.project x.fromPk.version ∉ snapshot.protectedReleaseKeys

private theorem protectsManaged_clear (upload : Upload) (snapshot : DbSnapshot) (committeeKey : Str) :
    ProtectsManaged snapshot (clearDiff upload snapshot committeeKey) where
  projects key hkey := (mem_catalogued.1 (mem_projectDeletions.1 hkey).2).2
  releases key hkey := by
    obtain ⟨project, hproject, hcatalogued⟩ := mem_cataloguedReleases.1 (mem_releaseDeletions.1 hkey).2
    exact ⟨project, hproject, (mem_catalogued.1 hcatalogued).2⟩
  artifacts pk hpk := (mem_catalogued.1 (mem_cataloguedArtifacts.1 (mem_artifactDeletions.1 hpk).2).2).2

theorem ProtectsManaged.congr {diff' : CatalogueDiff} (h : ProtectsManaged snapshot diff)
    (hprojects : diff'.projectDeletions = diff.projectDeletions) (hreleases : diff'.releaseDeletions = diff.releaseDeletions)
    (hartifacts : diff'.artifactDeletions = diff.artifactDeletions) : ProtectsManaged snapshot diff' where
  projects := hprojects ▸ h.projects
  releases := hreleases ▸ h.releases
  artifacts := hartifacts ▸ h.artifacts

private theorem ProtectsManaged.notMem (h : ProtectsManaged snapshot diff) (hs : snapshot.Consistent) {key : Str}
    (hkey : key ∈ diff.releaseDeletions) : key ∉ snapshot.protectedReleaseKeys := by
  intro hprotected
  obtain ⟨project, hproject, hmanaged⟩ := h.releases key hkey
  exact hmanaged (hs.managed key hprotected project hproject)

/-- The guards of a classification keep off what is protected, where that has not been cleared. -/
private theorem Classified.protects {cleared : DbSnapshot} (h : Classified cleared committeeKey diff)
    (hprotected : cleared.protectedReleaseKeys = snapshot.protectedReleaseKeys)
    (hexist : ∀ key ∈ snapshot.protectedReleaseKeys, key ∈ cleared.releaseKeys)
    (hdeletions : ∀ key ∈ diff.releaseDeletions, key ∉ snapshot.protectedReleaseKeys) :
    ProtectsReleases snapshot diff where
  deletions := hdeletions
  adds row hrow hmem := (h.releases.add row hrow).2.2 (hexist _ hmem)
  repoints r hr := by
    refine ⟨?_, fun hmem => (h.releases.target r hr).2.2 (hexist _ hmem)⟩
    rw [← hprotected]
    exact h.releases.unprotected r hr
  targets row hrow := by
    rw [← hprotected]
    exact (h.artifacts.accepted row hrow).1.unprotected
  sources x hx := by
    rw [← hprotected]
    exact h.artifacts.unprotected x hx

private theorem protects_ofNone (hs : snapshot.Consistent) (h : Classified snapshot committeeKey diff)
    (hprojects : diff.projectDeletions = []) (hreleases : diff.releaseDeletions = [])
    (hartifacts : diff.artifactDeletions = []) : ProtectsManaged snapshot diff ∧ ProtectsReleases snapshot diff := by
  refine ⟨⟨?_, ?_, ?_⟩, h.protects rfl hs.exist ?_⟩
  · simp [hprojects]
  · simp [hreleases]
  · simp [hartifacts]
  · simp [hreleases]

/-- The differences of both modes protect the managed projects and the protected releases. -/
private theorem classify_protectsBoth (parsers : Parsers) (upload : Upload) (committeeKey : Str) (mode : Mode)
    (hs : snapshot.Consistent) :
    ProtectsManaged snapshot (classify parsers upload snapshot committeeKey mode) ∧
      ProtectsReleases snapshot (classify parsers upload snapshot committeeKey mode) := by
  rcases classify_cases parsers upload snapshot committeeKey mode with hidle |
    ⟨hclassified, hprojects, hreleases, hartifacts⟩ | ⟨hclassified, hprojects, hreleases, hartifacts⟩
  · exact protects_ofNone hs (hidle.classified snapshot committeeKey) (congrArg Changes.projectDeletions hidle)
      (congrArg Changes.releaseDeletions hidle) (congrArg Changes.artifactDeletions hidle)
  · exact protects_ofNone hs hclassified hprojects hreleases hartifacts
  · have hmanaged := (protectsManaged_clear upload snapshot committeeKey).congr hprojects hreleases hartifacts
    refine ⟨hmanaged, hclassified.protects rfl (fun key hkey => ?_) fun key => hmanaged.notMem hs⟩
    -- a protected release is not cleared, as its project is managed
    refine List.mem_filter.2 ⟨hs.exist key hkey, decide_eq_true ?_⟩
    rintro ⟨-, hcleared⟩
    obtain ⟨project, hproject, hcatalogued⟩ := mem_cataloguedReleases.1 hcleared
    exact (mem_catalogued.1 hcatalogued).2 (hs.managed key hkey project hproject)

/-! ### Imports -/

private theorem buildSnapshot_consistent (committeeKey : Str) (h : db.References) :
    (buildSnapshot db committeeKey).Consistent where
  exist key hkey := h.revisions key hkey
  managed key hkey project hproject := by
    obtain ⟨release, hrelease, rfl, -⟩ := get_releaseProject.1 hproject
    exact mem_managedProjectKeys.2 ⟨key, hkey, release, hrelease, rfl⟩

/-- The protected releases are left as they were, and so are their artifacts: those at the project and the version of
the release that belong to no other one.  An artifact there that has the key of another release goes where that release
goes.  An import does not make such a one: whatever is at the place of a protected release afterwards was there before. -/
def Untouched (db db' : Db) : Prop :=
  ∀ key ∈ db.revisions, ∃ release, Dict.get db.releases key = some release ∧ Dict.get db'.releases key = some release ∧
    ∀ path artifact,
      (Dict.get db'.artifacts ⟨release.projectKey, release.version, path⟩ = some artifact →
        Dict.get db.artifacts ⟨release.projectKey, release.version, path⟩ = some artifact) ∧
      ((∀ releaseKey ∈ artifact.releaseKey, releaseKey = key) →
        Dict.get db.artifacts ⟨release.projectKey, release.version, path⟩ = some artifact →
        Dict.get db'.artifacts ⟨release.projectKey, release.version, path⟩ = some artifact)

section Untouched

variable {db' : Db} {key : Str} {release : Release}

/-- The steps after the deletions leave a protected release. -/
private theorem get_protectedRelease (hprotects : ProtectsReleases (buildSnapshot db committeeKey) diff)
    {staged : Db} (hstaged : Staged db diff staged) (hrepointed : Repointed staged diff.releaseRepoints db')
    (hkey : key ∈ db.revisions) (hget : Dict.get (db.applyDeletions diff).releases key = some release) :
    Dict.get db'.releases key = some release := by
  refine (rekeyed_map.1 hrepointed.releases key release).2
    (.inl ⟨(hstaged.releases key release).2 (.inl hget), fun r hr => single_eq_none.2 ?_⟩)
  rintro rfl
  exact (hprotects.repoints r hr).1 hkey

/-- The steps after the deletions leave the artifacts of a protected release, and no others in their place. -/
private theorem Prepared.get_protectedArtifact (h : Prepared db committeeKey snapshot diff)
    (hprotects : ProtectsReleases (buildSnapshot db committeeKey) diff)
    {staged : Db} (hstaged : Staged db diff staged) (hrepointed : Repointed staged diff.releaseRepoints db')
    {project version : Str} (hkey : releaseKeyOf project version ∈ db.revisions) (path : Str) (artifact : Artifact) :
    Dict.get db'.artifacts ⟨project, version, path⟩ = some artifact ↔
      Dict.get (db.applyDeletions diff).artifacts ⟨project, version, path⟩ = some artifact := by
  obtain ⟨table, hadds, hrepoints⟩ := hstaged.artifacts
  have hrows : ∀ row ∈ diff.acceptedRows, row.pk ≠ ⟨project, version, path⟩ := by
    intro row hrow heq
    obtain ⟨hproject, hversion, -⟩ := Pk.mk.inj heq
    exact hprotects.targets row hrow (hproject ▸ hversion ▸ hkey)
  have htable : Dict.get table ⟨project, version, path⟩ = some artifact ↔
      Dict.get (db.applyDeletions diff).artifacts ⟨project, version, path⟩ = some artifact := by
    rw [hadds]
    refine or_iff_left fun hmem => ?_
    obtain ⟨row, hrow, heq⟩ := List.mem_map.1 hmem
    exact hrows row (List.mem_append_left _ hrow) (Prod.mk.inj heq).1
  have hmoved : Dict.get staged.artifacts ⟨project, version, path⟩ = some artifact ↔
      Dict.get table ⟨project, version, path⟩ = some artifact := by
    rw [rekeyed_map.1 hrepoints]
    constructor
    · rintro (⟨hget, -⟩ | ⟨x, hx, k₀, v₀, htarget, -⟩)
      · exact hget
      · exact absurd ((h.rekey_eq_some hx).1 htarget).2 (hrows _ (List.mem_append_right _ (List.mem_map_of_mem hx)))
    · intro hget
      refine .inl ⟨hget, fun x hx => rekey_eq_none.2 fun heq => hprotects.sources x hx ?_⟩
      rw [← heq]
      exact hkey
  rw [rekeyed_map.1 hrepointed.artifacts, ← htable, ← hmoved]
  constructor
  · rintro (⟨hget, -⟩ | ⟨r, hr, k₀, v₀, htarget, -⟩)
    · exact hget
    · obtain ⟨⟨-, hversion⟩, heq⟩ := artifactRekey_eq_some.1 htarget
      obtain ⟨hproject, hversion', -⟩ := Pk.mk.inj heq
      refine absurd ?_ (hprotects.repoints r hr).2
      rw [ReleaseRepoint.newKey, hproject, hversion.symm.trans hversion']
      exact hkey
  · intro hget
    refine .inl ⟨hget, fun r hr => artifactRekey_eq_none.2 fun hat => (hprotects.repoints r hr).1 ?_⟩
    have hsame : r.key = releaseKeyOf project version := by
      rw [(h.classified.releases.held r hr).2, ← hat.1, ← hat.2]
    exact hsame ▸ hkey

/-- A difference that protects the managed projects and the protected releases leaves the latter untouched. -/
theorem Prepared.untouched (h : Prepared db committeeKey snapshot diff) (hdb : db.Valid)
    (hmanaged : ProtectsManaged (buildSnapshot db committeeKey) diff)
    (hprotects : ProtectsReleases (buildSnapshot db committeeKey) diff) (hok : db.applyDiff diff = .ok db') :
    Untouched db db' := by
  obtain ⟨-, staged, hstaged, hrepointed, -⟩ := h.applyDiff_ok hdb.toReferences hok
  intro key hkey
  obtain ⟨release, hrelease⟩ := Option.isSome_iff_exists.1 (Dict.mem_keys.1 (hdb.revisions key hkey))
  have hproject : release.projectKey ∉ diff.projectDeletions := fun hmem =>
    hmanaged.projects _ hmem (mem_managedProjectKeys.2 ⟨key, hkey, release, hrelease, rfl⟩)
  refine ⟨release, hrelease, ?_, fun path artifact => ?_⟩
  · exact get_protectedRelease hprotects hstaged hrepointed hkey
      (get_releases_applyDeletions.2 ⟨hrelease, fun hmem => hprotects.deletions key hmem hkey, hproject⟩)
  · have hplace := h.get_protectedArtifact hprotects hstaged hrepointed
      (hdb.keyed key release hrelease ▸ hkey) path artifact
    rw [hplace, get_artifacts_applyDeletions]
    refine ⟨fun hget => hget.1, fun hown hget => ⟨hget, fun hmem => ?_, hproject, fun releaseKey hreleaseKey => ?_⟩⟩
    · exact hmanaged.artifacts _ hmem (mem_managedProjectKeys.2 ⟨key, hkey, release, hrelease, rfl⟩)
    · obtain rfl := hown releaseKey hreleaseKey
      refine ⟨fun hmem => hprotects.deletions _ hmem hkey, fun release' hrelease' => ?_⟩
      rw [hrelease] at hrelease'
      exact Option.some.inj hrelease' ▸ hproject

end Untouched

/-- A managed project, whose release has an artifact and a revision, and one that is not managed. -/
def managedProject : Db where
  projects := Dict.set (Dict.set ∅ "one".toList (some "c".toList)) "two".toList (some "c".toList)
  releases := Dict.set (Dict.set ∅ "two-1".toList ⟨"two".toList, "1".toList⟩) "one-1".toList ⟨"one".toList, "1".toList⟩
  artifacts := Dict.set ∅ ⟨"one".toList, "1".toList, "f".toList⟩ ⟨some "one-1".toList, some "x".toList⟩
  revisions := ["one-1".toList]
  tasks := []

private theorem managedProject_valid : managedProject.Valid where
  toReferences := by decide +kernel
  keyed key release hget := by
    rw [managedProject, Dict.get_set, Dict.get_set, Dict.get_empty] at hget
    split_ifs at hget with hone htwo
    · rw [hone, ← Option.some.inj hget]
      decide
    · rw [htwo, ← Option.some.inj hget]
      decide

/-- The projects are replaced by another one. -/
def replaceProjects : Upload where
  projects := some [rawRow [("key", "three"), ("committee_key", "c")]]
  releases := none
  artifacts := none

end Catalogue

end TrustedReleases
