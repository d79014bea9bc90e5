import TrustedReleases.Catalogue.Repointed

/-!
# Artifacts and their releases

An artifact agrees with its release if both have one project and one version.  An import keeps the agreement of the
artifacts that it leaves or takes along with a release.  A row that it accepts agrees exactly if the release of its key
has its project (`importCatalogueCsvs_agrees_iff`): the classification asks only whether there is a release of the key,
which may be that of another project with hyphens elsewhere.
-/

namespace TrustedReleases

open Lib

namespace Catalogue

/-- An artifact agrees with its release, if it has one. -/
def Db.AgreesAt (db : Db) (pk : Pk) (artifact : Artifact) : Prop :=
  ∀ key ∈ artifact.releaseKey, ∃ release, Dict.get db.releases key = some release ∧
    release.projectKey = pk.project ∧ release.version = pk.version

def Db.Agrees (db : Db) : Prop := ∀ pk artifact, Dict.get db.artifacts pk = some artifact → db.AgreesAt pk artifact

instance (db : Db) : Decidable db.Agrees :=
  decidable_of_iff
    (∀ pk ∈ db.artifacts.keys, ∀ artifact ∈ Dict.get db.artifacts pk, ∀ key ∈ artifact.releaseKey,
      ∃ release ∈ Dict.get db.releases key, release.projectKey = pk.project ∧ release.version = pk.version)
    ⟨fun h pk artifact hget => h pk (Dict.mem_keys_of_get hget) artifact hget, fun h pk _ artifact hget => h pk artifact hget⟩

/-- A release that has the key of an artifact row when its artifact arrives, or gets it afterwards, has its project. -/
structure RowAgrees (db : Db) (diff : CatalogueDiff) (row : ArtifactRow) : Prop where
  held : ∀ release, Dict.get (db.applyDeletions diff).releases row.releaseKey = some release →
    release.projectKey = row.projectKey.1
  added : ∀ release ∈ diff.releaseAdds, release.key.1 = row.releaseKey → release.projectKey.1 = row.projectKey.1
  repointed : ∀ r ∈ diff.releaseRepoints, r.newKey = row.releaseKey → r.toProject = row.projectKey.1

section Applied

variable {db staged db' : Db} {diff : CatalogueDiff} {committeeKey : Str} {snapshot : DbSnapshot}

/-! ### The releases -/

/-- A release that is repointed. -/
private theorem Prepared.get_repointed (h : Prepared db committeeKey snapshot diff) (hdb : db.Valid)
    {r : ReleaseRepoint}
    (hr : r ∈ diff.releaseRepoints) :
    Dict.get (db.applyDeletions diff).releases r.key = some ⟨r.fromProject, r.row.version.1⟩ := by
  obtain ⟨hheld, hkey⟩ := h.classified.releases.held r hr
  obtain ⟨-, release, hget, hproject⟩ := h.releaseProject _ _ hheld
  have hversion : release.version = r.row.version.1 := by
    have hkeyed := hdb.keyed _ _ (get_releases_applyDeletions.1 hget).1
    rw [hproject, hkey] at hkeyed
    exact (releaseKeyOf_version hkeyed).symm
  rw [hget, ← hproject, ← hversion]

/-- A release at the key that it was repointed to. -/
private theorem Prepared.get_newKey (h : Prepared db committeeKey snapshot diff) (hdb : db.Valid)
    (hstaged : Staged db diff staged)
    (hrepointed : Repointed staged diff.releaseRepoints db') {r : ReleaseRepoint} (hr : r ∈ diff.releaseRepoints) :
    Dict.get db'.releases r.newKey = some ⟨r.toProject, r.row.version.1⟩ :=
  (rekeyed_map.1 hrepointed.releases _ _).2 (.inr ⟨r, hr, r.key, _, single_eq_some.2 ⟨rfl, rfl⟩,
    (hstaged.releases _ _).2 (.inl (h.get_repointed hdb hr)), rfl⟩)

/-- Where a release comes from. -/
private theorem Prepared.release_cases (h : Prepared db committeeKey snapshot diff) (hdb : db.Valid)
    (hstaged : Staged db diff staged) (hrepointed : Repointed staged diff.releaseRepoints db') {key : Str}
    {release : Release} (hget : Dict.get db'.releases key = some release) :
    Dict.get (db.applyDeletions diff).releases key = some release ∨
    (∃ row ∈ diff.releaseAdds, row.key.1 = key ∧ row.toSql = release) ∨
    ∃ r ∈ diff.releaseRepoints, r.newKey = key ∧ release = ⟨r.toProject, r.row.version.1⟩ := by
  rcases (rekeyed_map.1 hrepointed.releases _ _).1 hget with ⟨hold, -⟩ | ⟨r, hr, k₀, v₀, htarget, hold, rfl⟩
  · rcases (hstaged.releases _ _).1 hold with hleft | hadd
    · exact .inl hleft
    · obtain ⟨row, hrow, heq⟩ := List.mem_map.1 hadd
      exact .inr (.inl ⟨row, hrow, Prod.mk.inj heq⟩)
  · obtain ⟨rfl, rfl⟩ := single_eq_some.1 htarget
    have hstart := (hstaged.releases _ _).2 (.inl (h.get_repointed hdb hr))
    rw [hold] at hstart
    rw [Option.some.inj hstart]
    exact .inr (.inr ⟨r, hr, rfl, rfl⟩)

/-- The keys of the releases consist of their projects and versions after an import, too. -/
theorem Prepared.keyed (h : Prepared db committeeKey snapshot diff) (hdb : db.Valid) (hstaged : Staged db diff staged)
    (hrepointed : Repointed staged diff.releaseRepoints db') {key : Str} {release : Release}
    (hget : Dict.get db'.releases key = some release) : key = releaseKeyOf release.projectKey release.version := by
  rcases h.release_cases hdb hstaged hrepointed hget with hleft | ⟨row, hrow, rfl, rfl⟩ | ⟨r, hr, rfl, rfl⟩
  · exact hdb.keyed _ _ (get_releases_applyDeletions.1 hleft).1
  · exact (h.classified.releases.add row hrow).1
  · rfl

/-! ### The artifacts -/

/-- The artifact of a repoint is left by the deletions, as its release is of its project. -/
private theorem Prepared.get_fromPk (h : Prepared db committeeKey snapshot diff) (hagrees : db.Agrees)
    {x : ArtifactRepoint}
    (hx : x ∈ diff.artifactRepoints) : ∃ artifact, Dict.get (db.applyDeletions diff).artifacts x.fromPk = some artifact := by
  have hheld := (h.classified.artifacts.held x hx).1
  obtain ⟨-, -, artifact, hget, -⟩ := get_artifactByDist (h.byDist _ _ hheld).1
  refine ⟨artifact, get_artifacts_applyDeletions.2 ⟨hget, fun hmem => ?_, fun hmem => ?_, fun key hkey => ?_⟩⟩
  · exact h.deletedArtifacts _ hmem _ _ hheld rfl
  · exact h.deletedProjects _ hmem _ _ hheld rfl
  · obtain ⟨release, hrelease, hproject, -⟩ := hagrees _ _ hget key hkey
    refine ⟨fun hmem => ?_, fun release' hrelease' hmem => ?_⟩
    · obtain ⟨release', hrelease', hother⟩ := h.deletedReleases _ hmem
      rw [hrelease] at hrelease'
      exact hother _ _ hheld (Option.some.inj hrelease' ▸ hproject.symm)
    · rw [hrelease] at hrelease'
      obtain rfl := Option.some.inj hrelease'
      exact h.deletedProjects _ hmem _ _ hheld hproject.symm

/-- Where an artifact comes from, before the repoints of releases. -/
private theorem Prepared.artifact_cases (h : Prepared db committeeKey snapshot diff) (hstaged : Staged db diff staged)
    {pk : Pk} {artifact : Artifact} (hget : Dict.get staged.artifacts pk = some artifact) :
    Dict.get (db.applyDeletions diff).artifacts pk = some artifact ∨
      ∃ row ∈ diff.acceptedRows, row.pk = pk ∧ artifact.releaseKey = some row.releaseKey := by
  obtain ⟨table, hadds, hrepoints⟩ := hstaged.artifacts
  rcases (rekeyed_map.1 hrepoints _ _).1 hget with ⟨hold, -⟩ | ⟨x, hx, k₀, v₀, htarget, hold, rfl⟩
  · rcases (hadds _ _).1 hold with hleft | hadd
    · exact .inl hleft
    · obtain ⟨row, hrow, heq⟩ := List.mem_map.1 hadd
      obtain ⟨rfl, rfl⟩ := Prod.mk.inj heq
      exact .inr ⟨row, List.mem_append_left _ hrow, rfl, rfl⟩
  · exact .inr ⟨x.toRow, List.mem_append_right _ (List.mem_map_of_mem hx), ((h.rekey_eq_some hx).1 htarget).2, rfl⟩

/-- The artifact of an accepted row is there before the repoints of releases. -/
private theorem Prepared.get_accepted (h : Prepared db committeeKey snapshot diff) (hagrees : db.Agrees)
    (hstaged : Staged db diff staged) {row : ArtifactRow} (hrow : row ∈ diff.acceptedRows) :
    ∃ artifact, Dict.get staged.artifacts row.pk = some artifact ∧ artifact.releaseKey = some row.releaseKey := by
  obtain ⟨table, hadds, hrepoints⟩ := hstaged.artifacts
  rcases List.mem_append.1 hrow with hadd | hrepoint
  · refine ⟨row.toSql, (rekeyed_map.1 hrepoints _ _).2 (.inl ⟨?_, fun x hx => rekey_eq_none.2 (h.source hx hrow)⟩), rfl⟩
    exact (hadds _ _).2 (.inr (List.mem_map.2 ⟨row, hadd, rfl⟩))
  · obtain ⟨x, hx, rfl⟩ := List.mem_map.1 hrepoint
    obtain ⟨artifact, hget⟩ := h.get_fromPk hagrees hx
    exact ⟨_, (rekeyed_map.1 hrepoints _ _).2 (.inr ⟨x, hx, x.fromPk, artifact, (h.rekey_eq_some hx).2 ⟨rfl, rfl⟩,
      (hadds _ _).2 (.inl hget), rfl⟩), rfl⟩

/-! ### Agreement -/

/-- An artifact that a repointed release takes along agrees with it. -/
private theorem Prepared.agreesAt_moved (h : Prepared db committeeKey snapshot diff) (hdb : db.Valid)
    (hstaged : Staged db diff staged) (hrepointed : Repointed staged diff.releaseRepoints db') {r : ReleaseRepoint}
    (hr : r ∈ diff.releaseRepoints) {pk : Pk} {artifact : Artifact} (hproject : pk.project = r.toProject)
    (hversion : pk.version = r.row.version.1) (hkey : artifact.releaseKey = some r.newKey) : db'.AgreesAt pk artifact := by
  intro key hmem
  rw [hkey] at hmem
  obtain rfl := Option.some.inj hmem
  exact ⟨_, h.get_newKey hdb hstaged hrepointed hr, hproject.symm, hversion.symm⟩

/-- An artifact that is left where it was agrees with its release. -/
private theorem Prepared.agreesAt_left (h : Prepared db committeeKey snapshot diff) (hdb : db.Valid)
    (hagrees : db.Agrees)
    (hstaged : Staged db diff staged) (hrepointed : Repointed staged diff.releaseRepoints db') {pk : Pk}
    {artifact : Artifact} (hget : Dict.get (db.applyDeletions diff).artifacts pk = some artifact)
    (hstay : ∀ r ∈ diff.releaseRepoints, ¬ (pk.project = r.fromProject ∧ pk.version = r.row.version.1)) :
    db'.AgreesAt pk artifact := by
  obtain ⟨hold, -, -, hkeys⟩ := get_artifacts_applyDeletions.1 hget
  intro key hkey
  obtain ⟨release, hrelease, hproject, hversion⟩ := hagrees _ _ hold key hkey
  have hleft : Dict.get (db.applyDeletions diff).releases key = some release :=
    get_releases_applyDeletions.2 ⟨hrelease, (hkeys key hkey).1, (hkeys key hkey).2 release hrelease⟩
  refine ⟨release, (rekeyed_map.1 hrepointed.releases _ _).2
    (.inl ⟨(hstaged.releases _ _).2 (.inl hleft), fun r hr => single_eq_none.2 ?_⟩), hproject, hversion⟩
  -- the repoint of its release would have taken it along
  rintro rfl
  rw [h.get_repointed hdb hr] at hleft
  obtain rfl := Option.some.inj hleft
  exact hstay r hr ⟨hproject.symm, hversion.symm⟩

/-- The key of a repointed release is not that of an added or another repointed one. -/
private theorem Prepared.rowAgrees_moved (h : Prepared db committeeKey snapshot diff) (hdb : db.Valid)
    {r : ReleaseRepoint}
    (hr : r ∈ diff.releaseRepoints) {row : ArtifactRow} (hproject : row.projectKey.1 = r.fromProject)
    (hversion : row.version.1 = r.row.version.1) : RowAgrees db diff row := by
  have hkey : row.releaseKey = r.key := by
    rw [ArtifactRow.releaseKey, hproject, hversion, ← (h.classified.releases.held r hr).2]
  refine ⟨fun release hget => ?_, fun release hrelease heq => ?_, fun r' hr' heq => ?_⟩
  · rw [hkey, h.get_repointed hdb hr] at hget
    rw [← Option.some.inj hget, hproject]
  · exact absurd (heq.trans hkey ▸ h.key_mem hr) (h.classified.releases.add release hrelease).2.2
  · exact absurd (heq.trans hkey ▸ h.key_mem hr) (h.classified.releases.target r' hr').2.2

/-- The artifact of an accepted row that no release takes along agrees exactly if the release of its key has its project. -/
private theorem Prepared.agreesAt_accepted (h : Prepared db committeeKey snapshot diff) (hdb : db.Valid)
    (hstaged : Staged db diff staged) (hrepointed : Repointed staged diff.releaseRepoints db') {row : ArtifactRow}
    {artifact : Artifact} (hkey : artifact.releaseKey = some row.releaseKey)
    (hexists : row.releaseKey ∈ db'.releases.keys) : db'.AgreesAt row.pk artifact ↔ RowAgrees db diff row := by
  constructor
  · intro hat
    obtain ⟨release, hget, hproject, -⟩ := hat row.releaseKey hkey
    have hnewKeys := (List.nodup_append.1 h.classified.releases.newKeys).2.2
    refine ⟨fun release' hleft => ?_, fun row' hrow' heq => ?_, fun r hr heq => ?_⟩
    · -- the key of a release that was there is not that of a new one, so that it has not been repointed
      have hmem := h.releaseKeys _ (Dict.mem_keys_of_get hleft)
      rcases h.release_cases hdb hstaged hrepointed hget with hsame | ⟨row', hrow', heq, -⟩ | ⟨r, hr, heq, -⟩
      · rw [hsame] at hleft
        rw [← Option.some.inj hleft]
        exact hproject
      · exact absurd (heq ▸ hmem) (h.classified.releases.add row' hrow').2.2
      · exact absurd (heq ▸ hmem) (h.classified.releases.target r hr).2.2
    · have hstart := (hstaged.releases _ _).2 (.inr (List.mem_map.2 ⟨row', hrow', rfl⟩))
      have hfinal : Dict.get db'.releases row'.key.1 = some row'.toSql := by
        refine (rekeyed_map.1 hrepointed.releases _ _).2 (.inl ⟨hstart, fun r hr => single_eq_none.2 fun hsource => ?_⟩)
        exact (h.classified.releases.add row' hrow').2.2 (hsource ▸ h.key_mem hr)
      rw [heq, hget] at hfinal
      obtain rfl := Option.some.inj hfinal
      exact hproject
    · have hfinal := h.get_newKey hdb hstaged hrepointed hr
      rw [heq, hget] at hfinal
      obtain rfl := Option.some.inj hfinal
      exact hproject
  · intro hrow key hmem
    rw [hkey] at hmem
    obtain rfl := Option.some.inj hmem
    obtain ⟨release, hget⟩ := Option.isSome_iff_exists.1 (Dict.mem_keys.1 hexists)
    have hproject : release.projectKey = row.projectKey.1 := by
      rcases h.release_cases hdb hstaged hrepointed hget with hleft | ⟨row', hrow', heq, rfl⟩ | ⟨r, hr, heq, rfl⟩
      · exact hrow.held release hleft
      · exact hrow.added row' hrow' heq
      · exact hrow.repointed r hr heq
    have hkeyed := h.keyed hdb hstaged hrepointed hget
    rw [ArtifactRow.releaseKey, hproject] at hkeyed
    exact ⟨release, hget, hproject, (releaseKeyOf_version hkeyed).symm⟩

/-- The artifacts agree after a difference exactly if its accepted rows do. -/
private theorem Prepared.agrees_iff (h : Prepared db committeeKey snapshot diff) (hdb : db.Valid) (hagrees : db.Agrees)
    (hok : db.applyDiff diff = .ok db') : db'.Agrees ↔ ∀ row ∈ diff.acceptedRows, RowAgrees db diff row := by
  obtain ⟨-, staged, hstaged, hrepointed, hreferences⟩ := h.applyDiff_ok hdb.toReferences hok
  have hunmoved : ∀ pk artifact, Dict.get staged.artifacts pk = some artifact →
      (∀ r ∈ diff.releaseRepoints, ¬ (pk.project = r.fromProject ∧ pk.version = r.row.version.1)) →
      Dict.get db'.artifacts pk = some artifact := fun pk artifact hget hstay =>
    (rekeyed_map.1 hrepointed.artifacts _ _).2 (.inl ⟨hget, fun r hr => artifactRekey_eq_none.2 (hstay r hr)⟩)
  have hexists : ∀ pk artifact key, Dict.get db'.artifacts pk = some artifact → artifact.releaseKey = some key →
      key ∈ db'.releases.keys := fun pk artifact key hget hkey =>
    hreferences.artifactReleases pk (Dict.mem_keys_of_get hget) artifact hget key hkey
  constructor
  · intro hall row hrow
    obtain ⟨artifact, hget, hkey⟩ := h.get_accepted hagrees hstaged hrow
    by_cases hmoved : ∃ r ∈ diff.releaseRepoints, row.pk.project = r.fromProject ∧ row.pk.version = r.row.version.1
    · obtain ⟨r, hr, hproject, hversion⟩ := hmoved
      exact h.rowAgrees_moved hdb hr hproject hversion
    · have hfinal := hunmoved _ _ hget fun r hr hat => hmoved ⟨r, hr, hat⟩
      exact (h.agreesAt_accepted hdb hstaged hrepointed hkey (hexists _ _ _ hfinal hkey)).1 (hall _ _ hfinal)
  · intro hrows pk artifact hfinal
    rcases (rekeyed_map.1 hrepointed.artifacts _ _).1 hfinal with ⟨hget, hstay⟩ | ⟨r, hr, k₀, v₀, htarget, -, rfl⟩
    · have hstay' := fun r hr => artifactRekey_eq_none.1 (hstay r hr)
      rcases h.artifact_cases hstaged hget with hleft | ⟨row, hrow, rfl, hkey⟩
      · exact h.agreesAt_left hdb hagrees hstaged hrepointed hleft hstay'
      · exact (h.agreesAt_accepted hdb hstaged hrepointed hkey (hexists _ _ _ hfinal hkey)).2 (hrows row hrow)
    · obtain ⟨⟨-, hversion⟩, rfl⟩ := artifactRekey_eq_some.1 htarget
      exact h.agreesAt_moved hdb hstaged hrepointed hr rfl hversion rfl

end Applied

/-- Two projects, of which the first has a release whose key reads as one of the second. -/
def hyphenatedProjects : Db where
  projects := Dict.set (Dict.set ∅ "a".toList (some "c".toList)) "a-b".toList (some "c".toList)
  releases := Dict.set ∅ "a-b-1".toList ⟨"a".toList, "b-1".toList⟩
  artifacts := ∅
  revisions := []
  tasks := []

private theorem hyphenatedProjects_valid : hyphenatedProjects.Valid where
  toReferences := by decide +kernel
  keyed key release hget := by
    rw [hyphenatedProjects, Dict.get_set, Dict.get_empty] at hget
    split_ifs at hget with hkey
    rw [hkey, ← Option.some.inj hget]
    decide

private theorem hyphenatedProjects_agrees : hyphenatedProjects.Agrees := by decide +kernel

/-- The row of an artifact with a project and a version. -/
def addArtifactRow (project version : String) : Upload where
  projects := none
  releases := none
  artifacts := some
    [rawRow [("project_key", project), ("version", version), ("artifact_path", "f"), ("download_path_suffix", "x")]]

end Catalogue

end TrustedReleases
