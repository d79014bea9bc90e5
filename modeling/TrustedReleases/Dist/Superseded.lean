import TrustedReleases.Dist.Replaced
import TrustedReleases.Dist.Supersession

/-!
# Which drafts are wiped

As long as no draft that the watcher has found overtaken passes its vote before the watcher gets to it, no wipe fails
after it has committed, and no draft is found twice, the watcher wipes unfinished drafts alone, and each draft that it
wipes is catalogued, unless this fails (`supersession_spares`).
-/

namespace TrustedReleases

open Lib

namespace Dist

/-- A release that is not past its vote. -/
def Release.unfinished (r : Release) : Prop := r.phase = .releaseCandidateDraft ∨ r.phase = .releaseCandidate

/-- The drafts that are left to be wiped. -/
def Watcher.pending : Watcher → List SupersededDraft
  | .superseding drafts _ _ => drafts
  | .notifying _ drafts _ _ => drafts
  | _ => []

/-- The releases that are left to be catalogued. -/
def Watcher.toCatalogue : Watcher → List ResolvedRelease
  | .superseding _ releases _ => releases
  | .notifying _ _ releases _ => releases
  | .cataloguing releases _ => releases
  | _ => []

def Watcher.isDone : Watcher → Bool
  | .done => true
  | _ => false

namespace State

/-- The event does not lead to a wipe of the wrong release, or to one that leaves a gap. -/
def Sound (s : State) : Event → Prop
  | .resolve => ∀ rules reading write resolution, s.watcher = .reading rules reading write →
      resolveChanges rules s.db reading = .ok resolution → (resolution.supersessions.map SupersededDraft.key).Nodup
  | .supersede wipe => wipe ≠ .commits false
  | .notify raises => raises = false
  | .resolveVote key passed => passed = true → key ∉ s.watcher.pending.map SupersededDraft.key
  | _ => True

/-- Every event of the run is sound where it happens. -/
def SoundRun : State → List Event → Prop
  | _, [] => True
  | s, e :: events => s.Sound e ∧ (s.step e).SoundRun events

end State

/-! ### Tables -/

variable {db db' : Db}

private theorem mem_update {key : Str} {phase : ReleasePhase} {f : Release → Release} (hf : ∀ r, (f r).key = r.key)
    {r' : Release} : r' ∈ (db.update key phase f hf).releases ↔
      ∃ r ∈ db.releases, (if r.key = key ∧ r.phase = phase then f r else r) = r' := List.mem_map

private theorem keys_update (key : Str) (phase : ReleasePhase) (f : Release → Release) (hf : ∀ r, (f r).key = r.key) :
    (db.update key phase f hf).releases.map Release.key = db.releases.map Release.key := by
  show (db.releases.map fun r => if r.key = key ∧ r.phase = phase then f r else r).map Release.key = _
  rw [List.map_map]
  refine List.map_congr_left fun r _ => ?_
  simp only [Function.comp_apply]
  split
  · exact hf r
  · rfl

private theorem mem_delete {key : Str} {r : Release} :
    r ∈ (db.delete key).releases ↔ r ∈ db.releases ∧ r.key ≠ key := by
  show r ∈ db.releases.filter _ ↔ _
  rw [List.mem_filter, decide_eq_true_iff]

private theorem mem_keys_delete {key k : Str} : k ∈ (db.delete key).releases.map Release.key ↔
    k ∈ db.releases.map Release.key ∧ k ≠ key := by
  rw [List.mem_map, List.mem_map]
  constructor
  · rintro ⟨r, hr, rfl⟩
    exact ⟨⟨r, (mem_delete.1 hr).1, rfl⟩, (mem_delete.1 hr).2⟩
  · rintro ⟨⟨r, hr, rfl⟩, hne⟩
    exact ⟨r, mem_delete.2 ⟨hr, hne⟩, rfl⟩

private theorem insert_eq_some {r : Release} (h : db.insert r = some db') : db'.releases = db.releases ++ [r] := by
  unfold Db.insert at h
  split at h
  · cases h
  · obtain rfl := Option.some.inj h
    rfl

private theorem release_eq_some {projectKey version : Str} {r : Release} (h : db.release projectKey version = some r) :
    r ∈ db.releases ∧ r.key = releaseKey projectKey version := by
  have hpair := List.find?_some h
  rw [decide_eq_true_iff] at hpair
  refine ⟨List.mem_of_find?_eq_some h, ?_⟩
  rw [Release.key, hpair.1, hpair.2]

/-- The tables have one release with a key. -/
theorem Db.unique (db : Db) {r r' : Release} (h : r ∈ db.releases) (h' : r' ∈ db.releases) (hkey : r.key = r'.key) :
    r = r' := List.inj_on_of_nodup_map db.releases_nodup h h' hkey

private theorem catalogueRelease_eq_some {projectKey version : Str}
    (h : catalogueRelease db projectKey version = some db') :
    releaseKey projectKey version ∈ db'.releases.map Release.key ∧
      ∀ k ∈ db.releases.map Release.key, k ∈ db'.releases.map Release.key := by
  unfold catalogueRelease at h
  cases hproject : db.projects.find? fun p => decide (p.key = projectKey) with
  | none =>
    rw [hproject] at h
    cases h
  | some project =>
    rw [hproject] at h
    have hkey : project.key = projectKey := by simpa using List.find?_some hproject
    subst hkey
    cases hrelease : db.release project.key version with
    | some existing =>
      simp only [hrelease, Option.some.injEq] at h
      have hkeys : db'.releases.map Release.key = db.releases.map Release.key := by
        rw [← h]
        split
        · exact keys_update _ _ _ _
        · rfl
      obtain ⟨hmem, hkey⟩ := release_eq_some hrelease
      rw [hkeys]
      refine ⟨?_, fun k hk => hk⟩
      rw [← hkey]
      exact List.mem_map_of_mem hmem
    | none =>
      simp only [hrelease] at h
      rw [insert_eq_some h, List.map_append]
      exact ⟨List.mem_append_right _ (List.mem_singleton.2 rfl), fun k hk => List.mem_append_left _ hk⟩

/-! ### The resolution -/

/-- A draft that a bundle overtakes is one of the tables, and its release is to be catalogued. -/
private theorem resolveRelease_supersede {rules : DistRules} {bundle : ReleaseFiles} {d : SupersededDraft}
    (h : (resolveRelease rules db bundle).supersede = some d) :
    (∃ r ∈ db.releases, r.key = d.key ∧ r.unfinished) ∧
      ∃ c, (resolveRelease rules db bundle).catalogue = some c ∧ c.key = d.key := by
  unfold resolveRelease at h ⊢
  cases hproject : resolveProject rules db bundle.committee bundle.subproject with
  | none =>
    rw [hproject] at h
    cases h
  | some project =>
    simp only [hproject] at h ⊢
    cases hexisting : cataloguedRelease db project.key bundle.version with
    | none =>
      simp only [hexisting] at h
      split at h <;> cases h
    | some release =>
      obtain ⟨hmem, hproject'⟩ := cataloguedRelease_mem hexisting
      simp only [hexisting, Option.map_some, Option.getD_some] at h ⊢
      cases hkeys : safeKeys project.key release.version with
      | none =>
        rw [hkeys] at h
        cases h
      | some keys =>
        obtain ⟨key, version⟩ := keys
        obtain ⟨rfl, rfl⟩ := safeKeys_eq_some hkeys
        simp only [hkeys] at h ⊢
        have hkey : release.key = releaseKey project.key release.version := by rw [Release.key, hproject']
        cases hphase : release.phase with
        | release =>
          simp only [hphase] at h
          split at h <;> cases h
        | releasePreview =>
          simp only [hphase] at h
          cases h
        | releaseCandidateDraft =>
          simp only [hphase, Option.some.injEq] at h ⊢
          rw [← h]
          exact ⟨⟨release, hmem, hkey, .inl hphase⟩, _, rfl, rfl⟩
        | releaseCandidate =>
          simp only [hphase, Option.some.injEq] at h ⊢
          rw [← h]
          exact ⟨⟨release, hmem, hkey, .inr hphase⟩, _, rfl, rfl⟩

private theorem resolveChanges_supersede {rules : DistRules} {reading : Reading} {resolution : Resolution}
    (h : resolveChanges rules db reading = .ok resolution) {d : SupersededDraft} (hd : d ∈ resolution.supersessions) :
    (∃ r ∈ db.releases, r.key = d.key ∧ r.unfinished) ∧ ∃ c ∈ resolution.releases, c.key = d.key := by
  unfold resolveChanges at h
  dsimp only at h
  obtain ⟨archives, -, h⟩ := bind_eq_ok h
  obtain rfl := Except.ok.inj h
  obtain ⟨resolved, hresolved, hsupersede⟩ := List.mem_filterMap.1 hd
  obtain ⟨bundle, hbundle, rfl⟩ := List.mem_map.1 hresolved
  obtain ⟨hdraft, c, hcatalogue, hkey⟩ := resolveRelease_supersede hsupersede
  exact ⟨hdraft, c, List.mem_filterMap.2 ⟨_, hresolved, hcatalogue⟩, hkey⟩

/-! ### The invariant -/

/-- The release is there, or somebody else deleted it, or it could not be catalogued, or it is about to be. -/
def Kept (s : State) (key : Str) : Prop :=
  key ∈ s.db.releases.map Release.key ∨ key ∈ s.deleted ∨ key ∈ s.uncatalogued ∨
    (key ∉ s.failed ∧ key ∉ s.watcher.pending.map SupersededDraft.key ∧
      key ∈ s.watcher.toCatalogue.map ResolvedRelease.key)

/-- The invariant of sound runs, of which the unfinished releases at the beginning are given by their keys. -/
structure Inv (drafts : List Str) (s : State) : Prop where
  unread : ∀ rules reading write, s.watcher = .reading rules reading write → s.failed = []
  unfinished : ∀ d ∈ s.watcher.pending, ∀ r ∈ s.db.releases, r.key = d.key → r.unfinished
  once : (s.watcher.pending.map SupersededDraft.key).Nodup
  unfailed : ∀ d ∈ s.watcher.pending, d.key ∉ s.failed
  catalogued : ∀ d ∈ s.watcher.pending, d.key ∈ s.watcher.toCatalogue.map ResolvedRelease.key
  wiped : ∀ r ∈ s.wiped, r.unfinished
  kept : ∀ key ∈ drafts, Kept s key

variable {drafts : List Str} {s : State}

theorem Inv.start {db : Db} {rules : DistRules} {reading : Reading} {write : Bool}
    (h : ∀ key ∈ drafts, key ∈ db.releases.map Release.key) : Inv drafts (.start db rules reading write) where
  unread := fun _ _ _ _ => rfl
  unfinished := by simp [State.start, Watcher.pending]
  once := by simp [State.start, Watcher.pending]
  unfailed := by simp [State.start, Watcher.pending]
  catalogued := by simp [State.start, Watcher.pending]
  wiped := by simp [State.start]
  kept := fun key hkey => .inl (h key hkey)

/-! ### Steps of the others -/

/-- A step that only changes the phases of releases, and of no draft that is to be wiped to one past its vote. -/
theorem Inv.update (h : Inv drafts s) {key : Str} {phase : ReleasePhase} {f : Release → Release}
    (hf : ∀ r, (f r).key = r.key)
    (hphase : ∀ d ∈ s.watcher.pending, d.key = key → ∀ r, r.unfinished → r.phase = phase → (f r).unfinished) :
    Inv drafts { s with db := s.db.update key phase f hf } where
  unread := h.unread
  unfinished := by
    intro d hd r' hr' hkey
    obtain ⟨r, hr, rfl⟩ := (mem_update hf).1 hr'
    by_cases hmatch : r.key = key ∧ r.phase = phase
    · rw [if_pos hmatch] at hkey ⊢
      rw [hf] at hkey
      exact hphase d hd (hkey.symm.trans hmatch.1) r (h.unfinished d hd r hr hkey) hmatch.2
    · rw [if_neg hmatch] at hkey ⊢
      exact h.unfinished d hd r hr hkey
  once := h.once
  unfailed := h.unfailed
  catalogued := h.catalogued
  wiped := h.wiped
  kept := by
    intro k hk
    unfold Kept
    rw [keys_update]
    exact h.kept k hk

theorem Inv.delete (h : Inv drafts s) (key : Str) :
    Inv drafts { s with db := s.db.delete key, deleted := s.deleted ++ [key] } where
  unread := h.unread
  unfinished := fun d hd r hr hkey => h.unfinished d hd r (mem_delete.1 hr).1 hkey
  once := h.once
  unfailed := h.unfailed
  catalogued := h.catalogued
  wiped := h.wiped
  kept := by
    intro k hk
    rcases h.kept k hk with hpresent | hdeleted | hrest
    · by_cases hsame : k = key
      · exact .inr (.inl (by rw [hsame]; exact List.mem_append_right _ (List.mem_singleton_self key)))
      · exact .inl (mem_keys_delete.2 ⟨hpresent, hsame⟩)
    · exact .inr (.inl (List.mem_append_left _ hdeleted))
    · exact .inr (.inr hrest)

theorem Inv.insert (h : Inv drafts s) {r : Release} (hr : r.unfinished) (hinsert : s.db.insert r = some db') :
    Inv drafts { s with db := db' } where
  unread := h.unread
  unfinished := by
    intro d hd r' hr' hkey
    rw [insert_eq_some hinsert, List.mem_append, List.mem_singleton] at hr'
    rcases hr' with hr' | rfl
    · exact h.unfinished d hd r' hr' hkey
    · exact hr
  once := h.once
  unfailed := h.unfailed
  catalogued := h.catalogued
  wiped := h.wiped
  kept := by
    intro k hk
    refine (h.kept k hk).imp (fun hpresent => ?_) id
    rw [insert_eq_some hinsert, List.map_append]
    exact List.mem_append_left _ hpresent

/-! ### Steps of the watcher -/

/-- The watcher goes on with nothing left to be wiped. -/
private theorem Inv.goto (h : Inv drafts s) {s' : State}
    (hreading : ∀ rules reading write, s'.watcher ≠ .reading rules reading write) (hpending : s'.watcher.pending = [])
    (hwiped : s'.wiped = s.wiped) (hkept : ∀ key ∈ drafts, Kept s' key) : Inv drafts s' where
  unread := fun rules reading write heq => absurd heq (hreading rules reading write)
  unfinished := by
    rw [hpending]
    intro d hd
    cases hd
  once := by
    rw [hpending]
    exact List.nodup_nil
  unfailed := by
    rw [hpending]
    intro d hd
    cases hd
  catalogued := by
    rw [hpending]
    intro d hd
    cases hd
  wiped := by
    rw [hwiped]
    exact h.wiped
  kept := hkept

theorem Inv.resolve (h : Inv drafts s) (hsound : s.Sound .resolve) : Inv drafts s.resolve := by
  unfold State.resolve
  cases hwatcher : s.watcher with
  | reading rules reading write =>
    have hkept (w : Watcher) : ∀ key ∈ drafts, Kept { s with watcher := w } key := by
      intro key hkey
      rcases h.kept key hkey with hpresent | hdeleted | huncatalogued | ⟨-, -, hleft⟩
      · exact .inl hpresent
      · exact .inr (.inl hdeleted)
      · exact .inr (.inr (.inl huncatalogued))
      · rw [hwatcher] at hleft
        cases hleft
    have hdone : Inv drafts { s with watcher := .done } :=
      h.goto (fun _ _ _ heq => by cases heq) rfl rfl (hkept .done)
    cases hresolution : resolveChanges rules s.db reading with
    | error e => simpa only [hresolution] using hdone
    | ok resolution =>
      simp only [hresolution]
      cases write with
      | false => exact hdone
      | true =>
        refine ⟨?_, fun d hd r hr hkey => ?_, hsound _ _ _ _ hwatcher hresolution, fun d _ => ?_, fun d hd => ?_,
          h.wiped, hkept _⟩
        · intro _ _ _ heq
          cases heq
        · obtain ⟨⟨r', hr', hkey', hunfinished⟩, -⟩ := resolveChanges_supersede hresolution hd
          rwa [s.db.unique hr hr' (hkey.trans hkey'.symm)]
        · show d.key ∉ s.failed
          rw [h.unread _ _ _ hwatcher]
          exact List.not_mem_nil
        · obtain ⟨-, c, hc, hkey⟩ := resolveChanges_supersede hresolution hd
          exact List.mem_map.2 ⟨c, hc, hkey⟩
  | superseding | notifying | cataloguing | archiving | done => exact h

section

variable {d : SupersededDraft} {left : List SupersededDraft} {releases : List ResolvedRelease}
  {archives : List (Str × Str)}

/-- A draft that could not be wiped. -/
theorem Inv.fail (h : Inv drafts s) (hwatcher : s.watcher = .superseding (d :: left) releases archives) :
    Inv drafts { s with watcher := .superseding left releases archives, failed := s.failed ++ [d.key] } := by
  have honce := h.once
  have hunfinished := h.unfinished
  have hunfailed := h.unfailed
  have hcatalogued := h.catalogued
  rw [hwatcher] at honce hunfinished hunfailed hcatalogued
  obtain ⟨hnew, hleft⟩ := List.nodup_cons.1 honce
  refine ⟨?_, fun x hx => hunfinished x (List.mem_cons_of_mem d hx), hleft, fun x hx hfailed => ?_,
    fun x hx => hcatalogued x (List.mem_cons_of_mem d hx), h.wiped, fun key hkey => ?_⟩
  · intro _ _ _ heq
    cases heq
  · rcases List.mem_append.1 hfailed with hfailed | hfailed
    · exact hunfailed x (List.mem_cons_of_mem d hx) hfailed
    · rw [← List.mem_singleton.1 hfailed] at hnew
      exact hnew (List.mem_map_of_mem hx)
  · rcases h.kept key hkey with hpresent | hdeleted | huncatalogued | ⟨hok, hdone, hto⟩
    · exact .inl hpresent
    · exact .inr (.inl hdeleted)
    · exact .inr (.inr (.inl huncatalogued))
    · rw [hwatcher] at hdone hto
      obtain ⟨hne, hrest⟩ := List.ne_and_not_mem_of_not_mem_cons hdone
      refine .inr (.inr (.inr ⟨fun hfailed => ?_, hrest, hto⟩))
      rcases List.mem_append.1 hfailed with hfailed | hfailed
      · exact hok hfailed
      · exact hne (List.mem_singleton.1 hfailed)

/-- A draft that is wiped. -/
theorem Inv.wipe (h : Inv drafts s) (hwatcher : s.watcher = .superseding (d :: left) releases archives) {r : Release}
    (hr : s.db.release d.projectKey d.versionKey = some r) {w : Watcher}
    (hw : w = .superseding left releases archives ∨ w = .notifying d.key left releases archives) :
    Inv drafts { s with db := s.db.delete r.key, wiped := s.wiped ++ [r], watcher := w } := by
  have honce := h.once
  have hunfinished := h.unfinished
  have hunfailed := h.unfailed
  have hcatalogued := h.catalogued
  rw [hwatcher] at honce hunfinished hunfailed hcatalogued
  obtain ⟨hmem, hkey⟩ := release_eq_some hr
  obtain ⟨hnew, hleft⟩ := List.nodup_cons.1 honce
  have hpending : w.pending = left := by rcases hw with rfl | rfl <;> rfl
  have hto : w.toCatalogue = releases := by rcases hw with rfl | rfl <;> rfl
  refine ⟨?_, fun x hx y hy => ?_, ?_, fun x hx => ?_, fun x hx => ?_, fun x hx => ?_, fun key hdraft => ?_⟩
  · intro _ _ _ heq
    rcases hw with rfl | rfl <;> cases heq
  · rw [hpending] at hx
    exact hunfinished x (List.mem_cons_of_mem d hx) y (mem_delete.1 hy).1
  · rwa [hpending]
  · rw [hpending] at hx
    exact hunfailed x (List.mem_cons_of_mem d hx)
  · rw [hpending] at hx
    rw [hto]
    exact hcatalogued x (List.mem_cons_of_mem d hx)
  · rcases List.mem_append.1 hx with hx | hx
    · exact h.wiped x hx
    · rw [List.mem_singleton.1 hx]
      exact hunfinished d List.mem_cons_self r hmem hkey
  · by_cases hsame : key = r.key
    · -- it is going to be catalogued
      refine .inr (.inr (.inr ⟨?_, ?_, ?_⟩))
      · rw [hsame, hkey]
        exact hunfailed d List.mem_cons_self
      · rw [hsame, hkey, hpending]
        exact hnew
      · rw [hsame, hkey, hto]
        exact hcatalogued d List.mem_cons_self
    · rcases h.kept key hdraft with hpresent | hdeleted | huncatalogued | ⟨hok, hdone, hleft'⟩
      · exact .inl (mem_keys_delete.2 ⟨hpresent, hsame⟩)
      · exact .inr (.inl hdeleted)
      · exact .inr (.inr (.inl huncatalogued))
      · rw [hwatcher] at hdone hleft'
        refine .inr (.inr (.inr ⟨hok, ?_, ?_⟩))
        · rw [hpending]
          exact (List.ne_and_not_mem_of_not_mem_cons hdone).2
        · rw [hto]
          exact hleft'

theorem Inv.supersede (h : Inv drafts s) {wipe : Wipe} (hsound : wipe ≠ .commits false) :
    Inv drafts (s.supersede wipe) := by
  unfold State.supersede
  cases hwatcher : s.watcher with
  | superseding left releases archives =>
    cases left with
    | nil =>
      refine h.goto (fun _ _ _ heq => by cases heq) rfl rfl fun key hkey => ?_
      have hkept := h.kept key hkey
      unfold Kept at hkept
      rw [hwatcher] at hkept
      exact hkept
    | cons d left =>
      cases wipe with
      | raises => exact h.fail hwatcher
      | commits removed =>
        cases hr : s.db.release d.projectKey d.versionKey with
        | none => simpa only [hr] using h.fail hwatcher
        | some r =>
          cases removed with
          | false => exact absurd rfl hsound
          | true =>
            simp only [hr, if_true]
            refine h.wipe hwatcher hr ?_
            split
            · exact .inr rfl
            · exact .inl rfl
  | reading | notifying | cataloguing | archiving | done => exact h

theorem Inv.notify (h : Inv drafts s) : Inv drafts (s.notify false) := by
  unfold State.notify
  cases hwatcher : s.watcher with
  | notifying key left releases archives =>
    have honce := h.once
    have hunfinished := h.unfinished
    have hunfailed := h.unfailed
    have hcatalogued := h.catalogued
    have hkept := h.kept
    unfold Kept at hkept
    rw [hwatcher] at honce hunfinished hunfailed hcatalogued hkept
    refine ⟨?_, hunfinished, honce, hunfailed, hcatalogued, h.wiped, hkept⟩
    intro _ _ _ heq
    cases heq
  | reading | superseding | cataloguing | archiving | done => exact h

theorem Inv.catalogue (h : Inv drafts s) (raises : Bool) : Inv drafts (s.catalogue raises) := by
  unfold State.catalogue
  cases hwatcher : s.watcher with
  | cataloguing releases archives =>
    cases releases with
    | nil =>
      refine h.goto (fun _ _ _ heq => by cases heq) rfl rfl fun key hkey => ?_
      rcases h.kept key hkey with hpresent | hdeleted | huncatalogued | ⟨-, -, hleft⟩
      · exact .inl hpresent
      · exact .inr (.inl hdeleted)
      · exact .inr (.inr (.inl huncatalogued))
      · rw [hwatcher] at hleft
        cases hleft
    | cons r releases =>
      simp only
      by_cases hfailed : r.key ∈ s.failed
      · rw [if_pos hfailed]
        refine h.goto (fun _ _ _ heq => by cases heq) rfl rfl fun key hkey => ?_
        rcases h.kept key hkey with hpresent | hdeleted | huncatalogued | ⟨hok, -, hleft⟩
        · exact .inl hpresent
        · exact .inr (.inl hdeleted)
        · exact .inr (.inr (.inl huncatalogued))
        · rw [hwatcher] at hleft
          rcases List.mem_cons.1 hleft with rfl | hleft
          · exact absurd hfailed hok
          · exact .inr (.inr (.inr ⟨hok, List.not_mem_nil, hleft⟩))
      · rw [if_neg hfailed]
        cases hcatalogue : if raises then none else catalogueRelease s.db r.projectKey r.versionKey with
        | none =>
          refine h.goto (fun _ _ _ heq => by cases heq) rfl rfl fun key hkey => ?_
          rcases h.kept key hkey with hpresent | hdeleted | huncatalogued | ⟨hok, -, hleft⟩
          · exact .inl hpresent
          · exact .inr (.inl hdeleted)
          · exact .inr (.inr (.inl (List.mem_append_left _ huncatalogued)))
          · rw [hwatcher] at hleft
            rcases List.mem_cons.1 hleft with rfl | hleft
            · exact .inr (.inr (.inl (List.mem_append_right _ (List.mem_singleton_self _))))
            · exact .inr (.inr (.inr ⟨hok, List.not_mem_nil, hleft⟩))
        | some db =>
          have hsome : catalogueRelease s.db r.projectKey r.versionKey = some db := by
            cases raises with
            | true => cases hcatalogue
            | false => exact hcatalogue
          obtain ⟨hthere, hothers⟩ := catalogueRelease_eq_some hsome
          refine h.goto (fun _ _ _ heq => by cases heq) rfl rfl fun key hkey => ?_
          rcases h.kept key hkey with hpresent | hdeleted | huncatalogued | ⟨hok, -, hleft⟩
          · exact .inl (hothers key hpresent)
          · exact .inr (.inl hdeleted)
          · exact .inr (.inr (.inl huncatalogued))
          · rw [hwatcher] at hleft
            rcases List.mem_cons.1 hleft with rfl | hleft
            · exact .inl hthere
            · exact .inr (.inr (.inr ⟨hok, List.not_mem_nil, hleft⟩))
  | reading | superseding | notifying | archiving | done => exact h

theorem Inv.archive (h : Inv drafts s) (raises : Bool) : Inv drafts (s.archive raises) := by
  unfold State.archive
  cases hwatcher : s.watcher with
  | archiving archives =>
    have hkept {db : Db} (hkeys : db.releases.map Release.key = s.db.releases.map Release.key) (w : Watcher) :
        ∀ key ∈ drafts, Kept { s with db := db, watcher := w } key := by
      intro key hkey
      rcases h.kept key hkey with hpresent | hdeleted | huncatalogued | ⟨-, -, hleft⟩
      · rw [← hkeys] at hpresent
        exact .inl hpresent
      · exact .inr (.inl hdeleted)
      · exact .inr (.inr (.inl huncatalogued))
      · rw [hwatcher] at hleft
        cases hleft
    cases archives with
    | nil => exact h.goto (fun _ _ _ heq => by cases heq) rfl rfl (hkept rfl _)
    | cons a archives =>
      refine h.goto (fun _ _ _ heq => by cases heq) rfl rfl (hkept ?_ _)
      split
      · rfl
      · unfold releaseArchive
        split
        · rfl
        · exact keys_update _ _ _ _
  | reading | superseding | notifying | cataloguing | done => exact h

end

/-! ### Runs -/

theorem Inv.step (h : Inv drafts s) {e : Event} (hsound : s.Sound e) : Inv drafts (s.step e) := by
  cases e with
  | resolve => exact h.resolve hsound
  | supersede wipe => exact h.supersede hsound
  | notify raises =>
    obtain rfl : raises = false := hsound
    exact h.notify
  | catalogue raises => exact h.catalogue raises
  | archive raises => exact h.archive raises
  | startVote key => exact h.update _ fun _ _ _ _ _ _ => .inr rfl
  | resolveVote key passed =>
    refine h.update _ fun d hd hkey r hr hphase => ?_
    cases passed with
    | false => exact .inl rfl
    | true => exact absurd (by rw [← hkey]; exact List.mem_map_of_mem hd) (hsound rfl)
  | announce key =>
    refine h.update _ fun d hd hkey r hr hphase => ?_
    rcases hr with hr | hr <;> rw [hr] at hphase <;> cases hphase
  | delete key =>
    rw [State.step]
    split
    · exact h.delete key
    · exact h
  | create projectKey version author =>
    rw [State.step]
    cases hinsert : s.db.insert ⟨projectKey, version, .releaseCandidateDraft, false, author⟩ with
    | none => simpa only [hinsert] using h
    | some db => simpa only [hinsert] using h.insert (.inl rfl) hinsert

theorem Inv.run (h : Inv drafts s) {events : List Event} (hsound : s.SoundRun events) : Inv drafts (s.run events) := by
  unfold State.run
  induction events generalizing s with
  | nil => exact h
  | cons e events ih => exact ih (h.step hsound.1) hsound.2

/-- In a sound run the watcher wipes unfinished drafts alone, and when it is done, each release that was there at the
beginning is there, unless somebody else deleted it or it could not be catalogued. -/
theorem supersession_spares {db : Db} {rules : DistRules} {reading : Reading} {write : Bool} {events : List Event}
    (hsound : (State.start db rules reading write).SoundRun events) :
    (∀ r ∈ ((State.start db rules reading write).run events).wiped, r.phase ≠ .releasePreview ∧ r.phase ≠ .release) ∧
      (((State.start db rules reading write).run events).watcher.isDone = true → ∀ r ∈ db.releases,
        r.key ∈ ((State.start db rules reading write).run events).db.releases.map Release.key ∨
          r.key ∈ ((State.start db rules reading write).run events).deleted ∨
            r.key ∈ ((State.start db rules reading write).run events).uncatalogued) := by
  have h : Inv (db.releases.map Release.key) ((State.start db rules reading write).run events) :=
    (Inv.start fun key hkey => hkey).run hsound
  constructor
  · intro r hr
    rcases h.wiped r hr with hphase | hphase <;> rw [hphase] <;> decide
  · intro hdone r hr
    rcases h.kept r.key (List.mem_map_of_mem hr) with hpresent | hdeleted | huncatalogued | ⟨-, -, hleft⟩
    · exact .inl hpresent
    · exact .inr (.inl hdeleted)
    · exact .inr (.inr huncatalogued)
    · cases hwatcher : ((State.start db rules reading write).run events).watcher with
      | done | archiving | reading =>
        rw [hwatcher] at hleft
        cases hleft
      | superseding | notifying | cataloguing =>
        rw [hwatcher] at hdone
        cases hdone

/-! ### A draft whose source is published elsewhere -/

/-- The project foo with the vote on 1.0 under way. -/
def fooVoting : Db where
  projects := [⟨"foo".toList, some "foo".toList⟩]
  releases := [⟨"foo".toList, "1.0".toList, .releaseCandidate, false, none⟩]
  artifacts := []
  projects_nodup := List.nodup_singleton _
  releases_nodup := List.nodup_singleton _

/-- The source of 1.0 is added. -/
def addedBeside : Changed := OrdDict.empty.set "release/foo/foo-1.0-src.tar.gz".toList ['A']

/-- The state before the commit is resolved that adds the source of 1.0. -/
def fooStart : State := .start fooVoting emptyRules (readCommit emptyRules (fun _ => none) addedBeside) true

/-- The draft is wiped, and its release is catalogued. -/
def wipeAndCatalogue : List Event :=
  [.resolve, .supersede (.commits true), .supersede (.commits true), .catalogue false]

theorem supersession_spares_foo :
    (∀ r ∈ (fooStart.run wipeAndCatalogue).wiped, r.phase ≠ .releasePreview ∧ r.phase ≠ .release) ∧
      ((fooStart.run wipeAndCatalogue).watcher.isDone = true → ∀ r ∈ fooVoting.releases,
        r.key ∈ (fooStart.run wipeAndCatalogue).db.releases.map Release.key ∨
          r.key ∈ (fooStart.run wipeAndCatalogue).deleted ∨
            r.key ∈ (fooStart.run wipeAndCatalogue).uncatalogued) := by
  have hwipe : Wipe.commits true ≠ .commits false := by decide
  refine supersession_spares ⟨?_, hwipe, hwipe, trivial, trivial⟩
  intro rules reading write resolution hwatcher hok
  cases hwatcher
  have hkeys : ((resolveChanges emptyRules fooVoting (readCommit emptyRules (fun _ => none) addedBeside)).toOption.map
      fun resolution => resolution.supersessions.map SupersededDraft.key) = some ["foo-1.0".toList] := by decide +kernel
  obtain ⟨resolution', hok', heq⟩ := Option.map_eq_some_iff.1 hkeys
  obtain rfl := Except.ok.inj (hok.symm.trans (toOption_eq_some.1 hok'))
  rw [heq]
  exact List.nodup_singleton _

/-- A release that passes its vote in the meantime is wiped, and one whose directories cannot be removed is gone. -/
theorem supersession_wipes_preview :
    (fooStart.run [.resolve, .resolveVote "foo-1.0".toList true, .supersede (.commits true)]).wiped.map Release.phase =
        [.releasePreview] ∧
      (let s := fooStart.run [.resolve, .supersede (.commits false), .supersede .raises, .catalogue false,
        .catalogue false, .archive false]
      s.watcher.isDone = true ∧ s.db.releases = [] ∧ s.deleted = [] ∧ s.uncatalogued = []) := by
  exact ⟨by decide +kernel, by decide +kernel⟩

end Dist

end TrustedReleases
