import TrustedReleases.Dist.Resolve

/-!
# Drafts that a publication overtakes

The watcher resolves a commit in a session of its own and applies it later (`_apply_changes`): it wipes the drafts that
the commit overtakes, each with a notification in a second transaction, and then catalogues and archives releases, one
transaction each.  Between any two of these the release managers go on: they start and resolve votes, announce, delete
and create releases.  A transaction can raise before it commits, and where a wipe commits, the removal of the
directories can still fail.
-/

namespace TrustedReleases

open Lib

namespace Dist

/-! ### Transactions -/

/-- `UPDATE release SET … WHERE key = … AND phase = …`, which leaves the key as it is. -/
def Db.update (db : Db) (key : Str) (phase : ReleasePhase) (f : Release → Release) (hf : ∀ r, (f r).key = r.key) : Db :=
  { db with
    releases := db.releases.map fun r => if r.key = key ∧ r.phase = phase then f r else r
    releases_nodup := by
      have hkeys : (db.releases.map fun r => if r.key = key ∧ r.phase = phase then f r else r).map Release.key =
          db.releases.map Release.key := by
        rw [List.map_map]
        refine List.map_congr_left fun r _ => ?_
        simp only [Function.comp_apply]
        split
        · exact hf r
        · rfl
      rw [hkeys]
      exact db.releases_nodup }

/-- The row of a release is deleted. -/
def Db.delete (db : Db) (key : Str) : Db :=
  { db with
    releases := db.releases.filter fun r => decide (r.key ≠ key)
    releases_nodup := db.releases_nodup.sublist (List.filter_sublist.map _) }

/-- A row is added, unless there is one with its key. -/
def Db.insert (db : Db) (r : Release) : Option Db :=
  if h : r.key ∈ db.releases.map Release.key then none
  else
    some { db with
      releases := db.releases ++ [r]
      releases_nodup := by
        rw [List.map_append, List.nodup_append]
        refine ⟨db.releases_nodup, List.nodup_singleton _, fun a ha b hb => ?_⟩
        rintro rfl
        rw [List.map_singleton, List.mem_singleton] at hb
        rw [hb] at ha
        exact h ha }

/-- The release of a project and a version. -/
def Db.release (db : Db) (projectKey version : Str) : Option Release :=
  db.releases.find? fun r => decide (r.projectKey = projectKey ∧ r.version = version)

/-- The phase of a release is changed. -/
def Db.move (db : Db) (key : Str) (expected new : ReleasePhase) : Db :=
  db.update key expected (fun r => { r with phase := new }) fun _ => rfl

/-- A release is archived, or no more. -/
def Db.setArchived (db : Db) (key : Str) (isArchived : Bool) : Db :=
  db.update key .release (fun r => { r with isArchived := isArchived }) fun _ => rfl

/-- `catalogue_release`: the tables afterwards, or nothing where it raises or returns an error. -/
def catalogueRelease (db : Db) (projectKey version : Str) : Option Db :=
  match db.projects.find? fun p => decide (p.key = projectKey) with
  | none => none
  | some project =>
    match db.release project.key version with
    | some existing => some (if existing.isArchived then db.setArchived existing.key false else db)
    | none => db.insert ⟨project.key, version, .release, false, none⟩

/-- `release_archive` of the watcher, where an error leaves the tables as they are. -/
def releaseArchive (db : Db) (projectKey version : Str) : Db :=
  match db.release projectKey version with
  | none => db
  | some release => db.setArchived release.key true

/-! ### The watcher -/

def SupersededDraft.key (d : SupersededDraft) : Str := releaseKey d.projectKey d.versionKey

def ResolvedRelease.key (r : ResolvedRelease) : Str := releaseKey r.projectKey r.versionKey

/-- Where the watcher is with a commit. -/
inductive Watcher where
  /-- the commit is read and not yet resolved; whether the watcher writes -/
  | reading (rules : DistRules) (reading : Reading) (write : Bool)
  /-- the drafts that are left to be wiped -/
  | superseding (drafts : List SupersededDraft) (releases : List ResolvedRelease) (archives : List (Str × Str))
  /-- a draft is wiped, and its author is to be notified -/
  | notifying (key : Str) (drafts : List SupersededDraft) (releases : List ResolvedRelease)
    (archives : List (Str × Str))
  /-- the releases that are left to be catalogued -/
  | cataloguing (releases : List ResolvedRelease) (archives : List (Str × Str))
  /-- the releases that are left to be archived -/
  | archiving (archives : List (Str × Str))
  | done

/-- The tables and the watcher, with the keys that it failed to supersede.  What was wiped, as it was then, the keys that
others deleted and those that could not be catalogued are kept as the history. -/
structure State where
  db : Db
  watcher : Watcher
  failed : List Str
  wiped : List Release
  deleted : List Str
  uncatalogued : List Str

/-- How the transaction of a wipe ends: it raises before it commits, or it commits and the directories are removed or
not. -/
inductive Wipe where
  | raises
  | commits (removed : Bool)
  deriving DecidableEq

/-- What happens next. -/
inductive Event where
  /-- `_resolve_changes` -/
  | resolve
  /-- the transaction of `release_supersede_draft` that deletes the draft -/
  | supersede (wipe : Wipe)
  /-- its second transaction, which notifies the author -/
  | notify (raises : Bool)
  /-- `release_catalogue_release` -/
  | catalogue (raises : Bool)
  /-- `release_archive` -/
  | archive (raises : Bool)
  | startVote (key : Str)
  | resolveVote (key : Str) (passed : Bool)
  | announce (key : Str)
  | delete (key : Str)
  | create (projectKey version : Str) (author : Option Str)
  deriving DecidableEq

namespace State

def start (db : Db) (rules : DistRules) (reading : Reading) (write : Bool) : State :=
  ⟨db, .reading rules reading write, [], [], [], []⟩

/-- The resolution of the commit, which ends the watcher where it raises. -/
def resolve (s : State) : State :=
  match s.watcher with
  | .reading rules reading write =>
    match resolveChanges rules s.db reading with
    | .error _ => { s with watcher := .done }
    | .ok resolution =>
      if write then
        { s with watcher := .superseding resolution.supersessions resolution.releases resolution.archives }
      else { s with watcher := .done }
  | _ => s

/-- The next draft of `_apply_supersessions`. -/
def supersede (s : State) (wipe : Wipe) : State :=
  match s.watcher with
  | .superseding [] releases archives => { s with watcher := .cataloguing releases archives }
  | .superseding (draft :: drafts) releases archives =>
    let next := Watcher.superseding drafts releases archives
    match wipe, s.db.release draft.projectKey draft.versionKey with
    | .raises, _ => { s with watcher := next, failed := s.failed ++ [draft.key] }
    | .commits _, none => { s with watcher := next, failed := s.failed ++ [draft.key] }
    | .commits removed, some release =>
      { s with
        db := s.db.delete release.key
        wiped := s.wiped ++ [release]
        failed := if removed then s.failed else s.failed ++ [draft.key]
        watcher :=
          if removed = true ∧ draft.authorAsfUid.isSome then .notifying draft.key drafts releases archives else next }
  | _ => s

/-- The notification of the author of a draft that is wiped. -/
def notify (s : State) (raises : Bool) : State :=
  match s.watcher with
  | .notifying key drafts releases archives =>
    { s with
      watcher := .superseding drafts releases archives
      failed := if raises then s.failed ++ [key] else s.failed }
  | _ => s

/-- The next release of `_apply_changes`, which is passed over if its draft could not be wiped. -/
def catalogue (s : State) (raises : Bool) : State :=
  match s.watcher with
  | .cataloguing [] archives => { s with watcher := .archiving archives }
  | .cataloguing (r :: releases) archives =>
    let next := Watcher.cataloguing releases archives
    if r.key ∈ s.failed then { s with watcher := next }
    else
      match if raises then none else catalogueRelease s.db r.projectKey r.versionKey with
      | none => { s with watcher := next, uncatalogued := s.uncatalogued ++ [r.key] }
      | some db => { s with db := db, watcher := next }
  | _ => s

def archive (s : State) (raises : Bool) : State :=
  match s.watcher with
  | .archiving [] => { s with watcher := .done }
  | .archiving (a :: archives) =>
    { s with
      db := if raises then s.db else releaseArchive s.db a.1 a.2
      watcher := .archiving archives }
  | _ => s

/-- The state after an event, which changes nothing where it cannot happen. -/
def step (s : State) : Event → State
  | .resolve => s.resolve
  | .supersede wipe => s.supersede wipe
  | .notify raises => s.notify raises
  | .catalogue raises => s.catalogue raises
  | .archive raises => s.archive raises
  | .startVote key => { s with db := s.db.move key .releaseCandidateDraft .releaseCandidate }
  | .resolveVote key passed =>
    { s with db := s.db.move key .releaseCandidate (if passed then .releasePreview else .releaseCandidateDraft) }
  | .announce key => { s with db := s.db.move key .releasePreview .release }
  | .delete key =>
    if key ∈ s.db.releases.map Release.key then { s with db := s.db.delete key, deleted := s.deleted ++ [key] } else s
  | .create projectKey version author =>
    match s.db.insert ⟨projectKey, version, .releaseCandidateDraft, false, author⟩ with
    | none => s
    | some db => { s with db := db }

/-- The state after several events. -/
def run (s : State) (events : List Event) : State := events.foldl step s

end State

end Dist

end TrustedReleases
