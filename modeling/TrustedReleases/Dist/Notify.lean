import TrustedReleases.Dist.Resolve

/-!
# Notifications about a commit

Every release that a commit publishes outside of the system, and every release that it retires, is reported to the
releases list, and the committee is warned where the project has released through the system before.  The warning asks
for one managed artifact of the project where there may be many, and a removed file for one source artifact; a loop
that meets several of them ends there.
-/

namespace TrustedReleases

open Lib

namespace Dist

/-! ### Tables -/

structure ArtifactRow where
  projectKey : Str
  version : Str
  artifactPath : Str
  downloadPathSuffix : Option Str
  classification : Option FileType
  releaseKey : Option Str
  managed : Bool
  deriving DecidableEq

def ArtifactRow.artifact (row : ArtifactRow) : Artifact :=
  ⟨row.artifactPath, row.downloadPathSuffix, row.classification, row.releaseKey⟩

/-- The tables with the constraints of the schema: the primary keys, and the projects of the artifacts. -/
structure Tables where
  projects : List Project
  releases : List Release
  artifacts : List ArtifactRow
  projects_nodup : (projects.map Project.key).Nodup
  releases_nodup : (releases.map Release.key).Nodup
  artifacts_nodup : (artifacts.map fun a => (a.projectKey, a.version, a.artifactPath)).Nodup
  artifacts_project : ∀ a ∈ artifacts, ∃ p ∈ projects, p.key = a.projectKey

/-- The tables as far as the changes of a commit are resolved against them. -/
def Tables.db (t : Tables) : Db where
  projects := t.projects
  releases := t.releases
  artifacts := t.artifacts.map ArtifactRow.artifact
  projects_nodup := t.projects_nodup
  releases_nodup := t.releases_nodup

/-! ### Tasks -/

inductive Message where
  | releaseNotification (released : Nat) (supersededDraft : Bool)
  | releaseArchivalNotification (archived : Nat)
  | unmanagedReleaseWarning (released : Nat)
  deriving DecidableEq

/-- A message that is queued. -/
structure MessageTask where
  message : Message
  projectKey : Str
  versionKey : Str
  deriving DecidableEq

section

variable (t : Tables)

/-- The committee of a project, or what is wrong with the project. -/
def projectCommittee (projectKey : Str) : Except Str Str :=
  match t.projects.find? fun p => decide (p.key = projectKey) with
  | none => .error ("Project ".toList ++ projectKey ++ " not found".toList)
  | some project => demand project.committeeKey ("Project ".toList ++ projectKey ++ " has no committee".toList)

/-- Queue a message about a release of a project that has a committee. -/
def notifyCommittee (projectKey version : Str) (message : Message) : Option Str × List MessageTask :=
  match projectCommittee t projectKey with
  | .error error => (some error, [])
  | .ok _ => (none, [⟨message, projectKey, version⟩])

def notifySeen (projectKey version : Str) (released : Nat) (supersededDraft : Bool) : Option Str × List MessageTask :=
  notifyCommittee t projectKey version (.releaseNotification released supersededDraft)

def notifyArchived (projectKey version : Str) (archived : Nat) : Option Str × List MessageTask :=
  notifyCommittee t projectKey version (.releaseArchivalNotification archived)

/-- The artifacts of a project that came through the system. -/
def managedArtifacts (projectKey : Str) : List ArtifactRow :=
  t.artifacts.filter fun a => decide (a.projectKey = projectKey ∧ a.managed = true)

def warnUnmanaged (projectKey version : Str) (released : Nat) : Except DbError (Option Str × List MessageTask) :=
  match projectCommittee t projectKey with
  | .error error => .ok (some error, [])
  | .ok _ => do
    match ← scalarOneOrNone (managedArtifacts t projectKey) with
    | none => return (none, [])
    | some _ => return (none, [⟨.unmanagedReleaseWarning released, projectKey, version⟩])

/-- What is queued for a release that was seen, and the exception that ends the loop. -/
def notifyRelease (date : Nat) (supersededKeys : List Str) (r : ResolvedRelease) : List MessageTask × Option DbError :=
  let superseded := decide (releaseKey r.projectKey r.versionKey ∈ supersededKeys)
  let seen := (notifySeen t r.projectKey r.versionKey date superseded).2
  match warnUnmanaged t r.projectKey r.versionKey date with
  | .error e => (seen, some e)
  | .ok (_, warned) => (seen ++ warned, none)

def notifyReleases (date : Nat) (supersededKeys : List Str) : List ResolvedRelease → List MessageTask × Option DbError
  | [] => ([], none)
  | r :: releases =>
    match notifyRelease t date supersededKeys r with
    | (tasks, some e) => (tasks, some e)
    | (tasks, none) => (tasks ++ (notifyReleases date supersededKeys releases).1,
        (notifyReleases date supersededKeys releases).2)

/-- `_notify`: the tasks that it queues, one at a time, and the exception that it ends with. -/
def notify (releases : List ResolvedRelease) (archives : List (Str × Str)) (date : Nat) (supersededKeys : List Str) :
    List MessageTask × Option DbError :=
  match notifyReleases t date supersededKeys releases with
  | (tasks, some e) => (tasks, some e)
  | (tasks, none) => (tasks ++ archives.flatMap fun a => (notifyArchived t a.1 a.2 date).2, none)

end

/-! ### What is to be reported -/

def hasCommittee (t : Tables) (projectKey : Str) : Bool := (projectCommittee t projectKey).toOption.isSome

/-- The message is one to the releases list about a release that was seen. -/
def MessageTask.isSeen (projectKey version : Str) (task : MessageTask) : Bool :=
  decide (task.projectKey = projectKey ∧ task.versionKey = version) &&
    match task.message with
    | .releaseNotification _ _ => true
    | _ => false

/-- The message is one to the releases list about a release that was retired. -/
def MessageTask.isRetired (projectKey version : Str) (task : MessageTask) : Bool :=
  decide (task.projectKey = projectKey ∧ task.versionKey = version) &&
    match task.message with
    | .releaseArchivalNotification _ => true
    | _ => false

def MessageTask.isWarning (projectKey version : Str) (task : MessageTask) : Bool :=
  decide (task.projectKey = projectKey ∧ task.versionKey = version) &&
    match task.message with
    | .unmanagedReleaseWarning _ => true
    | _ => false

/-- Nothing was raised, and there is one message for each release that was seen and each that was retired if it has a
committee, and one warning for each release that was seen if its project holds a managed artifact. -/
def Reported (t : Tables) (releases : List ResolvedRelease) (archives : List (Str × Str))
    (outcome : List MessageTask × Option DbError) : Prop :=
  outcome.2 = none ∧ ∀ projectKey version,
    outcome.1.countP (·.isSeen projectKey version) = releases.countP (fun r =>
      decide (r.projectKey = projectKey ∧ r.versionKey = version) && hasCommittee t projectKey) ∧
    outcome.1.countP (·.isRetired projectKey version) = archives.countP (fun a =>
      decide (a.1 = projectKey ∧ a.2 = version) && hasCommittee t projectKey) ∧
    outcome.1.countP (·.isWarning projectKey version) = releases.countP (fun r =>
      decide (r.projectKey = projectKey ∧ r.versionKey = version) && !(managedArtifacts t projectKey).isEmpty)

end Dist

end TrustedReleases
