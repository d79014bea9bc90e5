import TrustedReleases.Ssh.Command

/-!
# What is executed for a client

Of the words of a client only groups of short options and three fixed long ones reach the command that is executed: the
paths are the server's, and for an upload the limits are added (`handleSafely_executes`).  Whoever has it executed has the
permission for the release of the path.
-/

namespace TrustedReleases

open Lib Catalogue

namespace Ssh

/-! ### The shape of a command -/

/-- The words of a command that is accepted. -/
structure Shape where
  sender : Bool
  shorts : List Str
  dirs : Bool
  delete : Bool
  path : Str

/-- The words before the paths. -/
def Shape.options (c : Shape) : List Str :=
  ["rsync".toList, "--server".toList] ++ (if c.sender then ["--sender".toList] else []) ++ c.shorts ++
    (if c.dirs then ["--dirs".toList] else []) ++ if c.delete then ["--delete".toList] else []

def Shape.argv (c : Shape) : List Str := c.options ++ [".".toList, c.path]

/-- The groups have the flags that there must be, and a download deletes nothing. -/
structure Shape.Valid (c : Shape) : Prop where
  shorts : ∀ arg ∈ c.shorts, isShort arg = true
  flags : (c.shorts.flatMap flagsOf).toFinset.erase 'd' = FLAGS
  delete : c.sender = true → c.delete = false

private theorem skip_eq (word : Str) (argv : List Str) :
    ∃ found : Bool, argv = (if found then [word] else []) ++ skip word argv := by
  unfold skip
  split
  next h =>
    refine ⟨true, ?_⟩
    rw [if_pos rfl, ← h, List.take_append_drop]
  next => exact ⟨false, rfl⟩

private theorem commandSimpleValidate_shape {argv : List Str} {isRead : Bool}
    (h : commandSimpleValidate argv = .ok isRead) :
    ∃ c : Shape, c.Valid ∧ c.sender = isRead ∧ argv = c.argv := by
  unfold commandSimpleValidate at h
  rw [raiseIf_bind_eq_ok, ne_eq, not_not] at h
  obtain ⟨hhead, h⟩ := h
  dsimp only at h
  obtain ⟨argv₁, rfl⟩ : ∃ argv₁, argv = ["rsync".toList, "--server".toList] ++ argv₁ :=
    ⟨argv.drop 2, by rw [← hhead, List.take_append_drop]⟩
  have hdrop : (["rsync".toList, "--server".toList] ++ argv₁).drop 2 = argv₁ := rfl
  rw [hdrop] at h
  -- the words after an optional --sender
  obtain ⟨sender, argv₂, hsender, hsplit, hrest⟩ : ∃ (sender : Bool) (argv₂ : List Str),
      decide (argv₁.take 1 = ["--sender".toList]) = sender ∧
      argv₁ = (if sender then ["--sender".toList] else []) ++ argv₂ ∧
      (if sender then argv₁.drop 1 else argv₁) = argv₂ := by
    by_cases hs : argv₁.take 1 = ["--sender".toList]
    · refine ⟨true, argv₁.drop 1, decide_eq_true hs, ?_, rfl⟩
      rw [if_pos rfl, ← hs, List.take_append_drop]
    · exact ⟨false, argv₁, decide_eq_false hs, rfl, rfl⟩
  rw [hsender, hrest, raiseIf_bind_eq_ok, ne_eq, not_not] at h
  obtain ⟨hflags, h⟩ := h
  obtain ⟨dirs, hdirs⟩ := skip_eq "--dirs".toList (shortArgs argv₂).2
  obtain ⟨delete, hdelete, hallowed⟩ : ∃ delete : Bool,
      skip "--dirs".toList (shortArgs argv₂).2 = (if delete then ["--delete".toList] else []) ++
        (if sender then skip "--dirs".toList (shortArgs argv₂).2
          else skip "--delete".toList (skip "--dirs".toList (shortArgs argv₂).2)) ∧ (sender = true → delete = false) := by
    cases sender with
    | true => exact ⟨false, rfl, fun _ => rfl⟩
    | false =>
      obtain ⟨delete, hdelete⟩ := skip_eq "--delete".toList (skip "--dirs".toList (shortArgs argv₂).2)
      exact ⟨delete, hdelete, fun hs => absurd hs (by simp)⟩
  rw [raiseIf_bind_eq_ok, raiseIf_bind_eq_ok, ne_eq, ne_eq, not_not, not_not] at h
  obtain ⟨hlength, hdot, h⟩ := h
  obtain ⟨path, hpath⟩ : ∃ path, (if sender then skip "--dirs".toList (shortArgs argv₂).2
      else skip "--delete".toList (skip "--dirs".toList (shortArgs argv₂).2)) = [".".toList, path] := by
    revert hlength hdot
    generalize (if sender then skip "--dirs".toList (shortArgs argv₂).2
      else skip "--delete".toList (skip "--dirs".toList (shortArgs argv₂).2)) = rest
    intro hlength hdot
    obtain ⟨first, path, rfl⟩ := List.length_eq_two.1 hlength
    exact ⟨path, by rw [show first = ".".toList from List.head_eq_of_cons_eq hdot]⟩
  have hshorts : argv₂ = (shortArgs argv₂).1 ++ (shortArgs argv₂).2 := (List.takeWhile_append_dropWhile).symm
  refine ⟨⟨sender, (shortArgs argv₂).1, dirs, delete, path⟩, ⟨?_, hflags, hallowed⟩, ?_, ?_⟩
  · exact fun arg harg => List.mem_takeWhile_imp harg
  · exact Except.ok.inj h
  · rw [hsplit]
    conv_lhs => rw [hshorts, hdirs, hdelete, hpath]
    simp only [Shape.argv, Shape.options, List.append_assoc]

private theorem Shape.readArgv_eq (c : Shape) (sourceDir : Str) (files : Option (List Str)) :
    readArgv c.argv sourceDir files = c.options ++ ".".toList ::
      (files.getD [if "/".toList <:+ sourceDir then sourceDir else sourceDir ++ "/".toList]) := by
  have hlast : c.argv.dropLast = c.options ++ [".".toList] := by
    rw [Shape.argv, List.dropLast_append_of_ne_nil (by simp)]
    rfl
  cases files with
  | none => simp [readArgv, hlast]
  | some files => simp [readArgv, hlast]

private theorem Shape.buildRsyncWriteArgv_eq (c : Shape) :
    buildRsyncWriteArgv c.argv = .ok (c.options ++ [MAX_SIZE, "--info=skip2".toList, ".".toList, ".".toList]) := by
  have hlength : c.argv.length = c.options.length + 2 := by rw [Shape.argv, List.length_append]; rfl
  have hdot : c.argv.dropLast.getLast? = some ".".toList := by
    rw [Shape.argv, List.dropLast_append_of_ne_nil (by simp)]
    simp
  have htake : c.argv.take (c.argv.length - 2) = c.options := by
    rw [hlength, Nat.add_sub_cancel, Shape.argv, List.take_left]
  unfold buildRsyncWriteArgv
  rw [(raiseIf_eq_ok (u := ())).2, ok_bind, htake]
  · rfl
  · rw [hdot, not_or]
    exact ⟨by omega, fun h => h rfl⟩

/-! ### Paths -/

/-- The path of a version of a project, or of a tag of it. -/
def pathText (project version : Str) (tag : Option Str) : Str :=
  '/' :: (project ++ '/' :: (version ++ (tag.elim [] fun tag => '/' :: tag) ++ ['/']))

private theorem slash_prefix_iff {c : Char} {s : Str} : "/".toList <+: c :: s ↔ c = '/' := by
  have hslash : "/".toList = ['/'] := by decide
  rw [hslash, List.cons_prefix_cons]
  simp [eq_comm]

private theorem cut_slash_eq_some {s first rest : Str} (h : cut "/".toList s = some (first, rest)) :
    s = first ++ '/' :: rest ∧ '/' ∉ first := by
  induction s generalizing first with
  | nil => exact absurd h (by simp [cut])
  | cons c s ih =>
    rw [cut] at h
    split at h
    next hc =>
      obtain rfl := slash_prefix_iff.1 hc
      obtain ⟨rfl, rfl⟩ := Prod.mk.inj (Option.some.inj h)
      exact ⟨rfl, List.not_mem_nil⟩
    next hc =>
      obtain ⟨⟨first', rest'⟩, hcut, heq⟩ := Option.map_eq_some_iff.1 h
      obtain ⟨rfl, rfl⟩ := Prod.mk.inj heq
      obtain ⟨rfl, hfirst⟩ := ih hcut
      refine ⟨rfl, ?_⟩
      have hne : '/' ≠ c := fun heq => hc (slash_prefix_iff.2 heq.symm)
      simp [hne, hfirst]

private theorem cut_slash_eq_none {s : Str} (h : cut "/".toList s = none) : '/' ∉ s := by
  induction s with
  | nil => exact List.not_mem_nil
  | cons c s ih =>
    rw [cut] at h
    split at h
    · exact absurd h (by simp)
    next hc =>
      have hne : '/' ≠ c := fun heq => hc (slash_prefix_iff.2 heq.symm)
      have hrest := ih (Option.map_eq_none_iff.1 h)
      simp [hne, hrest]

/-- What a path that `_validate_path_common` takes is between its first and its last slash. -/
private theorem validatePathCommon_eq_ok {path : Str} (h : validatePathCommon path = .ok ())
    (hlength : 2 ≤ path.length) :
    ∃ mid, path = '/' :: (mid ++ ['/']) ∧ stripBy (· = '/') path = mid := by
  unfold validatePathCommon at h
  rw [raiseIf_bind_eq_ok, raiseIf_bind_eq_ok, raiseIf_eq_ok, not_not, not_not] at h
  obtain ⟨hfirst, hlast, hdouble⟩ := h
  obtain ⟨rest, rfl⟩ := hfirst
  have hslash : "/".toList = ['/'] := by decide
  have hdoubled : "//".toList = ['/', '/'] := by decide
  rw [hslash] at hlast hlength ⊢
  rw [hslash, hdoubled] at hdouble
  obtain ⟨mid, hmid⟩ : ∃ mid, rest = mid ++ ['/'] := by
    obtain ⟨start, hstart⟩ := hlast
    cases start with
    | nil =>
      have hrest : rest = [] := (List.tail_eq_of_cons_eq hstart).symm
      rw [hrest] at hlength
      exact absurd hlength (by decide)
    | cons c start => exact ⟨start, (List.tail_eq_of_cons_eq hstart).symm⟩
  subst hmid
  have hne : mid ≠ [] := by
    rintro rfl
    exact hdouble ⟨[], [], rfl⟩
  have hhead : ∀ c t, mid = c :: t → c ≠ '/' := by
    rintro c t rfl rfl
    exact hdouble ⟨[], t ++ ['/'], rfl⟩
  have hend : ∀ t c, mid = t ++ [c] → c ≠ '/' := by
    rintro t c rfl rfl
    exact hdouble ⟨'/' :: t, [], by simp⟩
  refine ⟨mid, rfl, ?_⟩
  obtain ⟨c, t, hcons⟩ := List.exists_cons_of_ne_nil hne
  obtain ⟨t', c', hsnoc⟩ : ∃ t' c', mid = t' ++ [c'] := ⟨_, _, (List.dropLast_append_getLast hne).symm⟩
  have hfront : (['/'] ++ (mid ++ ['/'])).dropWhile (· = '/') = mid ++ ['/'] := by
    rw [List.singleton_append, List.dropWhile_cons_of_pos (by simp)]
    conv_lhs => rw [hcons, List.cons_append]
    rw [List.dropWhile_cons_of_neg (by simp [hhead c t hcons]), hcons, List.cons_append]
  have hback : (mid ++ ['/']).reverse.dropWhile (· = '/') = mid.reverse := by
    rw [List.reverse_append, List.reverse_singleton, List.singleton_append, List.dropWhile_cons_of_pos (by simp)]
    conv_lhs => rw [hsnoc, List.reverse_append, List.reverse_singleton, List.singleton_append]
    rw [List.dropWhile_cons_of_neg (by simp [hend t' c' hsnoc]), hsnoc, List.reverse_append, List.reverse_singleton,
      List.singleton_append]
  rw [stripBy, hfront, hback, List.reverse_reverse]

/-- The parts of a path make up the path. -/
private theorem pathParts_eq {path : Str} (h : validatePathCommon path = .ok ()) (hcount : 3 ≤ path.count '/') :
    ∃ project version tag, pathParts path = (project, version, tag) ∧ path = pathText project version tag ∧
      (path.count '/' = 3 → tag = none) := by
  have hlength : 2 ≤ path.length := (by omega : 2 ≤ path.count '/').trans List.count_le_length
  obtain ⟨mid, rfl, hstrip⟩ := validatePathCommon_eq_ok h hlength
  have hmid : ('/' :: (mid ++ ['/'])).count '/' = mid.count '/' + 2 := by simp
  rw [hmid] at hcount ⊢
  unfold pathParts
  rw [hstrip]
  cases hcut : cut "/".toList mid with
  | none =>
    have hnone := List.count_eq_zero.2 (cut_slash_eq_none hcut)
    omega
  | some parts =>
    obtain ⟨project, rest⟩ := parts
    obtain ⟨rfl, hproject⟩ := cut_slash_eq_some hcut
    cases hcut' : cut "/".toList rest with
    | none =>
      refine ⟨project, rest, none, ?_, by simp [pathText], fun _ => rfl⟩
      dsimp only
      rw [hcut']
    | some parts' =>
      obtain ⟨version, tag⟩ := parts'
      obtain ⟨rfl, hversion⟩ := cut_slash_eq_some hcut'
      refine ⟨project, version, some tag, ?_, by simp [pathText], fun heq => ?_⟩
      · dsimp only
        rw [hcut']
      · simp only [List.count_append, List.count_cons_self] at heq
        omega

private theorem keyOf_eq_ok {s : Str} {p : ProjectKey} (h : projectKeyOf s = .ok p) : s = p.1 := by
  unfold projectKeyOf at h
  split at h
  · rw [← Except.ok.inj h]
  · exact absurd h (by simp)

private theorem versionKeyOf_eq_ok {s : Str} {v : VersionKey} (h : versionKeyOf s = .ok v) : s = v.1 := by
  unfold versionKeyOf at h
  split at h
  · rw [← Except.ok.inj h]
  · exact absurd h (by simp)

private theorem commandPathValidateRead_eq_ok {path : Str} {p : ProjectKey} {v : VersionKey} {tag : Option Str}
    (h : commandPathValidateRead path = .ok (p, v, tag)) : path = pathText p.1 v.1 tag := by
  unfold commandPathValidateRead at h
  obtain ⟨_, hcommon, h⟩ := bind_eq_ok h
  rw [raiseIf_bind_eq_ok, not_or, Nat.not_lt] at h
  obtain ⟨⟨hcount, -⟩, h⟩ := h
  obtain ⟨project, version, tag', hparts, hpath, -⟩ := pathParts_eq hcommon hcount
  rw [hparts] at h
  obtain ⟨p', hp, h⟩ := bind_eq_ok h
  obtain ⟨v', hv, h⟩ := bind_eq_ok h
  obtain ⟨_, -, h⟩ := bind_eq_ok h
  obtain ⟨rfl, hrest⟩ := Prod.mk.inj (Except.ok.inj h)
  obtain ⟨rfl, rfl⟩ := Prod.mk.inj hrest
  rw [hpath, keyOf_eq_ok hp, versionKeyOf_eq_ok hv]

private theorem commandPathValidateWrite_eq_ok {path : Str} {p : ProjectKey} {v : VersionKey} {tag : Option Str}
    (h : commandPathValidateWrite path = .ok (p, v, tag)) : path = pathText p.1 v.1 none := by
  unfold commandPathValidateWrite at h
  obtain ⟨_, hcommon, h⟩ := bind_eq_ok h
  rw [raiseIf_bind_eq_ok, ne_eq, not_not] at h
  obtain ⟨hcount, h⟩ := h
  obtain ⟨project, version, tag', hparts, hpath, htag⟩ := pathParts_eq hcommon hcount.ge
  obtain rfl := htag hcount
  rw [hparts] at h
  obtain ⟨p', hp, h⟩ := bind_eq_ok h
  obtain ⟨v', hv, h⟩ := bind_eq_ok h
  obtain ⟨rfl, hrest⟩ := Prod.mk.inj (Except.ok.inj h)
  obtain ⟨rfl, -⟩ := Prod.mk.inj hrest
  rw [hpath, keyOf_eq_ok hp, versionKeyOf_eq_ok hv]

/-! ### Permissions -/

/-- The user may download the release: it has not been released yet, and under an embargo it is for the members of the
committee and administrators, and by a workflow for downloads only once it is a preview. -/
structure MayRead (req : Request) (project : Project) (r : Release) : Prop where
  phase : r.phase ≠ .release
  embargoed : r.isEmbargoed = true →
    (req.isAdmin req.asfUid = true ∨ isCommitteeMember project.committee req.asfUid = true) ∧
      (req.githubReadOnly = true → r.phase = .releasePreview)
  open_ : r.isEmbargoed = false → isCommitter project.committee req.asfUid = true

/-- The user may upload: to start a release as a member of the committee, to a draft as a committer. -/
structure MayWrite (req : Request) (project : Project) (release : Option Release) : Prop where
  not_readOnly : req.githubReadOnly = false
  start : release = none → isCommitteeMember project.committee req.asfUid = true
  draft : ∀ r, release = some r → r.phase = .releaseCandidateDraft ∧ isCommitter project.committee req.asfUid = true

/-- The patterns are those of a tag of the release, and do not lead out of its directory. -/
def TagPatterns (r : Release) (tag : Option Str) (patterns : List Str) : Prop :=
  ∃ name mappings, tag = some name ∧ r.fileTagMappings = some mappings ∧ (name, patterns) ∈ mappings ∧
    isMisconfigured patterns = false

private theorem validateReadPermissions_eq_ok {req : Request} {project : Project} {release : Option Release}
    {releaseKey : Str}
    {tag : Option Str} {r : Release} {patterns : Option (List Str)}
    (h : validateReadPermissions req project release releaseKey tag = .ok (r, patterns)) :
    release = some r ∧ MayRead req project r ∧ ∀ ps, patterns = some ps → TagPatterns r tag ps := by
  unfold validateReadPermissions at h
  obtain ⟨r', hrelease, h⟩ := demand_bind_eq_ok.1 h
  obtain ⟨hphase, h⟩ := raiseIf_bind_eq_ok.1 h
  obtain ⟨hpreview, h⟩ := raiseIf_bind_eq_ok.1 h
  dsimp only at h
  obtain ⟨hallowed, h⟩ := raiseIf_bind_eq_ok.1 h
  have hmay : MayRead req project r' := by
    refine ⟨hphase, fun hembargo => ⟨?_, fun hreadOnly => ?_⟩, fun hopen => ?_⟩
    · rw [if_pos hembargo] at hallowed
      simp only [embargoDenies, hembargo, Bool.true_and, Bool.not_not, Bool.not_eq_false, Bool.or_eq_true] at hallowed
      exact hallowed
    · by_contra hne
      exact hpreview ⟨hreadOnly, hembargo, hne⟩
    · simpa [hopen] using hallowed
  split at h
  next =>
    obtain ⟨rfl, rfl⟩ := Prod.mk.inj (Except.ok.inj h)
    exact ⟨hrelease, hmay, fun ps hps => absurd hps (by simp)⟩
  next name htag =>
    obtain ⟨mappings, hmappings, h⟩ := demand_bind_eq_ok.1 h
    obtain ⟨ps, hps, h⟩ := demand_bind_eq_ok.1 h
    obtain ⟨hmisconfigured, h⟩ := raiseIf_bind_eq_ok.1 h
    obtain ⟨rfl, rfl⟩ := Prod.mk.inj (Except.ok.inj h)
    obtain ⟨entry, hentry, rfl⟩ := Option.map_eq_some_iff.1 hps
    have hname : entry.1 = name := by simpa using List.find?_some hentry
    refine ⟨hrelease, hmay, fun ps' hps' => ?_⟩
    obtain rfl := Option.some.inj hps'
    refine ⟨name, mappings, (Option.filter_eq_some_iff.1 htag).1, (Option.filter_eq_some_iff.1 hmappings).1, ?_,
      by simpa using hmisconfigured⟩
    rw [← hname]
    exact List.mem_of_find?_eq_some hentry

private theorem validateWritePermissions_eq_ok {req : Request} {project : Project} {release : Option Release}
    (hreadOnly : req.githubReadOnly = false) (h : validateWritePermissions req project release = .ok ()) :
    MayWrite req project release := by
  cases release with
  | none =>
    have hmember := raiseIf_eq_ok.1 h
    refine ⟨hreadOnly, fun _ => by simpa using hmember, fun r hr => absurd hr (by simp)⟩
  | some r =>
    obtain ⟨hphase, h⟩ := raiseIf_bind_eq_ok.1 h
    have hcommitter := raiseIf_eq_ok.1 h
    refine ⟨hreadOnly, fun hr => absurd hr (by simp), fun r' hr' => ?_⟩
    obtain rfl := Option.some.inj hr'
    exact ⟨not_not.1 hphase, by simpa using hcommitter⟩

/-! ### Results -/

section Results

variable {req : Request} {releaseDirectory : Release → Option Str} {glob : Str → List Str}

/-- An execution is of the options of a command and of the server's own paths, for a user who has the permission; a
workflow key is for its project only. -/
def Permitted (req : Request) (releaseDirectory : Release → Option Str) (glob : Str → List Str) (c : Shape) :
    Execution → Prop
  | .read p v r argv =>
    c.sender = true ∧ (∀ key, req.githubProjectKey = some key → p = key) ∧
      (∃ project, req.project p = some project ∧ MayRead req project r) ∧ req.release p v = some r ∧
      ∃ tag sourceDir, c.path = pathText p.1 v.1 tag ∧ releaseDirectory r = some sourceDir ∧
        ∃ paths, argv = c.options ++ ".".toList :: paths ∧
          (paths = [if "/".toList <:+ sourceDir then sourceDir else sourceDir ++ "/".toList] ∨
            ∃ patterns, TagPatterns r tag patterns ∧ paths = globFiles glob sourceDir patterns)
  | .write p v argv =>
    c.sender = false ∧ (∀ key, req.githubProjectKey = some key → p = key) ∧
      (∃ project, req.project p = some project ∧ MayWrite req project (req.release p v)) ∧
      c.path = pathText p.1 v.1 none ∧
      argv = c.options ++ [MAX_SIZE, "--info=skip2".toList, ".".toList, ".".toList]

/-- What has been validated of the path and the permissions. -/
private theorem commandValidate_eq_ok {c : Shape} {v : Validated} (h : commandValidate req c.argv c.sender = .ok v) :
    (∀ key, req.githubProjectKey = some key → v.projectKey = key) ∧
      ∃ project, req.project v.projectKey = some project ∧
        ((c.sender = true ∧ ∃ r tag, v.release = some r ∧ req.release v.projectKey v.versionKey = some r ∧
            MayRead req project r ∧ c.path = pathText v.projectKey.1 v.versionKey.1 tag ∧
            ∀ ps, v.filePatterns = some ps → TagPatterns r tag ps) ∨
          (c.sender = false ∧ v.release = none ∧ MayWrite req project (req.release v.projectKey v.versionKey) ∧
            c.path = pathText v.projectKey.1 v.versionKey.1 none)) := by
  have hlast : c.argv.getLast?.getD [] = c.path := by
    rw [Shape.argv]
    simp
  unfold commandValidate at h
  dsimp only at h
  rw [hlast] at h
  obtain ⟨⟨p, version, tag⟩, hpath, h⟩ := bind_eq_ok h
  dsimp only at h
  obtain ⟨_, hworkflow, h⟩ := bind_eq_ok h
  obtain ⟨hreadOnly, h⟩ := raiseIf_bind_eq_ok.1 h
  obtain ⟨project, hproject, h⟩ := demand_bind_eq_ok.1 h
  have hkey : ∀ key, req.githubProjectKey = some key → p = key := by
    intro key hkey
    rw [checkWorkflowProject, hkey] at hworkflow
    exact not_not.1 (raiseIf_eq_ok.1 hworkflow)
  cases hsender : c.sender with
  | true =>
    rw [hsender] at hpath h
    rw [if_pos rfl] at h
    obtain ⟨⟨r, patterns⟩, hread, h⟩ := bind_eq_ok h
    obtain rfl := Except.ok.inj h
    obtain ⟨hrelease, hmay, htag⟩ := validateReadPermissions_eq_ok hread
    exact ⟨hkey, project, hproject, .inl ⟨rfl, r, tag, rfl, hrelease, hmay, commandPathValidateRead_eq_ok hpath, htag⟩⟩
  | false =>
    rw [hsender] at hpath h
    rw [if_neg Bool.false_ne_true] at h
    obtain ⟨_, hwrite, h⟩ := bind_eq_ok h
    obtain rfl := Except.ok.inj h
    have hreadOnly' : req.githubReadOnly = false := by simpa [hsender] using hreadOnly
    exact ⟨hkey, project, hproject,
      .inr ⟨rfl, rfl, validateWritePermissions_eq_ok hreadOnly' hwrite, commandPathValidateWrite_eq_ok hpath⟩⟩

/-- Whatever the text of a command, what is executed for it has only groups of short options of the client, of which the
flags are fixed, and the words `--sender`, `--dirs` and `--delete`; the paths are the server's own, for the release that
the client's path names and for which the user of the connection, whose account is active, has the permission. -/
theorem handleSafely_executes {command : Str} {e : Execution}
    (h : handleSafely req releaseDirectory glob command = .ok e) :
    req.isActive req.asfUid = true ∧
      ∃ c : Shape, c.Valid ∧ words command = c.argv ∧ Permitted req releaseDirectory glob c e := by
  unfold handleSafely at h
  obtain ⟨hactive, h⟩ := raiseIf_bind_eq_ok.1 h
  obtain ⟨-, h⟩ := raiseIf_bind_eq_ok.1 h
  dsimp only at h
  obtain ⟨isRead, hshape, h⟩ := bind_eq_ok h
  obtain ⟨c, hvalid, rfl, hwords⟩ := commandSimpleValidate_shape hshape
  obtain ⟨v, hvalidate, h⟩ := bind_eq_ok h
  rw [hwords] at hvalidate h
  obtain ⟨hkey, project, hproject, hcase⟩ := commandValidate_eq_ok hvalidate
  refine ⟨by simpa using hactive, c, hvalid, hwords, ?_⟩
  rcases hcase with ⟨hsender, r, tag, hr, hrelease, hmay, hpath, hpatterns⟩ | ⟨hsender, hr, hmay, hpath⟩
  · rw [hr] at h
    obtain ⟨sourceDir, hdir, h⟩ := demand_bind_eq_ok.1 h
    obtain ⟨-, h⟩ := raiseIf_bind_eq_ok.1 h
    obtain rfl := Except.ok.inj h
    refine ⟨hsender, hkey, ⟨project, hproject, hmay⟩, hrelease, tag, sourceDir, hpath, hdir, _,
      c.readArgv_eq sourceDir _, ?_⟩
    cases hfiles : v.filePatterns with
    | none => exact .inl rfl
    | some patterns => exact .inr ⟨patterns, hpatterns patterns hfiles, rfl⟩
  · rw [hr] at h
    dsimp only at h
    rw [c.buildRsyncWriteArgv_eq, ok_bind] at h
    obtain rfl := Except.ok.inj h
    exact ⟨hsender, hkey, ⟨project, hproject, hmay⟩, hpath, rfl⟩

/-- A member of the committee of a project without releases. -/
def memberRequest : Request where
  asfUid := "u".toList
  githubProjectKey := none
  githubReadOnly := false
  isActive := fun _ => true
  isAdmin := fun _ => false
  project := fun _ => some ⟨"p".toList, some ⟨["u".toList], ["u".toList]⟩⟩
  release := fun _ _ => none

theorem handleSafely_executes_upload : ∃ e c,
    handleSafely memberRequest (fun _ => none) (fun _ => []) "rsync --server -vlogDtpre.iLsfxCIvu . /p/1.0/".toList =
        .ok e ∧
      c.argv = words "rsync --server -vlogDtpre.iLsfxCIvu . /p/1.0/".toList ∧
      Permitted memberRequest (fun _ => none) (fun _ => []) c e := by
  have hok : (handleSafely memberRequest (fun _ => none) (fun _ => [])
      "rsync --server -vlogDtpre.iLsfxCIvu . /p/1.0/".toList).toBool = true := by decide +kernel
  cases h : handleSafely memberRequest (fun _ => none) (fun _ => [])
      "rsync --server -vlogDtpre.iLsfxCIvu . /p/1.0/".toList with
  | error e =>
    rw [h] at hok
    exact absurd hok Bool.false_ne_true
  | ok e =>
    obtain ⟨-, c, -, hwords, hpermitted⟩ := handleSafely_executes h
    exact ⟨e, c, rfl, hwords.symm, hpermitted⟩

end Results

end Ssh

end TrustedReleases
