import TrustedReleases.Swhid.Tree

/-!
# What the identifier of a directory identifies

Two directories have one identifier when they hold the same files: at every path the same content with the same
executable bit, or the same link.  The converse holds up to the hash function: directories with one identifier hold the
same files, or among the objects hashed for them there are two with one digest (`directoryIdSync_iff`).
-/

namespace TrustedReleases

open Lib

namespace Swhid

/-- What is recorded at a path. -/
inductive Leaf where
  | link (target : Bytes)
  | file (executable : Bool) (content : Bytes)
  deriving DecidableEq

/-- A directory holds a file or a link at a path. -/
inductive Holds : Entries → List Bytes → Leaf → Prop where
  | link {entries : Entries} {name target : Bytes} (h : (name, Node.link target) ∈ entries) :
      Holds entries [name] (.link target)
  | file {entries : Entries} {name : Bytes} {mode : Nat} {content : Bytes}
      (h : (name, Node.file mode content) ∈ entries) : Holds entries [name] (.file (isExecutable mode) content)
  | inside {entries children : Entries} {name : Bytes} {path : List Bytes} {leaf : Leaf}
      (h : (name, Node.directory children) ∈ entries) (hinside : Holds children path leaf) :
      Holds entries (name :: path) leaf

/-- The names of a directory and of those in it are distinct, and are what the system call takes for names. -/
inductive WellFormed : Entries → Prop where
  | mk {entries : Entries} (hnames : ∀ e ∈ entries, e.1 ≠ [] ∧ nul ∉ e.1 ∧ slash ∉ e.1)
      (hnodup : (entries.map Prod.fst).Nodup)
      (hbelow : ∀ name children, (name, Node.directory children) ∈ entries → WellFormed children) :
      WellFormed entries

/-- A directory of a file system. -/
structure Directory where
  entries : Entries
  wellFormed : WellFormed entries

/-- Two directories hold the same files. -/
def Same (entries entries' : Entries) : Prop := ∀ path leaf, Holds entries path leaf ↔ Holds entries' path leaf

section Objects

variable (sha1 : Bytes → Digest)

def manifestObjects (entries : List Entry) : List Bytes :=
  if entries = [] then [] else [gitObject TREE (manifest entries)]

mutual

/-- The objects that `_tree_digest` hashes for an entry. -/
def Node.objects : Node → List Bytes
  | .link target => [gitObject BLOB target]
  | .directory entries => manifestObjects (scanEntries sha1 entries) ++ scanObjects entries
  | .file _ content => [gitObject BLOB content]
  | .other => []

def scanObjects : Entries → List Bytes
  | [] => []
  | (_, node) :: rest => node.objects ++ scanObjects rest

end

/-- The objects hashed for a directory: its own manifest, and those of what is below it. -/
def hashedObjects (entries : Entries) : List Bytes :=
  gitObject TREE (manifest (scanEntries sha1 entries)) :: scanObjects sha1 entries

/-- Two objects with one digest, of those hashed for two directories. -/
def Collision (entries entries' : Entries) : Prop :=
  ∃ x ∈ hashedObjects sha1 entries, ∃ y ∈ hashedObjects sha1 entries', x ≠ y ∧ sha1 x = sha1 y

end Objects

variable {sha1 : Bytes → Digest}

/-! ### Objects -/

private theorem decimal_nul (n : Nat) : nul ∉ decimal n := by
  intro h
  rw [decimal, ascii, List.mem_map] at h
  obtain ⟨c, hc, hval⟩ := h
  have hdigit : c.isDigit = true := Nat.isDigit_of_mem_toDigits (by decide) (by decide) hc
  have hbounds : 48 ≤ c.toNat ∧ c.toNat ≤ 57 := by
    simp only [Char.isDigit, Bool.and_eq_true, decide_eq_true_eq] at hdigit
    exact hdigit
  have hzero : c.toNat % 256 = 0 := congrArg Fin.val hval
  omega

private theorem gitObject_inj {kind kind' payload payload' : Bytes} (hkind : space ∉ kind) (hkind' : space ∉ kind')
    (h : gitObject kind payload = gitObject kind' payload') : kind = kind' ∧ payload = payload' := by
  obtain ⟨rfl, hrest⟩ := PrefixCode.terminated space _ _ _ _ hkind hkind' h
  obtain ⟨-, hpayload⟩ := PrefixCode.terminated nul _ _ _ _ (decimal_nul _) (decimal_nul _) hrest
  exact ⟨rfl, hpayload⟩

private theorem mode_text_inj {m m' : Mode} (h : m.text = m'.text) : m = m' := by
  cases m <;> cases m' <;> first | rfl | exact absurd h (by decide)

private theorem space_notMem_text (m : Mode) : space ∉ m.text := by cases m <;> decide

/-- Lines of a manifest are told apart, whatever follows them. -/
private theorem line_prefixCode : PrefixCode (fun e : Entry => nul ∉ e.name) Entry.line := by
  have hmode : PrefixCode (fun _ : Mode => True) fun m => m.text ++ [space] :=
    (PrefixCode.terminated space).comap (fun m _ => space_notMem_text m) fun _ _ _ _ => mode_text_inj
  have hdigest : PrefixCode (fun _ : Digest => True) fun d : Digest => d.1 :=
    (PrefixCode.fixed 20).comap (fun d _ => d.2) fun _ _ _ _ => Subtype.ext
  refine (hmode.pair ((PrefixCode.terminated nul).pair hdigest)).comap
    (f := fun e : Entry => (e.mode, e.name, e.digest)) (fun e he => ⟨trivial, he, trivial⟩) ?_
  intro e e' _ _ heq
  cases e
  cases e'
  simp only [Prod.mk.injEq] at heq
  obtain ⟨rfl, rfl, rfl⟩ := heq
  rfl

private theorem line_ne_nil (e : Entry) : e.line ≠ [] := by simp [Entry.line]

/-! ### Entries -/

/-- Induction over what is in a directory. -/
@[elab_as_elim]
theorem Node.induction {motive : Node → Prop} (link : ∀ target, motive (.link target))
    (directory : ∀ entries, (∀ e ∈ entries, motive e.2) → motive (.directory entries))
    (file : ∀ mode content, motive (.file mode content)) (other : motive .other) (node : Node) : motive node :=
  Node.rec (motive_1 := motive) (motive_2 := fun entries => ∀ e ∈ entries, motive e.2) (motive_3 := fun e => motive e.2)
    link directory file other (fun _ h => nomatch h)
    (fun _ _ hhead htail => List.forall_mem_cons.2 ⟨hhead, htail⟩) (fun _ _ h => h) node

/-- What is recorded of an entry. -/
private theorem entry_eq_some {node : Node} {mode : Mode} {digest : Digest} :
    node.entry sha1 = some (mode, digest) ↔
      (∃ target, node = .link target ∧ mode = .link ∧ digest = sha1 (gitObject BLOB target)) ∨
      (∃ children, node = .directory children ∧ mode = .dir ∧ scanEntries sha1 children ≠ [] ∧
        digest = sha1 (gitObject TREE (manifest (scanEntries sha1 children)))) ∨
      ∃ bits content, node = .file bits content ∧ mode = fileMode bits ∧ digest = sha1 (gitObject BLOB content) := by
  constructor
  · intro h
    cases node with
    | link target =>
      obtain ⟨rfl, rfl⟩ := Prod.mk.inj (Option.some.inj h)
      exact .inl ⟨target, rfl, rfl, rfl⟩
    | directory children =>
      rw [Node.entry, manifestDigest] at h
      split at h
      · exact absurd h (by simp)
      next hne =>
        obtain ⟨rfl, rfl⟩ := Prod.mk.inj (Option.some.inj h)
        exact .inr (.inl ⟨children, rfl, rfl, hne, rfl⟩)
    | file bits content =>
      obtain ⟨rfl, rfl⟩ := Prod.mk.inj (Option.some.inj h)
      exact .inr (.inr ⟨bits, content, rfl, rfl, blobDigestOfFile_eq content⟩)
    | other => exact absurd h (by simp [Node.entry])
  · rintro (⟨target, rfl, rfl, rfl⟩ | ⟨children, rfl, rfl, hne, rfl⟩ | ⟨bits, content, rfl, rfl, rfl⟩)
    · rfl
    · rw [Node.entry, manifestDigest, if_neg hne]
      rfl
    · rw [Node.entry, blobDigestOfFile_eq]
      rfl

private theorem mem_scanEntries {entries : Entries} {e : Entry} :
    e ∈ scanEntries sha1 entries ↔ ∃ node, (e.name, node) ∈ entries ∧ node.entry sha1 = some (e.mode, e.digest) := by
  induction entries with
  | nil => simp [scanEntries]
  | cons row rest ih =>
    obtain ⟨name, node⟩ := row
    have hrow : ∀ node', (e.name, node') ∈ (name, node) :: rest ↔
        (e.name = name ∧ node' = node) ∨ (e.name, node') ∈ rest := by simp
    simp only [hrow, or_and_right, exists_or]
    rw [scanEntries, ← ih]
    cases hentry : node.entry sha1 with
    | none =>
      refine ⟨.inr, ?_⟩
      rintro (⟨node', ⟨-, rfl⟩, hnode⟩ | h)
      · exact absurd (hentry.symm.trans hnode) (by simp)
      · exact h
    | some value =>
      obtain ⟨mode, digest⟩ := value
      rw [List.mem_cons]
      refine or_congr_left ?_
      constructor
      · rintro rfl
        exact ⟨node, ⟨rfl, rfl⟩, hentry⟩
      · rintro ⟨node', ⟨hname, rfl⟩, hnode⟩
        obtain ⟨hm, hd⟩ := Prod.mk.inj (Option.some.inj (hentry.symm.trans hnode))
        cases e
        simp only at hname hm hd
        rw [hname, hm, hd]

private theorem scanEntries_names (entries : Entries) :
    ((scanEntries sha1 entries).map Entry.name).Sublist (entries.map Prod.fst) := by
  induction entries with
  | nil => exact List.Sublist.refl _
  | cons row rest ih =>
    obtain ⟨name, node⟩ := row
    rw [scanEntries, List.map_cons]
    cases node.entry sha1 with
    | none => exact ih.cons name
    | some value => exact ih.cons_cons name

private theorem entrySortKey_inj {e e' : Entry} (he : slash ∉ e.name) (he' : slash ∉ e'.name)
    (h : entrySortKey e = entrySortKey e') : e.name = e'.name := by
  unfold entrySortKey at h
  split_ifs at h
  · exact List.append_cancel_right h
  · exact absurd (h ▸ by simp) he'
  · exact absurd (h ▸ by simp) he
  · exact h

namespace WellFormed

variable {entries entries' : Entries}

theorem names (h : WellFormed entries) {e : Bytes × Node} (he : e ∈ entries) :
    e.1 ≠ [] ∧ nul ∉ e.1 ∧ slash ∉ e.1 := by
  cases h with
  | mk hnames => exact hnames e he

theorem nodup (h : WellFormed entries) : (entries.map Prod.fst).Nodup := by
  cases h with
  | mk _ hnodup => exact hnodup

theorem children (h : WellFormed entries) {name : Bytes} {children : Entries}
    (hmem : (name, Node.directory children) ∈ entries) : WellFormed children := by
  cases h with
  | mk _ _ hbelow => exact hbelow name children hmem

private theorem node_unique (h : WellFormed entries) {name : Bytes} {node node' : Node} (hnode : (name, node) ∈ entries)
    (hnode' : (name, node') ∈ entries) : node = node' := by
  have heq := List.inj_on_of_nodup_map h.nodup hnode hnode' rfl
  exact (Prod.mk.inj heq).2

private theorem scan_names (h : WellFormed entries) {e : Entry} (he : e ∈ scanEntries sha1 entries) :
    nul ∉ e.name ∧ slash ∉ e.name := by
  obtain ⟨node, hnode, -⟩ := mem_scanEntries.1 he
  exact (h.names hnode).2

private theorem scan_nodup (h : WellFormed entries) : ((scanEntries sha1 entries).map Entry.name).Nodup :=
  h.nodup.sublist (scanEntries_names entries)

end WellFormed

/-! ### The digest of a manifest -/

private theorem manifest_inj {es es' : List Entry} (hes : ∀ e ∈ es, nul ∉ e.name) (hes' : ∀ e ∈ es', nul ∉ e.name)
    (h : manifest es = manifest es') : ∀ e, e ∈ es ↔ e ∈ es' := by
  have hsorted : orderBy entrySortKey es = orderBy entrySortKey es' :=
    line_prefixCode.flatMap_inj (fun e _ => line_ne_nil e) (fun e he => hes e (mem_orderBy.1 he))
      (fun e he => hes' e (mem_orderBy.1 he)) h
  intro e
  rw [← mem_orderBy (f := entrySortKey), hsorted, mem_orderBy]

private theorem manifest_congr {es es' : List Entry} (hnodup : (es.map Entry.name).Nodup)
    (hnodup' : (es'.map Entry.name).Nodup)
    (hslash : ∀ e ∈ es, slash ∉ e.name) (h : ∀ e, e ∈ es ↔ e ∈ es') : manifest es = manifest es' := by
  have hperm : es.Perm es' := (List.perm_ext_iff_of_nodup hnodup.of_map hnodup'.of_map).2 h
  have hsorted : orderBy entrySortKey es = orderBy entrySortKey es' := by
    refine orderBy_congr hperm fun a ha b hb hkey => ?_
    exact List.inj_on_of_nodup_map hnodup ha hb (entrySortKey_inj (hslash a ha) (hslash b hb) hkey)
  rw [manifest, manifest, hsorted]

/-- The digest of a directory is that of its manifest, also when that is empty. -/
private theorem rootDigest_eq (entries : Entries) :
    rootDigest sha1 entries = sha1 (gitObject TREE (manifest (scanEntries sha1 entries))) := by
  rw [rootDigest, treeDigest, manifestDigest]
  split
  next h =>
    rw [h]
    rfl
  · rfl

/-! ### One path at a time -/

variable {entries entries' : Entries} {path : List Bytes} {leaf : Leaf}

private theorem Holds.scan_ne_nil (h : Holds entries path leaf) : scanEntries sha1 entries ≠ [] := by
  have hentry : ∃ e, e ∈ scanEntries sha1 entries := by
    induction h with
    | @link entries name target h =>
      exact ⟨⟨name, .link, _⟩, mem_scanEntries.2 ⟨_, h, entry_eq_some.2 (.inl ⟨target, rfl, rfl, rfl⟩)⟩⟩
    | @file entries name bits content h =>
      exact ⟨⟨name, fileMode bits, _⟩,
        mem_scanEntries.2 ⟨_, h, entry_eq_some.2 (.inr (.inr ⟨bits, content, rfl, rfl, rfl⟩))⟩⟩
    | @inside entries children name path leaf h _ ih =>
      obtain ⟨e, he⟩ := ih
      have hne : scanEntries sha1 children ≠ [] := List.ne_nil_of_mem he
      exact ⟨⟨name, .dir, _⟩, mem_scanEntries.2 ⟨_, h, entry_eq_some.2 (.inr (.inl ⟨children, rfl, rfl, hne, rfl⟩))⟩⟩
  obtain ⟨e, he⟩ := hentry
  exact List.ne_nil_of_mem he

/-- What is recorded of an entry is recorded for a path. -/
private theorem exists_holds_of_entry {node : Node} (h : (node.entry sha1).isSome) {name : Bytes}
    (hmem : (name, node) ∈ entries) : ∃ path leaf, Holds entries path leaf := by
  induction node using Node.induction generalizing entries name with
  | link target => exact ⟨_, _, .link hmem⟩
  | directory children ih =>
    have hne : scanEntries sha1 children ≠ [] := by
      rintro hnil
      simp [Node.entry, manifestDigest, hnil] at h
    obtain ⟨e, he⟩ := List.exists_mem_of_ne_nil _ hne
    obtain ⟨child, hchild, hentry⟩ := mem_scanEntries.1 he
    obtain ⟨path, leaf, hholds⟩ := ih _ hchild (Option.isSome_iff_exists.2 ⟨_, hentry⟩) hchild
    exact ⟨_, _, .inside hmem hholds⟩
  | file bits content => exact ⟨_, _, .file hmem⟩
  | other => exact absurd h (by simp [Node.entry])

private theorem exists_holds (h : scanEntries sha1 entries ≠ []) : ∃ path leaf, Holds entries path leaf := by
  obtain ⟨e, he⟩ := List.exists_mem_of_ne_nil _ h
  obtain ⟨node, hnode, hentry⟩ := mem_scanEntries.1 he
  exact exists_holds_of_entry (Option.isSome_iff_exists.2 ⟨_, hentry⟩) hnode

private theorem Holds.path_ne_nil (h : Holds entries path leaf) : path ≠ [] := by
  cases h <;> exact List.cons_ne_nil _ _

private theorem holds_link_iff {name target : Bytes} :
    Holds entries [name] (.link target) ↔ (name, Node.link target) ∈ entries := by
  constructor
  · intro h
    cases h with
    | link h => exact h
    | inside _ hinside => exact absurd rfl hinside.path_ne_nil
  · exact .link

private theorem holds_file_iff {name content : Bytes} {executable : Bool} :
    Holds entries [name] (.file executable content) ↔
      ∃ bits, (name, Node.file bits content) ∈ entries ∧ isExecutable bits = executable := by
  constructor
  · intro h
    cases h with
    | @file _ _ bits _ h => exact ⟨bits, h, rfl⟩
    | inside _ hinside => exact absurd rfl hinside.path_ne_nil
  · rintro ⟨bits, h, rfl⟩
    exact .file h

private theorem holds_inside_iff {name : Bytes} (hpath : path ≠ []) :
    Holds entries (name :: path) leaf ↔ ∃ children, (name, Node.directory children) ∈ entries ∧ Holds children path leaf := by
  constructor
  · intro h
    cases h with
    | link => exact absurd rfl hpath
    | file => exact absurd rfl hpath
    | @inside _ children _ _ _ h hinside => exact ⟨children, h, hinside⟩
  · rintro ⟨children, h, hinside⟩
    exact .inside h hinside

/-! ### Objects of a directory -/

private theorem mem_scanObjects {x : Bytes} : x ∈ scanObjects sha1 entries ↔ ∃ e ∈ entries, x ∈ e.2.objects sha1 := by
  induction entries with
  | nil => simp [scanObjects]
  | cons row rest ih =>
    obtain ⟨name, node⟩ := row
    rw [scanObjects, List.mem_append, ih]
    simp

private theorem hashedObjects_subset {name : Bytes} {children : Entries} (h : (name, Node.directory children) ∈ entries)
    (hne : scanEntries sha1 children ≠ []) : ∀ x ∈ hashedObjects sha1 children, x ∈ hashedObjects sha1 entries := by
  intro x hx
  have hnode : x ∈ (Node.directory children).objects sha1 := by
    rw [Node.objects, manifestObjects, if_neg hne]
    simpa [hashedObjects] using hx
  exact List.mem_cons_of_mem _ (mem_scanObjects.2 ⟨_, h, hnode⟩)

/-- No two different objects of two directories have one digest. -/
def NoClash (sha1 : Bytes → Digest) (entries entries' : Entries) : Prop :=
  ∀ x ∈ hashedObjects sha1 entries, ∀ y ∈ hashedObjects sha1 entries', sha1 x = sha1 y → x = y

theorem NoClash.blob {name name' content content' : Bytes} {node node' : Node} (h : NoClash sha1 entries entries')
    (hmem : (name, node) ∈ entries) (hmem' : (name', node') ∈ entries')
    (hnode : node.objects sha1 = [gitObject BLOB content]) (hnode' : node'.objects sha1 = [gitObject BLOB content'])
    (hdigest : sha1 (gitObject BLOB content) = sha1 (gitObject BLOB content')) : content = content' := by
  have hobject : gitObject BLOB content = gitObject BLOB content' := by
    refine h _ (List.mem_cons_of_mem _ (mem_scanObjects.2 ⟨_, hmem, ?_⟩)) _
      (List.mem_cons_of_mem _ (mem_scanObjects.2 ⟨_, hmem', ?_⟩)) hdigest
    · rw [hnode]
      exact List.mem_singleton_self _
    · rw [hnode']
      exact List.mem_singleton_self _
  exact (gitObject_inj (by decide) (by decide) hobject).2

private theorem isExecutable_eq {bits bits' : Nat} (h : fileMode bits = fileMode bits') :
    isExecutable bits = isExecutable bits' := by
  unfold fileMode at h
  split_ifs at h with hbits hbits' hbits'
  · rw [hbits, hbits']
  · rw [Bool.not_eq_true] at hbits hbits'
    rw [hbits, hbits']

private theorem fileMode_ne (bits : Nat) : fileMode bits ≠ .link ∧ fileMode bits ≠ .dir := by
  unfold fileMode
  split <;> simp

/-! ### One digest, the same files -/

private theorem scan_iff_of_digest (hes : WellFormed entries) (hes' : WellFormed entries')
    (hclash : NoClash sha1 entries entries')
    (hdigest : sha1 (gitObject TREE (manifest (scanEntries sha1 entries))) =
      sha1 (gitObject TREE (manifest (scanEntries sha1 entries')))) :
    ∀ e, e ∈ scanEntries sha1 entries ↔ e ∈ scanEntries sha1 entries' := by
  have hobject := hclash _ List.mem_cons_self _ List.mem_cons_self hdigest
  have hmanifest := (gitObject_inj (by decide) (by decide) hobject).2
  exact manifest_inj (fun e he => (hes.scan_names he).1) (fun e he => (hes'.scan_names he).1) hmanifest

/-- Without a clash, directories with one digest hold the same files. -/
private theorem Holds.transfer (h : Holds entries path leaf) (hes : WellFormed entries) (hes' : WellFormed entries')
    (hclash : NoClash sha1 entries entries')
    (hdigest : sha1 (gitObject TREE (manifest (scanEntries sha1 entries))) =
      sha1 (gitObject TREE (manifest (scanEntries sha1 entries')))) : Holds entries' path leaf := by
  -- the entry for the first name of the path is recorded for both directories
  induction h generalizing entries' with
  | @link entries name target h =>
    have hentry := (@entry_eq_some sha1 _ _ _).2 (.inl ⟨target, rfl, rfl, rfl⟩)
    have hmem := (scan_iff_of_digest hes hes' hclash hdigest ⟨name, .link, _⟩).1 (mem_scanEntries.2 ⟨_, h, hentry⟩)
    obtain ⟨node, hnode, hentry'⟩ := mem_scanEntries.1 hmem
    rcases entry_eq_some.1 hentry' with ⟨target', rfl, -, heq⟩ | ⟨_, -, hmode, -⟩ | ⟨bits, _, -, hmode, -⟩
    · obtain rfl := hclash.blob h hnode rfl rfl heq
      exact .link hnode
    · exact absurd hmode (by simp)
    · exact absurd hmode.symm (fileMode_ne bits).1
  | @file entries name bits content h =>
    have hentry := (@entry_eq_some sha1 _ _ _).2 (.inr (.inr ⟨bits, content, rfl, rfl, rfl⟩))
    have hmem := (scan_iff_of_digest hes hes' hclash hdigest ⟨name, fileMode bits, _⟩).1 (mem_scanEntries.2 ⟨_, h, hentry⟩)
    obtain ⟨node, hnode, hentry'⟩ := mem_scanEntries.1 hmem
    rcases entry_eq_some.1 hentry' with ⟨_, -, hmode, -⟩ | ⟨_, -, hmode, -⟩ | ⟨bits', content', rfl, hmode, heq⟩
    · exact absurd hmode (fileMode_ne bits).1
    · exact absurd hmode (fileMode_ne bits).2
    · obtain rfl := hclash.blob h hnode rfl rfl heq
      rw [isExecutable_eq hmode]
      exact .file hnode
  | @inside entries children name path leaf h hinside ih =>
    have hne : scanEntries sha1 children ≠ [] := hinside.scan_ne_nil
    have hentry := (@entry_eq_some sha1 _ _ _).2 (.inr (.inl ⟨children, rfl, rfl, hne, rfl⟩))
    have hmem := (scan_iff_of_digest hes hes' hclash hdigest ⟨name, .dir, _⟩).1 (mem_scanEntries.2 ⟨_, h, hentry⟩)
    obtain ⟨node, hnode, hentry'⟩ := mem_scanEntries.1 hmem
    rcases entry_eq_some.1 hentry' with ⟨_, -, hmode, -⟩ | ⟨children', rfl, -, hne', heq⟩ | ⟨bits, _, -, hmode, -⟩
    · exact absurd hmode (by simp)
    · refine .inside hnode (ih (hes.children h) (hes'.children hnode) ?_ heq)
      intro x hx y hy
      exact hclash x (hashedObjects_subset h hne x hx) y (hashedObjects_subset hnode hne' y hy)
    · exact absurd hmode.symm (fileMode_ne bits).2

/-! ### The same files, one digest -/

theorem Same.symm (h : Same entries entries') : Same entries' entries := fun path leaf => (h path leaf).symm

/-- A name that is recorded as a directory is one in the other directory, and holds the same files there. -/
theorem Same.children (h : Same entries entries') (hes : WellFormed entries) (hes' : WellFormed entries') {name : Bytes}
    {children : Entries} (hmem : (name, Node.directory children) ∈ entries) (hne : scanEntries sha1 children ≠ []) :
    ∃ children', (name, Node.directory children') ∈ entries' ∧ Same children children' := by
  obtain ⟨path, leaf, hholds⟩ := exists_holds hne
  obtain ⟨children', hmem', -⟩ := (holds_inside_iff hholds.path_ne_nil).1 ((h _ _).1 (.inside hmem hholds))
  refine ⟨children', hmem', fun path' leaf' => ?_⟩
  constructor
  · intro hholds'
    obtain ⟨found, hfound, hinside⟩ := (holds_inside_iff hholds'.path_ne_nil).1 ((h _ _).1 (.inside hmem hholds'))
    obtain rfl := Node.directory.inj (hes'.node_unique hfound hmem')
    exact hinside
  · intro hholds'
    obtain ⟨found, hfound, hinside⟩ := (holds_inside_iff hholds'.path_ne_nil).1 ((h _ _).2 (.inside hmem' hholds'))
    obtain rfl := Node.directory.inj (hes.node_unique hfound hmem)
    exact hinside

/-- What is recorded of one directory is recorded of the other, when it is so for the directories in them. -/
private theorem Same.scan_subset (h : Same entries entries') (hes : WellFormed entries) (hes' : WellFormed entries')
    (hbelow : ∀ name children children', (name, Node.directory children) ∈ entries →
      (name, Node.directory children') ∈ entries' → Same children children' →
      manifest (scanEntries sha1 children) = manifest (scanEntries sha1 children')) :
    ∀ e ∈ scanEntries sha1 entries, e ∈ scanEntries sha1 entries' := by
  intro e he
  obtain ⟨node, hnode, hentry⟩ := mem_scanEntries.1 he
  refine mem_scanEntries.2 ?_
  rcases entry_eq_some.1 hentry with ⟨target, rfl, hmode, hdigest⟩ | ⟨children, rfl, hmode, hne, hdigest⟩ |
    ⟨bits, content, rfl, hmode, hdigest⟩
  · have hlink := holds_link_iff.1 ((h _ _).1 (holds_link_iff.2 hnode))
    exact ⟨_, hlink, entry_eq_some.2 (.inl ⟨target, rfl, hmode, hdigest⟩)⟩
  · obtain ⟨children', hmem', hsame⟩ := h.children hes hes' hnode hne
    have hne' : scanEntries sha1 children' ≠ [] := by
      obtain ⟨path, leaf, hholds⟩ := exists_holds hne
      exact ((hsame path leaf).1 hholds).scan_ne_nil
    rw [hbelow _ _ _ hnode hmem' hsame] at hdigest
    exact ⟨_, hmem', entry_eq_some.2 (.inr (.inl ⟨children', rfl, hmode, hne', hdigest⟩))⟩
  · obtain ⟨bits', hfile, hbits⟩ := holds_file_iff.1 ((h _ _).1 (holds_file_iff.2 ⟨bits, hnode, rfl⟩))
    have hmode' : fileMode bits' = fileMode bits := by rw [fileMode, fileMode, hbits]
    exact ⟨_, hfile, entry_eq_some.2 (.inr (.inr ⟨bits', content, rfl, hmode.trans hmode'.symm, hdigest⟩))⟩

/-- Directories that hold the same files have one manifest. -/
private theorem Same.manifest_eq (h : Same entries entries') (hes : WellFormed entries) (hes' : WellFormed entries') :
    manifest (scanEntries sha1 entries) = manifest (scanEntries sha1 entries') := by
  induction hes generalizing entries' with
  | @mk entries hnames hnodup hbelow ih =>
    have hes : WellFormed entries := .mk hnames hnodup hbelow
    refine manifest_congr hes.scan_nodup hes'.scan_nodup (fun e he => (hes.scan_names he).2) fun e => ?_
    constructor
    · refine h.scan_subset hes hes' (fun name children children' hmem hmem' hsame => ?_) e
      exact ih name children hmem hsame (hes'.children hmem')
    · refine h.symm.scan_subset hes' hes (fun name children' children hmem' hmem hsame => ?_) e
      exact (ih name children hmem hsame.symm (hes'.children hmem')).symm

/-! ### The identifier -/

private theorem directoryIdSync_eq_iff :
    directoryIdSync sha1 entries = directoryIdSync sha1 entries' ↔
      sha1 (gitObject TREE (manifest (scanEntries sha1 entries))) =
        sha1 (gitObject TREE (manifest (scanEntries sha1 entries'))) := by
  have hroot : ∀ es, sha1 (gitObject TREE (manifest (scanEntries sha1 es))) = rootDigest sha1 es :=
    fun es => (rootDigest_eq es).symm
  rw [hroot, hroot, directoryIdSync, directoryIdSync]
  constructor
  · intro h
    exact Subtype.ext (hex_inj (Identifier.mk.inj h).2)
  · intro h
    rw [h]

theorem same_of_directoryIdSync_eq (hes : WellFormed entries) (hes' : WellFormed entries')
    (h : directoryIdSync sha1 entries = directoryIdSync sha1 entries') :
    Same entries entries' ∨ Collision sha1 entries entries' := by
  have hdigest := directoryIdSync_eq_iff.1 h
  by_cases hclash : NoClash sha1 entries entries'
  · refine .inl fun path leaf => ?_
    constructor
    · intro hholds
      exact hholds.transfer hes hes' hclash hdigest
    · intro hholds
      exact hholds.transfer hes' hes (fun x hx y hy hxy => (hclash y hy x hx hxy.symm).symm) hdigest.symm
  · unfold NoClash at hclash
    push Not at hclash
    obtain ⟨x, hx, y, hy, hxy, hne⟩ := hclash
    exact .inr ⟨x, hx, y, hy, hne, hxy⟩

theorem Same.directoryIdSync_eq (h : Same entries entries') (hes : WellFormed entries) (hes' : WellFormed entries') :
    directoryIdSync sha1 entries = directoryIdSync sha1 entries' := by
  rw [directoryIdSync_eq_iff, h.manifest_eq hes hes']

/-- Directories that hold the same files have one identifier, and directories with one identifier hold the same files or
have two different objects with one digest. -/
theorem directoryIdSync_iff (sha1 : Bytes → Digest) (d d' : Directory) :
    (Same d.entries d'.entries → directoryIdSync sha1 d.entries = directoryIdSync sha1 d'.entries) ∧
      (directoryIdSync sha1 d.entries = directoryIdSync sha1 d'.entries →
        Same d.entries d'.entries ∨ Collision sha1 d.entries d'.entries) := by
  constructor
  · intro hsame
    exact hsame.directoryIdSync_eq d.wellFormed d'.wellFormed
  · intro heq
    exact same_of_directoryIdSync_eq d.wellFormed d'.wellFormed heq

end Swhid

end TrustedReleases
