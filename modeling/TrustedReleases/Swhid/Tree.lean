import TrustedReleases.Lib.Bytes
import TrustedReleases.Lib.PrefixCode
import TrustedReleases.Lib.Query
import TrustedReleases.Swhid.Identifier

/-!
# The identifier of a directory

The hash of a directory is the hash of its manifest, which has the name, the mode and the hash of every entry in the
order of the names, a directory being ordered as though its name ended in a slash.  Empty directories and special files
are left out.  The hash function is a parameter.
-/

namespace TrustedReleases

open Lib

namespace Swhid

/-- What `hashlib.sha1` gives. -/
abbrev Digest := {d : Bytes // d.length = 20}

def space : Byte := byte 32

def slash : Byte := byte 47

def nul : Byte := byte 0

/-- A number as `%d` writes it. -/
def decimal (n : Nat) : Bytes := ascii (Nat.toDigits 10 n)

def BLOB : Bytes := ascii "blob".toList

def TREE : Bytes := ascii "tree".toList

/-- The modes of git. -/
inductive Mode where
  | dir
  | exec
  | file
  | link
  deriving DecidableEq

/-- `_MODE_DIR` and the other modes -/
def Mode.text : Mode → Bytes
  | dir => ascii "40000".toList
  | exec => ascii "100755".toList
  | file => ascii "100644".toList
  | link => ascii "120000".toList

/-- What a name stands for, by its `st_mode`; `other` is a pipe, a socket or a device. -/
inductive Node where
  | link (target : Bytes)
  | directory (entries : List (Bytes × Node))
  | file (mode : Nat) (content : Bytes)
  | other

/-- The entries of a directory, as `os.scandir` gives them. -/
abbrev Entries := List (Bytes × Node)

/-- An entry of a manifest: `(name, mode, digest)`. -/
structure Entry where
  name : Bytes
  mode : Mode
  digest : Digest
  deriving DecidableEq

/-- `_entry_sort_key` -/
def entrySortKey (e : Entry) : Bytes := if e.mode = .dir then e.name ++ [slash] else e.name

/-- `mode + b" " + name + b"\x00" + digest` -/
def Entry.line (e : Entry) : Bytes := (e.mode.text ++ [space]) ++ ((e.name ++ [nul]) ++ e.digest.1)

/-- The manifest of a directory. -/
def manifest (entries : List Entry) : Bytes := (orderBy entrySortKey entries).flatMap Entry.line

/-- What is hashed of an object. -/
def gitObject (kind payload : Bytes) : Bytes := (kind ++ [space]) ++ ((decimal payload.length ++ [nul]) ++ payload)

/-- `mode & 0o111` -/
def isExecutable (mode : Nat) : Bool := mode &&& 0o111 ≠ 0

def fileMode (mode : Nat) : Mode := if isExecutable mode then .exec else .file

section Digests

variable (sha1 : Bytes → Digest)

/-- `_git_object_digest` -/
def gitObjectDigest (kind payload : Bytes) : Digest := sha1 (gitObject kind payload)

/-- `_blob_digest_of_file` -/
def blobDigestOfFile (content : Bytes) (size : Nat) : Digest :=
  sha1 (ascii "blob ".toList ++ decimal size ++ [nul] ++ content)

/-- The end of `_tree_digest`: an empty directory has no digest. -/
def manifestDigest (entries : List Entry) : Option Digest :=
  if entries = [] then none else some (gitObjectDigest sha1 TREE (manifest entries))

mutual

/-- The mode and the digest of what a name stands for, if it is recorded. -/
def Node.entry : Node → Option (Mode × Digest)
  | .link target => some (.link, gitObjectDigest sha1 BLOB target)
  | .directory entries => (manifestDigest sha1 (scanEntries entries)).map fun digest => (.dir, digest)
  | .file mode content => some (fileMode mode, blobDigestOfFile sha1 content content.length)
  | .other => none

/-- The loop of `_tree_digest` -/
def scanEntries : Entries → List Entry
  | [] => []
  | (name, node) :: rest =>
    match node.entry with
    | some (mode, digest) => ⟨name, mode, digest⟩ :: scanEntries rest
    | none => scanEntries rest

end

/-- `_tree_digest` -/
def treeDigest (entries : Entries) : Option Digest := manifestDigest sha1 (scanEntries sha1 entries)

/-- The digest of `directory_id_sync`. -/
def rootDigest (entries : Entries) : Digest := (treeDigest sha1 entries).getD (gitObjectDigest sha1 TREE [])

end Digests

/-! ### Hexadecimal -/

def hexDigit (n : Nat) : Char := HEX_DIGITS.getD (n % 16) '0'

/-- `bytes.hex` -/
def hex (bs : Bytes) : Str := bs.flatMap fun b => [hexDigit (b.val / 16), hexDigit b.val]

private theorem hexDigit_mem (n : Nat) : hexDigit n ∈ HEX_DIGITS := by
  have hlt : n % 16 < 16 := Nat.mod_lt n (by decide)
  have hlength : HEX_DIGITS.length = 16 := by decide
  rw [hexDigit, List.getD_eq_getElem _ _ (by omega)]
  exact List.getElem_mem _

private theorem hexDigit_inj {m n : Nat} (h : hexDigit m = hexDigit n) : m % 16 = n % 16 := by
  have hlength : HEX_DIGITS.length = 16 := by decide
  have hnodup : HEX_DIGITS.Nodup := by decide
  have hm : m % 16 < HEX_DIGITS.length := by omega
  have hn : n % 16 < HEX_DIGITS.length := by omega
  rw [hexDigit, hexDigit, List.getD_eq_getElem _ _ hm, List.getD_eq_getElem _ _ hn] at h
  exact (List.Nodup.getElem_inj_iff hnodup).1 h

private theorem hex_length (bs : Bytes) : (hex bs).length = 2 * bs.length := by
  induction bs with
  | nil => rfl
  | cons b bs ih =>
    have hcons : hex (b :: bs) = hexDigit (b.val / 16) :: hexDigit b.val :: hex bs := rfl
    rw [hcons, List.length_cons, List.length_cons, List.length_cons, ih]
    omega

private theorem mem_hex {bs : Bytes} {c : Char} (h : c ∈ hex bs) : c ∈ HEX_DIGITS := by
  rw [hex, List.mem_flatMap] at h
  obtain ⟨b, -, hc⟩ := h
  rcases List.mem_cons.1 hc with rfl | hc
  · exact hexDigit_mem _
  · obtain rfl := List.mem_singleton.1 hc
    exact hexDigit_mem _

theorem hex_inj {bs cs : Bytes} (h : hex bs = hex cs) : bs = cs := by
  induction bs generalizing cs with
  | nil =>
    cases cs with
    | nil => rfl
    | cons c cs => exact absurd h (by simp [hex])
  | cons b bs ih =>
    cases cs with
    | nil => exact absurd h (by simp [hex])
    | cons c cs =>
      have hcons : hexDigit (b.val / 16) :: hexDigit b.val :: hex bs =
          hexDigit (c.val / 16) :: hexDigit c.val :: hex cs := h
      have hhigh := hexDigit_inj (List.head_eq_of_cons_eq hcons)
      have hrest := List.tail_eq_of_cons_eq hcons
      have hlow := hexDigit_inj (List.head_eq_of_cons_eq hrest)
      have hbc : b = c := by
        apply Fin.ext
        omega
      rw [hbc, ih (List.tail_eq_of_cons_eq hrest)]

/-! ### Identifiers -/

section Identifiers

variable (sha1 : Bytes → Digest)

/-- `content_id` -/
def contentId (data : Bytes) : Identifier := ⟨.content, hex (gitObjectDigest sha1 BLOB data).1⟩

/-- `_content_id_from_file` -/
def contentIdFromFile (content : Bytes) : Identifier :=
  ⟨.content, hex (blobDigestOfFile sha1 content content.length).1⟩

/-- `directory_id_sync` -/
def directoryIdSync (entries : Entries) : Identifier := ⟨.directory, hex (rootDigest sha1 entries).1⟩

end Identifiers

variable {sha1 : Bytes → Digest}

theorem valid_hex (t : ObjectType) (d : Digest) : (Identifier.mk t (hex d.1)).Valid := by
  refine ⟨?_, fun c hc => mem_hex hc⟩
  rw [hex_length, d.2]
  rfl

/-- The texts of identifiers are read back, each as the identifier of which it is the text, and nothing else is read; the
identifiers of contents and of directories are among them. -/
theorem parse_eq_ok_iff (sha1 : Bytes → Digest) :
    (∀ text i, parse text = .ok i ↔ i.Valid ∧ text = i.str) ∧
      (∀ data, parse (contentId sha1 data).str = .ok (contentId sha1 data)) ∧
      ∀ entries, parse (directoryIdSync sha1 entries).str = .ok (directoryIdSync sha1 entries) := by
  refine ⟨parse_iff, fun data => ?_, fun entries => ?_⟩
  · exact (parse_iff _ _).2 ⟨valid_hex _ _, rfl⟩
  · exact (parse_iff _ _).2 ⟨valid_hex _ _, rfl⟩

/-- A file has the identifier of its content. -/
theorem blobDigestOfFile_eq (content : Bytes) :
    blobDigestOfFile sha1 content content.length = gitObjectDigest sha1 BLOB content := by
  have hhead : ascii "blob ".toList = BLOB ++ [space] := by decide
  rw [blobDigestOfFile, gitObjectDigest, gitObject, hhead]
  simp

end Swhid

end TrustedReleases
