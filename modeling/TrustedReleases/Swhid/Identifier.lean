import Mathlib
import TrustedReleases.Lib.Except
import TrustedReleases.Lib.Split
import TrustedReleases.Lib.Str

/-!
# The text of an identifier

A software hash identifier (`atr/swhid.py`) names an object by its type and the hash of it.  `parse` reads exactly the
texts that are written of identifiers (`parse_iff`).
-/

namespace TrustedReleases

open Lib

namespace Swhid

/-- `SwhidError`, with its message. -/
structure SwhidError where
  message : Str
  deriving DecidableEq

/-- `ObjectType` -/
inductive ObjectType where
  | content
  | directory
  | revision
  | release
  | snapshot
  deriving DecidableEq

namespace ObjectType

def value : ObjectType → Str
  | content => "cnt".toList
  | directory => "dir".toList
  | revision => "rev".toList
  | release => "rel".toList
  | snapshot => "snp".toList

/-- `ObjectType(tag)` -/
def ofValue (tag : Str) : Option ObjectType :=
  [content, directory, revision, release, snapshot].find? fun t => t.value = tag

private theorem ofValue_eq_some {tag : Str} {t : ObjectType} : ofValue tag = some t ↔ tag = t.value := by
  constructor
  · intro h
    have hfound := List.find?_some h
    exact (of_decide_eq_true hfound).symm
  · rintro rfl
    cases t <;> decide

private theorem separator_notMem_value (t : ObjectType) : ':' ∉ t.value ∧ ';' ∉ t.value := by cases t <;> decide

end ObjectType

/-- `Identifier` -/
structure Identifier where
  objectType : ObjectType
  digest : Str
  deriving DecidableEq

def SCHEME : Str := "swh".toList

def VERSION : Str := "1".toList

def DIGEST_LENGTH : Nat := 40

def HEX_DIGITS : List Char := "0123456789abcdef".toList

namespace Identifier

/-- `Identifier.__str__` -/
def str (i : Identifier) : Str := SCHEME ++ ':' :: (VERSION ++ ':' :: (i.objectType.value ++ ':' :: i.digest))

/-- An identifier with a digest as `parse` takes it. -/
def Valid (i : Identifier) : Prop := i.digest.length = DIGEST_LENGTH ∧ ∀ c ∈ i.digest, c ∈ HEX_DIGITS

instance decidableValid (i : Identifier) : Decidable i.Valid := inferInstanceAs (Decidable (_ ∧ _))

end Identifier

/-- `parse` -/
def parse (text : Str) : Except SwhidError Identifier :=
  if ';' ∈ text then .error ⟨"qualified SWHIDs are not supported: ".toList ++ text⟩
  else
    match text.splitOn ':' with
    | [scheme, version, tag, digest] =>
      if scheme ≠ SCHEME then .error ⟨"expected scheme 'swh': ".toList ++ text⟩
      else if version ≠ VERSION then .error ⟨"unsupported SWHID version: ".toList ++ version⟩
      else
        match ObjectType.ofValue tag with
        | none => .error ⟨"unknown object type: ".toList ++ tag⟩
        | some objectType =>
          if digest.length ≠ DIGEST_LENGTH ∨ ¬ ∀ c ∈ digest, c ∈ HEX_DIGITS then
            .error ⟨"invalid digest: ".toList ++ digest⟩
          else .ok ⟨objectType, digest⟩
    | _ => .error ⟨"malformed SWHID: ".toList ++ text⟩

variable {text : Str} {i : Identifier}

/-- The parts of a text between its colons. -/
private theorem split_eq_iff {scheme version tag digest : Str} :
    text.splitOn ':' = [scheme, version, tag, digest] ↔
      text = scheme ++ ':' :: (version ++ ':' :: (tag ++ ':' :: digest)) ∧
        ':' ∉ scheme ∧ ':' ∉ version ∧ ':' ∉ tag ∧ ':' ∉ digest := by
  have hjoin : [':'].intercalate [scheme, version, tag, digest] =
      scheme ++ ':' :: (version ++ ':' :: (tag ++ ':' :: digest)) := by simp [List.intercalate]
  rw [splitOn_eq_iff (List.cons_ne_nil _ _), hjoin]
  simp

private theorem Identifier.Valid.notMem (h : i.Valid) {c : Char} (hc : c ∉ HEX_DIGITS) : c ∉ i.digest :=
  fun hmem => hc (h.2 c hmem)

private theorem separator_notMem (c : Char) (hc : c = ':' ∨ c = ';') : c ∉ SCHEME ∧ c ∉ VERSION ∧ c ∉ HEX_DIGITS := by
  rcases hc with rfl | rfl <;> decide

private theorem splitOn_str (h : i.Valid) : i.str.splitOn ':' = [SCHEME, VERSION, i.objectType.value, i.digest] := by
  obtain ⟨hscheme, hversion, hhex⟩ := separator_notMem ':' (.inl rfl)
  rw [split_eq_iff]
  exact ⟨rfl, hscheme, hversion, i.objectType.separator_notMem_value.1, h.notMem hhex⟩

private theorem semicolon_notMem_str (h : i.Valid) : ';' ∉ i.str := by
  obtain ⟨hscheme, hversion, hhex⟩ := separator_notMem ';' (.inr rfl)
  have htag : ';' ∉ i.objectType.value := i.objectType.separator_notMem_value.2
  have hdigest : ';' ∉ i.digest := h.notMem hhex
  have hcolon : ';' ≠ ':' := by decide
  simp [Identifier.str, hscheme, hversion, htag, hdigest, hcolon]

/-- What `parse` reads are the texts of identifiers, each as the one of which it is the text. -/
theorem parse_iff (text : Str) (i : Identifier) : parse text = .ok i ↔ i.Valid ∧ text = i.str := by
  constructor
  · intro h
    unfold parse at h
    split at h
    · exact absurd h (by simp)
    split at h
    next scheme version tag digest hsplit =>
      obtain ⟨htext, -⟩ := split_eq_iff.1 hsplit
      cases htag : ObjectType.ofValue tag with
      | none =>
        rw [htag] at h
        split_ifs at h
      | some objectType =>
        rw [htag] at h
        split_ifs at h with hscheme hversion hdigest
        obtain rfl := Except.ok.inj h
        push Not at hdigest hscheme hversion
        refine ⟨hdigest, ?_⟩
        rw [htext, hscheme, hversion, ObjectType.ofValue_eq_some.1 htag]
        rfl
    · exact absurd h (by simp)
  · rintro ⟨hvalid, rfl⟩
    have htag : ObjectType.ofValue i.objectType.value = some i.objectType := ObjectType.ofValue_eq_some.2 rfl
    have hdigest : ¬ (i.digest.length ≠ DIGEST_LENGTH ∨ ¬ ∀ c ∈ i.digest, c ∈ HEX_DIGITS) := by
      push Not
      exact hvalid
    unfold parse
    rw [if_neg (semicolon_notMem_str hvalid), splitOn_str hvalid]
    simp only [ne_eq, not_true_eq_false, if_false, htag]
    rw [if_neg hdigest]

end Swhid

end TrustedReleases
