import TrustedReleases.Lib.Base64
import TrustedReleases.Pgp.Placements

/-!
# Armor

Blocks of text that hold packets.  They are read by `dearmored` and written by the package openpgp, which is given as
a function `Armor`; what it writes is read back (`Armor.Lawful`), as it is for blocks of one line (`lineArmor`).
-/

namespace TrustedReleases

open Lib

namespace Pgp

/-! ### Reading -/

/-- The lines of a block that hold data, from before the blank line on or from after it. -/
def armorLines : Bool → List Str → List Str
  | _, [] => []
  | false, line :: rest =>
    if strip line = [] then armorLines true rest
    else if ':' ∉ strip line then strip line :: armorLines true rest
    else armorLines false rest
  | true, line :: rest =>
    if "-----END".toList <+: strip line then []
    else if ['='] <+: strip line then armorLines true rest
    else strip line :: armorLines true rest

private theorem armorLines_blank (rest : List Str) : armorLines false ([] :: rest) = armorLines true rest := if_pos rfl

private theorem armorLines_data {line : Str} (h : ∀ c ∈ line, isSpace c = false) (hend : ¬ "-----END".toList <+: line)
    (hpad : ¬ ['='] <+: line) (rest : List Str) : armorLines true (line :: rest) = line :: armorLines true rest := by
  rw [armorLines, strip_eq h, if_neg hend, if_neg hpad]

private theorem armorLines_checksum {line : Str} (h : ∀ c ∈ '=' :: line, isSpace c = false) (rest : List Str) :
    armorLines true (('=' :: line) :: rest) = armorLines true rest := by
  have hend : ¬ "-----END".toList <+: '=' :: line := by
    rintro ⟨t, ht⟩
    cases ht
  rw [armorLines, strip_eq h, if_neg hend, if_pos ⟨line, rfl⟩]

/-- `_dearmored`. -/
def dearmored (text : Str) : Except Error Bytes :=
  demand (b64decode (armorLines false (splitLines text).tail).flatten) .armor

/-- `certificate_placements`. -/
def certificatePlacements (block : Str) : Except Error (Finset Placement) := do
  let data ← dearmored block
  fragmentPlacements data none

/-! ### Writing -/

/-- The writer of the package openpgp, told whether to include a checksum. -/
abbrev Armor := Bytes → Bool → Str

/-- What is written is read back. -/
def Armor.Lawful (armor : Armor) : Prop := ∀ data includeChecksum, dearmored (armor data includeChecksum) = .ok data

/-- `_armored`, which leaves out the checksum where every primary key packet is of version 6. -/
def armored (armor : Armor) (data : Bytes) : Except Error Str := do
  let offsets ← frameOffsets data none
  let primaries := offsets.filter fun o => decide (o.tag = primaryKeyTag)
  raiseIf (∃ o ∈ primaries, o.body = o.stop) .emptyPrimary
  raiseIf (primaries = []) .armorNoPrimary
  return armor data (decide (∃ o ∈ primaries, data[o.body]? ≠ some (byte 6)))

theorem dearmored_armored {armor : Armor} (harmor : armor.Lawful) {data : Bytes} {block : Str}
    (h : armored armor data = .ok block) : dearmored block = .ok data := by
  obtain ⟨offsets, -, h⟩ := bind_eq_ok h
  obtain ⟨-, h⟩ := raiseIf_bind_eq_ok.1 h
  obtain ⟨-, h⟩ := raiseIf_bind_eq_ok.1 h
  rw [← Except.ok.inj h, harmor]

/-! ### Blocks of one line -/

/-- The checksum of a block, in three bytes. -/
def crc24 (data : Bytes) : Nat :=
  let shift n := if n < 0x800000 then n * 2 else (n * 2) ^^^ 0x1864CFB
  data.foldl (fun crc b => (List.range 8).foldl (fun n _ => shift n) (crc ^^^ (b.val * 0x10000))) 0xB704CE

def armorBegin : Str := "-----BEGIN PGP PUBLIC KEY BLOCK-----".toList

def armorEnd : Str := "-----END PGP PUBLIC KEY BLOCK-----".toList

/-- What openpgp writes for data that fit into one line. -/
def lineArmor : Armor := fun data includeChecksum =>
  armorBegin ++ '\n' :: ([] ++ '\n' :: (b64encode data ++ '\n' ::
    ((if includeChecksum then '=' :: b64encode (toBytes 3 (crc24 data)) ++ ['\n'] else []) ++
      (armorEnd ++ ['\n']))))

private theorem base64Alphabet_plain :
    ∀ c ∈ '=' :: base64Alphabet, isLineBreak c = false ∧ isSpace c = false ∧ c ≠ '-' := by
  have hall : ('=' :: base64Alphabet).all (fun c => !isLineBreak c && !isSpace c && c != '-') = true := by decide +kernel
  simpa [List.all_eq_true, and_assoc] using hall

private theorem b64encode_plain (data : Bytes) :
    ∀ c ∈ b64encode data, isLineBreak c = false ∧ isSpace c = false ∧ c ≠ '-' := by
  intro c hc
  refine base64Alphabet_plain c ?_
  rcases mem_b64encode hc with h | h
  · exact List.mem_cons_of_mem _ h
  · rw [h]
    exact List.mem_cons_self

/-- What is written in one line is read back. -/
theorem lineArmor_lawful : Armor.Lawful lineArmor := by
  intro data includeChecksum
  have hplain := b64encode_plain data
  have hbegin : ∀ c ∈ armorBegin, isLineBreak c = false := by
    have hall : armorBegin.all (fun c => !isLineBreak c) = true := by decide +kernel
    simpa [List.all_eq_true] using hall
  have hend : splitLines (armorEnd ++ ['\n']) =
      [armorEnd] := by decide +kernel
  have hstop : armorLines true [armorEnd] = [] := by decide +kernel
  -- the checksum and the last line hold no data
  have htail : armorLines true (splitLines ((if includeChecksum then
      '=' :: b64encode (toBytes 3 (crc24 data)) ++ ['\n'] else []) ++
        (armorEnd ++ ['\n']))) = [] := by
    cases includeChecksum with
    | false =>
      show armorLines true (splitLines (armorEnd ++ ['\n'])) = []
      rw [hend, hstop]
    | true =>
      have hchecksum : ∀ c ∈ '=' :: b64encode (toBytes 3 (crc24 data)), isLineBreak c = false ∧ isSpace c = false :=
        List.forall_mem_cons.2 ⟨by decide, fun c hc => ⟨(b64encode_plain _ c hc).1, (b64encode_plain _ c hc).2.1⟩⟩
      rw [if_pos rfl, List.append_assoc, List.singleton_append, splitLines_append fun c hc => (hchecksum c hc).1, hend,
        armorLines_checksum fun c hc => (hchecksum c hc).2, hstop]
  have hnotEnd : ¬ "-----END".toList <+: b64encode data := by
    rintro ⟨t, ht⟩
    exact (hplain '-' (by rw [← ht]; exact List.mem_cons_self)).2.2 rfl
  have hnotPad : ¬ ['='] <+: b64encode data := by
    rintro ⟨t, ht⟩
    exact head?_b64encode_ne data (by rw [← ht]; rfl)
  have hlines : ∀ rest, splitLines (armorBegin ++ '\n' :: ([] ++ '\n' :: (b64encode data ++ '\n' :: rest))) =
      armorBegin :: [] :: b64encode data :: splitLines rest := by
    intro rest
    rw [splitLines_append hbegin, splitLines_append fun c hc => absurd hc List.not_mem_nil,
      splitLines_append fun c hc => (hplain c hc).1]
  have hdata : armorLines false (splitLines (lineArmor data includeChecksum)).tail = [b64encode data] := by
    rw [lineArmor, hlines, List.tail_cons, armorLines_blank, armorLines_data (fun c hc => (hplain c hc).2.1) hnotEnd hnotPad, htail]
  rw [dearmored, hdata, List.flatten_singleton, b64decode_b64encode]
  rfl

end Pgp

end TrustedReleases
