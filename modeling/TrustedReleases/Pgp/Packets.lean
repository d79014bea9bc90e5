import TrustedReleases.Lib.Bytes
import TrustedReleases.Lib.Except

/-!
# OpenPGP packets

The frames of an OpenPGP certificate, packets with their tags and bodies, and their framing (`atr/pgp.py`).  Packets
are read in the old and the new format and written in the new one (`framed`), which is read back (`frames_framed`).
-/

namespace TrustedReleases

open Lib

namespace Pgp

instance neZeroTags : NeZero 64 := ⟨by decide⟩

/-- A packet: a tag of six bits and a body whose length fits into four bytes. -/
@[ext]
structure Frame where
  tag : Fin 64
  body : Bytes
  short : body.length < 2 ^ 32
  deriving DecidableEq, Repr

/-- The errors of the module, and those of the packages that it calls. -/
inductive Error where
  | invalidMarker (ctb : Byte) (offset : Nat)
  | partialLength (offset : Nat)
  | indeterminateLength (offset : Nat)
  | truncatedHeader (offset : Nat)
  | truncatedPacket (offset : Nat)
  | tooManyPackets (limit : Nat)
  | neverCarried
  | noPrimary
  | extraPrimary
  | onePrimary
  | anotherPrimary
  | notPublicKey
  | noSharedPrimary
  | noBlocks
  | blockNoPrimary
  | blockSeveral
  | differentPrimaries
  | emptyPrimary
  | armorNoPrimary
  | armor
  | openpgp
  deriving DecidableEq, Repr

/-- The texts of the errors that the module raises itself, given the text of a number in hexadecimal. -/
def Error.message (hex : Nat → String) : Error → Option String
  | invalidMarker ctb offset => some s!"Invalid packet marker {hex ctb.val} at offset {offset}"
  | partialLength offset => some s!"Partial packet length at offset {offset}"
  | indeterminateLength offset => some s!"Indeterminate packet length at offset {offset}"
  | truncatedHeader offset => some s!"Truncated packet header at offset {offset}"
  | truncatedPacket offset => some s!"Truncated packet at offset {offset}"
  | tooManyPackets limit => some s!"More than {limit} packets in one block"
  | neverCarried => some "The fragment holds a packet which fragments never carry"
  | noPrimary => some "The fragment does not begin with a primary key packet"
  | extraPrimary => some "The fragment holds a primary key packet it may not carry"
  | onePrimary => some "A fragment must hold exactly one primary key packet"
  | anotherPrimary => some "The fragment holds another primary key"
  | notPublicKey => some "The primary packet is not a public key"
  | noSharedPrimary => some "The states do not share one primary key"
  | noBlocks => some "No certificate blocks to merge"
  | blockNoPrimary => some "The block does not begin with a primary key packet"
  | blockSeveral => some "The block holds more than one certificate"
  | differentPrimaries => some "The blocks hold different primary keys"
  | emptyPrimary => some "The primary key packet is empty"
  | armorNoPrimary => some "The block contains no primary key packet"
  | armor => none
  | openpgp => none

/-! ### Writing -/

/-- The header that `_framed` puts before a body. -/
def Frame.header (f : Frame) : Bytes :=
  if f.body.length < 192 then [byte (192 + f.tag.val), byte f.body.length]
  else if f.body.length < 8384 then
    [byte (192 + f.tag.val), byte ((f.body.length - 192) / 256 + 192), byte ((f.body.length - 192) % 256)]
  else [byte (192 + f.tag.val), byte 255] ++ toBytes 4 f.body.length

/-- `_framed`. -/
def framed (f : Frame) : Bytes := f.header ++ f.body

/-! ### Reading -/

/-- `_octets`. -/
def octets (data : Bytes) (offset count : Nat) : Except Error {taken : Bytes // taken.length = count} :=
  if h : ((data.drop offset).take count).length = count then .ok ⟨(data.drop offset).take count, h⟩
  else .error (.truncatedHeader offset)

/-- What the header of a packet says: its tag, the length of the body and its own size. -/
structure Header where
  tag : Fin 64
  length : Nat
  size : Nat
  short : length < 2 ^ 32
  positive : 0 < size

/-- A number of at most four bytes is short. -/
private theorem octets_short {count : Nat} (h : count ≤ 4) (taken : {taken : Bytes // taken.length = count}) :
    fromBytes taken.1 < 2 ^ 32 := by
  have hlt := fromBytes_lt taken.1
  rw [taken.2] at hlt
  calc fromBytes taken.1 < 256 ^ count := hlt
    _ ≤ 256 ^ 4 := Nat.pow_le_pow_right (by decide) h
    _ = 2 ^ 32 := rfl

/-- The header of a packet in the new format. -/
def newHeader (data : Bytes) (offset : Nat) (ctb : Byte) : Except Error Header := do
  let first ← octets data (offset + 1) 1
  if h₁ : fromBytes first.1 < 192 then
    return ⟨Fin.ofNat 64 ctb.val, fromBytes first.1, 2, by omega, by decide⟩
  else if h₂ : fromBytes first.1 < 224 then do
    let second ← octets data (offset + 2) 1
    return ⟨Fin.ofNat 64 ctb.val, (fromBytes first.1 - 192) * 256 + fromBytes second.1 + 192, 3, by
      have hsecond := fromBytes_lt second.1
      rw [second.2] at hsecond
      omega, by decide⟩
  else if fromBytes first.1 = 255 then do
    let four ← octets data (offset + 2) 4
    return ⟨Fin.ofNat 64 ctb.val, fromBytes four.1, 6, octets_short (Nat.le_refl 4) four, by decide⟩
  else .error (.partialLength offset)

/-- The header of a packet in the old format. -/
def oldHeader (data : Bytes) (offset : Nat) (ctb : Byte) : Except Error Header := do
  raiseIf (ctb.val % 4 = 3) (.indeterminateLength offset)
  let sizes := if ctb.val % 4 = 0 then 1 else if ctb.val % 4 = 1 then 2 else 4
  let length ← octets data (offset + 1) sizes
  have hsizes : sizes ≤ 4 := by
    simp only [sizes]
    split_ifs <;> omega
  return ⟨Fin.ofNat 64 (ctb.val / 4 % 16), fromBytes length.1, 1 + sizes, octets_short hsizes length, by omega⟩

def packetHeader (data : Bytes) (offset : Nat) (ctb : Byte) : Except Error Header := do
  raiseIf (ctb.val / 128 % 2 = 0) (.invalidMarker ctb offset)
  if ctb.val / 64 % 2 = 1 then newHeader data offset ctb else oldHeader data offset ctb

/-- Where a packet lies: its start, and the start and the end of its body. -/
structure FrameOffset where
  tag : Fin 64
  start : Nat
  body : Nat
  stop : Nat
  short : stop - body < 2 ^ 32

/-- Where the packet with a header at an offset lies. -/
def Header.frameOffset (header : Header) (offset : Nat) : FrameOffset :=
  ⟨header.tag, offset, offset + header.size, offset + header.size + header.length, by
    rw [Nat.add_sub_cancel_left]
    exact header.short⟩

/-- The loop of `_frame_offsets`, with fuel for one packet a byte. -/
def frameOffsetsFrom (data : Bytes) (limit : Option Nat) : (fuel found offset : Nat) → Except Error (List FrameOffset)
  | 0, _, _ => .ok []
  | fuel + 1, found, offset =>
    match data[offset]? with
    | none => .ok []
    | some ctb => do
      raiseIf (limit = some found) (.tooManyPackets found)
      let header ← packetHeader data offset ctb
      let o := header.frameOffset offset
      raiseIf (data.length < o.stop) (.truncatedPacket offset)
      let rest ← frameOffsetsFrom data limit fuel (found + 1) o.stop
      return o :: rest

/-- `_frame_offsets`. -/
def frameOffsets (data : Bytes) (limit : Option Nat) : Except Error (List FrameOffset) :=
  frameOffsetsFrom data limit data.length 0 0

/-- The packet at an offset. -/
def FrameOffset.frame (data : Bytes) (o : FrameOffset) : Frame :=
  ⟨o.tag, slice o.body o.stop data, Nat.lt_of_le_of_lt (slice_length_le o.body o.stop data) o.short⟩

/-- `_frames`. -/
def frames (data : Bytes) : Except Error (List Frame) := do
  let offsets ← frameOffsets data none
  return offsets.map (FrameOffset.frame data)

/-! ### Reading what was written -/

private theorem octets_of_drop {data : Bytes} {offset : Nat} (before bs tail : Bytes)
    (h : data.drop offset = before ++ bs ++ tail) :
    octets data (offset + before.length) bs.length = .ok ⟨bs, rfl⟩ := by
  have htaken : (data.drop (offset + before.length)).take bs.length = bs := by
    rw [← List.drop_drop, h, List.append_assoc, List.drop_left, List.take_left]
  unfold octets
  simp only [htaken, dif_pos]

private theorem framed_marker (tag : Fin 64) :
    (byte (192 + tag.val)).val / 128 % 2 = 1 ∧ (byte (192 + tag.val)).val / 64 % 2 = 1 ∧
      Fin.ofNat 64 (byte (192 + tag.val)).val = tag := by
  revert tag
  decide

private theorem fromBytes_single (b : Byte) : fromBytes [b] = b.val := by
  simp [fromBytes]

/-- The header of a packet is read back. -/
private theorem newHeader_framed (f : Frame) (ctb : Byte) {data rest : Bytes} {offset : Nat}
    (h : data.drop offset = framed f ++ rest) :
    ∃ header, newHeader data offset ctb = .ok header ∧ header.tag = Fin.ofNat 64 ctb.val ∧
      header.length = f.body.length ∧ header.size = f.header.length := by
  have hlength := f.short
  unfold framed at h
  unfold Frame.header at h ⊢
  unfold newHeader
  by_cases h₁ : f.body.length < 192
  · rw [if_pos h₁] at h ⊢
    have hfirst : octets data (offset + 1) 1 = .ok ⟨[byte f.body.length], rfl⟩ :=
      octets_of_drop [byte (192 + f.tag.val)] [byte f.body.length] (f.body ++ rest) (by rw [h]; rfl)
    have hvalue : fromBytes [byte f.body.length] = f.body.length := by
      rw [fromBytes_single, byte_val]
      omega
    simp only [hfirst, ok_bind, hvalue, dif_pos h₁]
    exact ⟨_, rfl, rfl, rfl, rfl⟩
  · rw [if_neg h₁] at h ⊢
    by_cases h₂ : f.body.length < 8384
    · rw [if_pos h₂] at h ⊢
      have hfirst : octets data (offset + 1) 1 = .ok ⟨[byte ((f.body.length - 192) / 256 + 192)], rfl⟩ :=
        octets_of_drop [byte (192 + f.tag.val)] [byte ((f.body.length - 192) / 256 + 192)]
          (byte ((f.body.length - 192) % 256) :: (f.body ++ rest)) (by rw [h]; rfl)
      have hsecond : octets data (offset + 2) 1 = .ok ⟨[byte ((f.body.length - 192) % 256)], rfl⟩ :=
        octets_of_drop [byte (192 + f.tag.val), byte ((f.body.length - 192) / 256 + 192)]
          [byte ((f.body.length - 192) % 256)] (f.body ++ rest) (by rw [h]; rfl)
      have hvalue : fromBytes [byte ((f.body.length - 192) / 256 + 192)] = (f.body.length - 192) / 256 + 192 := by
        rw [fromBytes_single, byte_val]
        omega
      have hvalue' : fromBytes [byte ((f.body.length - 192) % 256)] = (f.body.length - 192) % 256 := by
        rw [fromBytes_single, byte_val]
        omega
      have hnot : ¬ (f.body.length - 192) / 256 + 192 < 192 := by omega
      have hlt : (f.body.length - 192) / 256 + 192 < 224 := by omega
      simp only [hfirst, hsecond, ok_bind, hvalue, hvalue', dif_neg hnot, dif_pos hlt]
      refine ⟨_, rfl, rfl, ?_, rfl⟩
      show ((f.body.length - 192) / 256 + 192 - 192) * 256 + (f.body.length - 192) % 256 + 192 = f.body.length
      omega
    · rw [if_neg h₂] at h ⊢
      have hfirst : octets data (offset + 1) 1 = .ok ⟨[byte 255], rfl⟩ :=
        octets_of_drop [byte (192 + f.tag.val)] [byte 255]
          (toBytes 4 f.body.length ++ f.body ++ rest) (by rw [h]; rfl)
      have hfour : octets data (offset + 2) 4 = .ok ⟨toBytes 4 f.body.length, rfl⟩ :=
        octets_of_drop [byte (192 + f.tag.val), byte 255] (toBytes 4 f.body.length)
          (f.body ++ rest) (by rw [h, List.append_assoc, List.append_assoc])
      have hvalue : fromBytes [byte 255] = 255 := rfl
      have hnot₁ : ¬ (255 : Nat) < 192 := by decide
      have hnot₂ : ¬ (255 : Nat) < 224 := by decide
      simp only [hfirst, hfour, ok_bind, hvalue, dif_neg hnot₁, dif_neg hnot₂, if_pos]
      exact ⟨_, rfl, rfl, fromBytes_toBytes hlength, rfl⟩

private theorem packetHeader_framed (f : Frame) {data rest : Bytes} {offset : Nat}
    (h : data.drop offset = framed f ++ rest) :
    ∃ header, data[offset]? = some (byte (192 + f.tag.val)) ∧
      packetHeader data offset (byte (192 + f.tag.val)) = .ok header ∧ header.tag = f.tag ∧
      header.length = f.body.length ∧ header.size = f.header.length := by
  obtain ⟨hnew, hformat, htag⟩ := framed_marker f.tag
  obtain ⟨header, hheader, htag', hlength, hsize⟩ := newHeader_framed f (byte (192 + f.tag.val)) h
  refine ⟨header, ?_, ?_, by rw [htag', htag], hlength, hsize⟩
  · have hzero : data[offset]? = (data.drop offset)[0]? := by rw [List.getElem?_drop, Nat.add_zero]
    have hfirst : (framed f)[0]? = some (byte (192 + f.tag.val)) := by
      unfold framed Frame.header
      split_ifs <;> rfl
    have hpos : 0 < (framed f).length := by
      by_contra hnot
      rw [List.getElem?_eq_none (Nat.le_of_not_lt hnot)] at hfirst
      cases hfirst
    rw [hzero, h, List.getElem?_append_left hpos, hfirst]
  · unfold packetHeader
    rw [raiseIf_bind_eq_ok]
    exact ⟨by omega, by rw [if_pos hformat, hheader]⟩

private theorem framed_length (f : Frame) : (framed f).length = f.header.length + f.body.length := List.length_append

/-- The packets that follow some bytes are read back. -/
private theorem frameOffsetsFrom_framed (fs : List Frame) (data before : Bytes) (found fuel : Nat)
    (hdata : data = before ++ fs.flatMap framed) (hfuel : data.length ≤ before.length + fuel) :
    ∃ offsets, frameOffsetsFrom data none fuel found before.length = .ok offsets ∧
      offsets.map (FrameOffset.frame data) = fs := by
  induction fs generalizing before found fuel with
  | nil =>
    have hend : data.length ≤ before.length := by simp [hdata]
    refine ⟨[], ?_, rfl⟩
    cases fuel with
    | zero => rfl
    | succ fuel => simp [frameOffsetsFrom, List.getElem?_eq_none hend]
  | cons f fs ih =>
    have hdrop : data.drop before.length = framed f ++ fs.flatMap framed := by
      rw [hdata, List.drop_left, List.flatMap_cons]
    obtain ⟨header, hctb, hheader, htag, hlength, hsize⟩ := packetHeader_framed f hdrop
    have hsplit : data = (before ++ framed f) ++ fs.flatMap framed := by
      rw [hdata, List.flatMap_cons, List.append_assoc]
    have hstop : (header.frameOffset before.length).stop = (before ++ framed f).length := by
      show before.length + header.size + header.length = (before ++ framed f).length
      rw [List.length_append, framed_length, hlength, hsize, Nat.add_assoc]
    have hframe : (header.frameOffset before.length).frame data = f := by
      refine Frame.ext htag ?_
      show slice (before.length + header.size) (before.length + header.size + header.length) data = f.body
      rw [hsize, hlength, hsplit, ← List.length_append, framed, ← List.append_assoc]
      exact slice_middle (before ++ f.header) f.body _
    have hgrow : before.length < (before ++ framed f).length := by
      have hpositive := header.positive
      rw [List.length_append, framed_length]
      omega
    have htotal : (before ++ framed f).length ≤ data.length := by
      have hlengths := congrArg List.length hsplit
      rw [List.length_append] at hlengths
      omega
    cases fuel with
    | zero => omega
    | succ fuel =>
      obtain ⟨offsets, hoffsets, hframes⟩ := ih (before ++ framed f) (found + 1) fuel hsplit (by omega)
      refine ⟨header.frameOffset before.length :: offsets, ?_, by rw [List.map_cons, hframe, hframes]⟩
      simp only [frameOffsetsFrom, hctb, hheader, ok_bind, raiseIf, reduceCtorEq, if_false, hstop,
        if_neg (Nat.not_lt_of_le htotal), hoffsets, pure_eq_ok]

/-- Packets are read back from their frames. -/
theorem frames_framed (fs : List Frame) : frames (fs.flatMap framed) = .ok fs := by
  obtain ⟨offsets, hoffsets, hframes⟩ := frameOffsetsFrom_framed fs (fs.flatMap framed) [] 0
    (fs.flatMap framed).length rfl (by simp)
  have hall : frameOffsets (fs.flatMap framed) none = .ok offsets := hoffsets
  unfold frames
  rw [hall, ok_bind, hframes]
  rfl

end Pgp

end TrustedReleases
