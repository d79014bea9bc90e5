import TrustedReleases.Pgp.Packets

/-!
# Reading packets

The packets of any bytes, of both formats, lie one after the other from the first byte to the last, if they can be read
(`frameOffsets_spec`).  So packets that were read or that are to be written are the same after they are framed and read
again (`framing_roundTrip`).
-/

namespace TrustedReleases

open Lib

namespace Pgp

/-- The errors that are a `ValueError` of the module itself while it reads packets. -/
def Error.IsValueError : Error → Prop
  | invalidMarker _ _ | partialLength _ | indeterminateLength _ | truncatedHeader _ | truncatedPacket _ => True
  | tooManyPackets _ => True
  | _ => False

/-- The packets lie one after the other from a first byte up to before a last one, and none is empty. -/
def Contiguous : Nat → List FrameOffset → Nat → Prop
  | first, [], last => first = last
  | first, o :: rest, last =>
    o.start = first ∧ o.start < o.body ∧ o.body ≤ o.stop ∧ Contiguous o.stop rest last

/-- The result is an error that is a `ValueError`, or satisfies the property. -/
def EndsWith {α : Type} (x : Except Error α) (P : α → Prop) : Prop :=
  (∃ e, x = .error e ∧ e.IsValueError) ∨ ∃ a, x = .ok a ∧ P a

theorem EndsWith.bind {α β : Type} {x : Except Error α} {f : α → Except Error β} {P : α → Prop} {Q : β → Prop}
    (h : EndsWith x P) (hf : ∀ a, x = .ok a → P a → EndsWith (f a) Q) : EndsWith (x >>= f) Q := by
  rcases h with ⟨e, he, hvalue⟩ | ⟨a, ha, hP⟩
  · refine .inl ⟨e, ?_, hvalue⟩
    rw [he, error_bind]
  · have hrest := hf a ha hP
    rwa [ha, ok_bind]

theorem EndsWith.raiseIf {p : Prop} [Decidable p] (e : Error) (he : e.IsValueError) :
    EndsWith (raiseIf p e) fun _ => ¬ p := by
  by_cases hp : p
  · exact .inl ⟨e, if_pos hp, he⟩
  · exact .inr ⟨(), if_neg hp, hp⟩

private theorem octets_spec (data : Bytes) (offset count : Nat) :
    EndsWith (octets data offset count) fun _ => True := by
  unfold octets
  by_cases h : ((data.drop offset).take count).length = count
  · rw [dif_pos h]
    exact .inr ⟨_, rfl, trivial⟩
  · rw [dif_neg h]
    exact .inl ⟨_, rfl, trivial⟩

private theorem newHeader_spec (data : Bytes) (offset : Nat) (ctb : Byte) :
    EndsWith (newHeader data offset ctb) fun _ => True := by
  unfold newHeader
  refine (octets_spec data (offset + 1) 1).bind fun first _ _ => ?_
  by_cases h₁ : fromBytes first.1 < 192
  · rw [dif_pos h₁]
    exact .inr ⟨_, rfl, trivial⟩
  · rw [dif_neg h₁]
    by_cases h₂ : fromBytes first.1 < 224
    · rw [dif_pos h₂]
      refine (octets_spec data (offset + 2) 1).bind fun second _ _ => ?_
      exact .inr ⟨_, rfl, trivial⟩
    · rw [dif_neg h₂]
      by_cases h₃ : fromBytes first.1 = 255
      · rw [if_pos h₃]
        refine (octets_spec data (offset + 2) 4).bind fun four _ _ => ?_
        exact .inr ⟨_, rfl, trivial⟩
      · rw [if_neg h₃]
        exact .inl ⟨_, rfl, trivial⟩

private theorem oldHeader_spec (data : Bytes) (offset : Nat) (ctb : Byte) :
    EndsWith (oldHeader data offset ctb) fun _ => True := by
  unfold oldHeader
  refine (EndsWith.raiseIf (.indeterminateLength offset) trivial).bind fun _ _ _ => ?_
  refine (octets_spec data (offset + 1) _).bind fun length _ _ => ?_
  exact .inr ⟨_, rfl, trivial⟩

private theorem packetHeader_spec (data : Bytes) (offset : Nat) (ctb : Byte) :
    EndsWith (packetHeader data offset ctb) fun _ => True := by
  unfold packetHeader
  refine (EndsWith.raiseIf (.invalidMarker ctb offset) trivial).bind fun _ _ _ => ?_
  by_cases hformat : ctb.val / 64 % 2 = 1
  · rw [if_pos hformat]
    exact newHeader_spec data offset ctb
  · rw [if_neg hformat]
    exact oldHeader_spec data offset ctb

/-- The loop reads packets one after the other up to the last byte, with fuel enough. -/
private theorem frameOffsetsFrom_spec {data : Bytes} {limit : Option Nat} {fuel found offset : Nat}
    (hfuel : data.length ≤ offset + fuel) (hoffset : offset ≤ data.length) :
    EndsWith (frameOffsetsFrom data limit fuel found offset) fun offsets => Contiguous offset offsets data.length := by
  induction fuel generalizing found offset with
  | zero =>
    have hend : offset = data.length := by omega
    exact .inr ⟨[], rfl, hend⟩
  | succ fuel ih =>
    cases hctb : data[offset]? with
    | none =>
      have hend : data.length ≤ offset := List.getElem?_eq_none_iff.1 hctb
      refine .inr ⟨[], ?_, Nat.le_antisymm hoffset hend⟩
      simp only [frameOffsetsFrom, hctb]
    | some ctb =>
      simp only [frameOffsetsFrom, hctb]
      refine (EndsWith.raiseIf (.tooManyPackets found) trivial).bind fun _ _ _ => ?_
      refine (packetHeader_spec data offset ctb).bind fun header _ _ => ?_
      refine (EndsWith.raiseIf (.truncatedPacket offset) trivial).bind fun _ _ hstop => ?_
      have hpositive := header.positive
      have hsize : (header.frameOffset offset).stop = offset + header.size + header.length := rfl
      have hrest := @ih (found + 1) (header.frameOffset offset).stop (by omega) (Nat.not_lt.1 hstop)
      refine hrest.bind fun offsets _ hcontiguous => .inr ⟨_, rfl, rfl, ?_, ?_, hcontiguous⟩
      · show offset < offset + header.size
        omega
      · show offset + header.size ≤ offset + header.size + header.length
        omega

/-- Bytes are refused with a `ValueError`, or are packets one after the other from the first byte to the last. -/
private theorem frameOffsets_spec (data : Bytes) (limit : Option Nat) :
    EndsWith (frameOffsets data limit) fun offsets => Contiguous 0 offsets data.length :=
  frameOffsetsFrom_spec (by omega) (Nat.zero_le _)

/-- Packets are read back from their frames; bytes are refused with a `ValueError` or are packets one after the other,
which are read back from the frames that they are written in. -/
theorem framing_roundTrip :
    (∀ fs : List Frame, frames (fs.flatMap framed) = .ok fs) ∧
      (∀ data limit, EndsWith (frameOffsets data limit) fun offsets => Contiguous 0 offsets data.length) ∧
      ∀ data, (frames data >>= fun fs => frames (fs.flatMap framed)) = frames data := by
  refine ⟨frames_framed, frameOffsets_spec, ?_⟩
  intro data
  cases h : frames data with
  | error e => exact error_bind e _
  | ok fs => exact frames_framed fs

/-- Two packets of the old format, and their frames in the new one. -/
example : frames [byte 0x88, byte 1, byte 7, byte 0x99, byte 0, byte 2, byte 8, byte 9] =
    .ok [⟨2, [byte 7], by decide⟩, ⟨6, [byte 8, byte 9], by decide⟩] := by
  rfl

end Pgp

end TrustedReleases
