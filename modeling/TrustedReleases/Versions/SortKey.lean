import TrustedReleases.Catalogue.Rows
import TrustedReleases.Lib.Except
import TrustedReleases.Lib.Numeral
import TrustedReleases.Lib.OrderedCode

/-!
# The keys that versions are sorted by

`version_sort_key` writes every run of digits as its length without leading zeros, its digits and the number of its
leading zeros, and every other character as it is (`atr/util.py`).  The keys are bytes without separators; they are
ordered as the versions are, piece by piece, and differ for different versions (`versionSortKey_embedding`).
-/

namespace TrustedReleases

open Lib

namespace Versions

/-! ### The source -/

/-- An `OverflowError` of `to_bytes`, or the `ValueError` of `bytes`. -/
inductive SortKeyError where
  | overflow
  | notByte
  deriving DecidableEq, Repr

/-- `digit_count.to_bytes(2)` -/
def lengthBytes (digitCount : Nat) : Except SortKeyError Bytes :=
  if digitCount < 2 ^ 16 then .ok (toBytes 2 digitCount) else .error .overflow

/-- An element of `bytes(result)`. -/
def asByte (n : Nat) : Except SortKeyError Byte := if n < 256 then .ok (byte n) else .error .notByte

def utf8 (c : Char) : List Nat := (String.utf8EncodeChar c).map UInt8.toNat

/-- The loop of `version_sort_key`, with fuel for one piece a character. -/
def sortKeyFrom : (fuel : Nat) → Str → Except SortKeyError (List Nat)
  | 0, _ => .ok []
  | _ + 1, [] => .ok []
  | fuel + 1, c :: rest =>
    if c.isDigit then do
      let digitSequence := (c :: rest).takeWhile Char.isDigit
      let stripped := stripZeros digitSequence
      let length ← lengthBytes stripped.length
      let result ← sortKeyFrom fuel ((c :: rest).dropWhile Char.isDigit)
      .ok (length.map Fin.val ++ stripped.flatMap utf8 ++ [leadingZeros digitSequence] ++ result)
    else do
      let result ← sortKeyFrom fuel rest
      .ok (utf8 c ++ result)

/-- `version_sort_key` -/
def versionSortKey (version : Str) : Except SortKeyError Bytes := do
  let result ← sortKeyFrom version.length version
  result.mapM asByte

/-! ### The pieces of a version -/

/-- A run of digits, or another character. -/
inductive Piece where
  | digits (run : Str)
  | other (c : Char)
  deriving DecidableEq, Repr

def pieces : Str → List Piece
  | [] => []
  | c :: rest =>
    if c.isDigit then
      match pieces rest with
      | .digits run :: ps => .digits (c :: run) :: ps
      | ps => .digits [c] :: ps
    else .other c :: pieces rest

/-- Runs of digits are in the order of their numbers and then of their leading zeros, and before all other characters. -/
def Piece.Before : Piece → Piece → Prop
  | .digits a, .digits b => numeral a < numeral b ∨ (numeral a = numeral b ∧ leadingZeros a < leadingZeros b)
  | .digits _, .other _ => True
  | .other _, .digits _ => False
  | .other c, .other d => c.toNat < d.toNat

def Piece.text : Piece → Str
  | .digits run => run
  | .other c => [c]

private theorem pieces_text (s : Str) : (pieces s).flatMap Piece.text = s := by
  induction s with
  | nil => rfl
  | cons c rest ih =>
    unfold pieces
    by_cases hc : c.isDigit = true
    · rw [if_pos hc]
      split
      · rename_i run ps heq
        rw [heq, List.flatMap_cons] at ih
        rw [List.flatMap_cons]
        exact congrArg (c :: ·) ih
      · rw [List.flatMap_cons, ih]
        rfl
    · rw [if_neg hc, List.flatMap_cons, ih]
      rfl

private theorem pieces_other {c : Char} {rest : Str} (hc : c.isDigit ≠ true) :
    pieces (c :: rest) = .other c :: pieces rest := by
  rw [pieces, if_neg hc]

/-- A run of digits is as long as possible. -/
private theorem pieces_digits {c : Char} {rest : Str} (hc : c.isDigit = true) :
    pieces (c :: rest) = .digits (c :: rest.takeWhile Char.isDigit) :: pieces (rest.dropWhile Char.isDigit) := by
  induction rest generalizing c with
  | nil => simp [pieces, hc]
  | cons d rest ih =>
    rw [pieces, if_pos hc]
    by_cases hd : d.isDigit = true
    · rw [ih hd, List.takeWhile_cons_of_pos hd, List.dropWhile_cons_of_pos hd]
    · rw [pieces_other hd, List.takeWhile_cons_of_neg hd, List.dropWhile_cons_of_neg hd, pieces_other hd]

/-- What the pieces of an admitted version are. -/
def Piece.Valid : Piece → Prop
  | .digits run => IsDigits run ∧ run.length ≤ 128
  | .other c => Catalogue.isVersionChar c = true ∧ c.isDigit ≠ true

private theorem pieces_valid {s : Str} (hchars : ∀ c ∈ s, Catalogue.isVersionChar c = true) (hlength : s.length ≤ 128) :
    ∀ p ∈ pieces s, p.Valid := by
  have hsound : ∀ p ∈ pieces s, (∀ c ∈ p.text, c ∈ s) ∧ p.text.length ≤ s.length := by
    intro p hp
    have hsublist : p.text.Sublist s := by
      have hpart := List.sublist_flatten_of_mem (List.mem_map_of_mem (f := Piece.text) hp)
      rwa [← List.flatMap_def, pieces_text] at hpart
    exact ⟨fun c hc => hsublist.subset hc, hsublist.length_le⟩
  have hkind : ∀ p ∈ pieces s, (∀ run, p = .digits run → IsDigits run) ∧ ∀ c, p = .other c → c.isDigit ≠ true := by
    clear hchars hlength hsound
    induction s with
    | nil => intro p hp; cases hp
    | cons c rest ih =>
      intro p hp
      by_cases hc : c.isDigit = true
      · rw [pieces, if_pos hc] at hp
        split at hp
        · rename_i run ps heq
          rcases List.mem_cons.1 hp with rfl | hp
          · have hrun := (ih (.digits run) (by rw [heq]; exact List.mem_cons_self)).1 run rfl
            refine ⟨fun _ h => ?_, fun _ h => (by cases h)⟩
            rw [← Piece.digits.inj h, isDigits_cons]
            exact ⟨hc, hrun⟩
          · exact ih p (by rw [heq]; exact List.mem_cons_of_mem _ hp)
        · rcases List.mem_cons.1 hp with rfl | hp
          · refine ⟨fun _ h => ?_, fun _ h => (by cases h)⟩
            rw [← Piece.digits.inj h, isDigits_cons]
            exact ⟨hc, fun _ h => (by cases h)⟩
          · exact ih p hp
      · rw [pieces_other hc] at hp
        rcases List.mem_cons.1 hp with rfl | hp
        · refine ⟨fun _ h => (by cases h), fun _ h => ?_⟩
          rw [← Piece.other.inj h]
          exact hc
        · exact ih p hp
  intro p hp
  cases p with
  | digits run => exact ⟨(hkind _ hp).1 run rfl, (hsound _ hp).2.trans hlength⟩
  | other c => exact ⟨hchars c ((hsound _ hp).1 c List.mem_cons_self), (hkind _ hp).2 c rfl⟩

/-! ### The code of a piece -/

def Piece.code : Piece → Bytes
  | .digits run => toBytes 2 (stripZeros run).length ++ ascii (stripZeros run) ++ [byte (leadingZeros run)]
  | .other c => ascii [c]

private theorem ascii_diverges {s t : Str} (hlength : s.length = t.length) (hs : IsDigits s) (ht : IsDigits t)
    (h : numeral s < numeral t) : Diverges (ascii s) (ascii t) := by
  refine (numeral_diverges hlength hs ht h).map fun c hc d hd hlt => ?_
  have hcbounds := digit_bounds (hs c hc)
  have hdbounds := digit_bounds (ht d hd)
  have hnat : c.toNat < d.toNat := hlt
  show c.toNat % 256 < d.toNat % 256
  omega

private theorem toBytes_two {n : Nat} (h : n ≤ 128) : toBytes 2 n = [byte 0, byte n] := by
  have hzero : n / 256 = 0 := by omega
  simp [toBytes, hzero]

private theorem stripZeros_length_le (run : Str) : (stripZeros run).length ≤ run.length := List.length_dropWhile_le ..

private theorem leadingZeros_le (run : Str) : leadingZeros run ≤ run.length := (List.takeWhile_prefix _).length_le

private theorem code_diverges {a b : Str} (ha : IsDigits a) (hb : IsDigits b) (halength : a.length ≤ 128)
    (hblength : b.length ≤ 128) (h : numeral a < numeral b ∨ (numeral a = numeral b ∧ leadingZeros a < leadingZeros b)) :
    Diverges (Piece.digits a).code (Piece.digits b).code := by
  have hastrip := stripZeros_length_le a
  have hbstrip := stripZeros_length_le b
  simp only [Piece.code]
  rcases h with hlt | ⟨heq, hzeros⟩
  · rcases Nat.lt_trichotomy (stripZeros a).length (stripZeros b).length with hshort | hsame | hlong
    · -- the shorter numeral has the lesser length
      rw [toBytes_two (by omega), toBytes_two (by omega), List.append_assoc, List.append_assoc]
      refine Diverges.append_right ?_ _ _
      refine Diverges.append_left (.head ?_ [] []) [byte 0]
      show (stripZeros a).length % 256 < (stripZeros b).length % 256
      omega
    · rw [← numeral_stripZeros a, ← numeral_stripZeros b] at hlt
      have hdigits := ascii_diverges hsame (isDigits_stripZeros ha) (isDigits_stripZeros hb) hlt
      rw [hsame]
      exact (hdigits.append_left _).append_right _ _
    · have hgt := numeral_lt_of_length hb ha hlong
      omega
  · rw [(numeral_eq_iff ha hb).1 heq]
    refine Diverges.append_left (.head ?_ [] []) _
    have hale := leadingZeros_le a
    have hble := leadingZeros_le b
    show leadingZeros a % 256 < leadingZeros b % 256
    omega

private theorem isVersionChar_bounds {c : Char} (h : Catalogue.isVersionChar c = true) :
    43 ≤ c.toNat ∧ c.toNat < 128 := by
  simp only [Catalogue.isVersionChar, Catalogue.isAlphanum, Char.isAlphanum, Char.isAlpha, Char.isUpper, Char.isLower,
    Char.isDigit, Bool.or_eq_true, Bool.and_eq_true, decide_eq_true_eq, beq_iff_eq, ge_iff_le,
    UInt32.le_iff_toNat_le] at h
  change (((((65 ≤ c.toNat ∧ c.toNat ≤ 90) ∨ (97 ≤ c.toNat ∧ c.toNat ≤ 122)) ∨ (48 ≤ c.toNat ∧ c.toNat ≤ 57)) ∨
    c = '-') ∨ c = '.') ∨ c = '+' at h
  rcases h with (((h | h) | rfl) | rfl) | rfl
  · omega
  · omega
  · decide
  · decide
  · decide

/-- The codes of pieces are in the order of the pieces, and two different ones differ before they end. -/
private theorem orderedCode : OrderedCode Piece.Valid Piece.Before Piece.code where
  nonempty := by
    intro p hp
    cases p with
    | digits run => simp [Piece.code]
    | other c => simp [Piece.code, ascii]
  diverges := by
    intro p q hp hq hbefore
    cases p with
    | digits a =>
      cases q with
      | digits b => exact code_diverges hp.1 hq.1 hp.2 hq.2 hbefore
      | other c =>
        have hstrip := stripZeros_length_le a
        have hlength := hp.2
        have hbounds := isVersionChar_bounds hq.1
        rw [Piece.code, toBytes_two (by omega)]
        refine .head ?_ _ []
        show 0 < c.toNat % 256
        omega
    | other c =>
      cases q with
      | digits b => exact hbefore.elim
      | other d =>
        have hc := isVersionChar_bounds hp.1
        have hd := isVersionChar_bounds hq.1
        have hlt : c.toNat < d.toNat := hbefore
        refine .head ?_ [] []
        show c.toNat % 256 < d.toNat % 256
        omega
  total := by
    intro p q hp hq hne
    cases p with
    | digits a =>
      cases q with
      | digits b =>
        rcases Nat.lt_trichotomy (numeral a) (numeral b) with hlt | heq | hgt
        · exact .inl (.inl hlt)
        · rcases Nat.lt_trichotomy (leadingZeros a) (leadingZeros b) with hlt | hzeros | hgt
          · exact .inl (.inr ⟨heq, hlt⟩)
          · refine absurd ?_ hne
            rw [← replicate_leadingZeros a, ← replicate_leadingZeros b, hzeros, (numeral_eq_iff hp.1 hq.1).1 heq]
          · exact .inr (.inr ⟨heq.symm, hgt⟩)
        · exact .inr (.inl hgt)
      | other c => exact .inl trivial
    | other c =>
      cases q with
      | digits b => exact .inr trivial
      | other d =>
        rcases Nat.lt_trichotomy c.toNat d.toNat with hlt | heq | hgt
        · exact .inl hlt
        · exact absurd (by rw [Char.toNat_inj.1 heq]) hne
        · exact .inr hgt

/-! ### The key of a version -/

private theorem utf8_ascii {c : Char} (h : c.toNat < 128) : utf8 c = (ascii [c]).map Fin.val := by
  have hsize : String.utf8EncodeChar c = [UInt8.ofNat c.toNat] := if_pos (Nat.le_of_lt_succ h)
  rw [utf8, hsize]
  rfl

private theorem flatMap_utf8 {s : Str} (h : ∀ c ∈ s, c.toNat < 128) : s.flatMap utf8 = (ascii s).map Fin.val := by
  induction s with
  | nil => rfl
  | cons c s ih =>
    rw [List.forall_mem_cons] at h
    rw [List.flatMap_cons, ih h.2, utf8_ascii h.1]
    rfl

private theorem asByte_val (bs : Bytes) : (bs.map Fin.val).mapM asByte = .ok bs := by
  induction bs with
  | nil => rfl
  | cons b bs ih =>
    have hbyte : asByte b.val = .ok b := by
      have hval : byte b.val = b := Fin.ofNat_val_eq_self b
      rw [asByte, if_pos b.isLt, hval]
    rw [List.map_cons, List.mapM_cons, hbyte, ih]
    rfl

/-- The loop writes the codes of the pieces one after the other. -/
private theorem sortKeyFrom_eq {fuel : Nat} {s : Str} (hfuel : s.length ≤ fuel)
    (hchars : ∀ c ∈ s, Catalogue.isVersionChar c = true) (hlength : s.length ≤ 128) :
    sortKeyFrom fuel s = .ok (((pieces s).flatMap Piece.code).map Fin.val) := by
  induction fuel generalizing s with
  | zero =>
    rw [List.length_eq_zero_iff.1 (Nat.le_zero.1 hfuel)]
    rfl
  | succ fuel ih =>
    cases s with
    | nil => rfl
    | cons c rest =>
      have hascii : ∀ d ∈ c :: rest, d.toNat < 128 := fun d hd => (isVersionChar_bounds (hchars d hd)).2
      by_cases hc : c.isDigit = true
      · have hrest : sortKeyFrom fuel (rest.dropWhile Char.isDigit) =
            .ok (((pieces (rest.dropWhile Char.isDigit)).flatMap Piece.code).map Fin.val) := by
          have hle := List.length_dropWhile_le Char.isDigit rest
          rw [List.length_cons] at hfuel hlength
          refine ih (by omega) (fun d hd => hchars d ?_) (by omega)
          exact List.mem_cons_of_mem c ((List.dropWhile_sublist _).subset hd)
        have hrun : (c :: rest.takeWhile Char.isDigit).length ≤ 128 := by
          have hle := (List.takeWhile_prefix (l := rest) Char.isDigit).length_le
          rw [List.length_cons] at hlength ⊢
          omega
        have hstrip := stripZeros_length_le (c :: rest.takeWhile Char.isDigit)
        have hzeros := leadingZeros_le (c :: rest.takeWhile Char.isDigit)
        have hsubset : ∀ d ∈ stripZeros (c :: rest.takeWhile Char.isDigit), d.toNat < 128 := by
          intro d hd
          have hmem := (List.dropWhile_sublist _).subset hd
          have hinitial : (c :: rest.takeWhile Char.isDigit) <+: c :: rest := by
            rw [List.cons_prefix_cons]
            exact ⟨rfl, List.takeWhile_prefix _⟩
          exact hascii d (hinitial.subset hmem)
        have hcount : lengthBytes (stripZeros (c :: rest.takeWhile Char.isDigit)).length =
            .ok (toBytes 2 (stripZeros (c :: rest.takeWhile Char.isDigit)).length) :=
          if_pos (by omega)
        rw [sortKeyFrom, if_pos hc, List.takeWhile_cons_of_pos hc, List.dropWhile_cons_of_pos hc]
        simp only []
        rw [hcount, ok_bind, hrest, ok_bind, flatMap_utf8 hsubset, pieces_digits hc, List.flatMap_cons, Piece.code]
        have hmod : leadingZeros (c :: rest.takeWhile Char.isDigit) % 256 =
            leadingZeros (c :: rest.takeWhile Char.isDigit) :=
          Nat.mod_eq_of_lt (by omega)
        simp [hmod]
      · rw [List.forall_mem_cons] at hchars hascii
        rw [List.length_cons] at hfuel hlength
        rw [sortKeyFrom, if_neg hc, ih (by omega) hchars.2 (by omega), ok_bind, utf8_ascii hascii.1, pieces_other hc,
          List.flatMap_cons, Piece.code, List.map_append]

/-- The key does not fail. -/
private theorem versionSortKey_eq (v : Catalogue.VersionKey) :
    versionSortKey v.1 = .ok ((pieces v.1).flatMap Piece.code) := by
  obtain ⟨-, hchars, hlength, -⟩ := v.2
  rw [versionSortKey, sortKeyFrom_eq le_rfl (List.all_eq_true.1 hchars) hlength, ok_bind, asByte_val]

/-- The keys of admitted versions are ordered as the versions are, and differ for different versions. -/
theorem versionSortKey_embedding (u v : Catalogue.VersionKey) : ∃ ku kv, versionSortKey u.1 = .ok ku ∧
    versionSortKey v.1 = .ok kv ∧ (ku = kv → u = v) ∧ (ku < kv ↔ List.Lex Piece.Before (pieces u.1) (pieces v.1)) := by
  have hvalid : ∀ w : Catalogue.VersionKey, ∀ p ∈ pieces w.1, p.Valid := by
    intro w
    obtain ⟨-, hchars, hlength, -⟩ := w.2
    exact pieces_valid (List.all_eq_true.1 hchars) hlength
  refine ⟨_, _, versionSortKey_eq u, versionSortKey_eq v, fun heq => ?_, orderedCode.flatMap_lt_iff (hvalid u) (hvalid v)⟩
  have hpieces := orderedCode.flatMap_inj (hvalid u) (hvalid v) heq
  refine Subtype.ext ?_
  rw [← pieces_text u.1, ← pieces_text v.1, hpieces]

end Versions

end TrustedReleases
