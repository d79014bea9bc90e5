import TrustedReleases.Lib.Bytes
import TrustedReleases.Lib.OrderedCode

/-!
# Decimal numerals

The numbers that strings of decimal digits denote.  A numeral without leading zeros denotes a lesser number than another
exactly if it is shorter, or as long and before it from the left, and two of them that denote the same number are equal.
-/

namespace Lib

def digitValue (c : Char) : Nat := c.toNat - 48

/-- `int(s)`, of a string of digits. -/
def numeral (s : Str) : Nat := s.foldl (fun n c => n * 10 + digitValue c) 0

def IsDigits (s : Str) : Prop := ∀ c ∈ s, c.isDigit = true

instance IsDigits.decidable (s : Str) : Decidable (IsDigits s) :=
  decidable_of_iff (s.all Char.isDigit = true) List.all_eq_true

/-- `s.lstrip("0")` -/
def stripZeros (s : Str) : Str := s.dropWhile (· == '0')

/-- The number of zeros that a string begins with. -/
def leadingZeros (s : Str) : Nat := (s.takeWhile (· == '0')).length

theorem digit_bounds {c : Char} (h : c.isDigit = true) : 48 ≤ c.toNat ∧ c.toNat ≤ 57 := by
  simp only [Char.isDigit, Bool.and_eq_true, decide_eq_true_eq] at h
  exact ⟨h.1, h.2⟩

private theorem digitValue_le {c : Char} (h : c.isDigit = true) : digitValue c ≤ 9 := by
  have hbounds := digit_bounds h
  unfold digitValue
  omega

private theorem toNat_of_digit {c : Char} (h : c.isDigit = true) : c.toNat = digitValue c + 48 := by
  have hbounds := digit_bounds h
  unfold digitValue
  omega

private theorem digitValue_inj {c d : Char} (hc : c.isDigit = true) (hd : d.isDigit = true)
    (h : digitValue c = digitValue d) :
    c = d := by
  have hnat : c.toNat = d.toNat := by rw [toNat_of_digit hc, toNat_of_digit hd, h]
  exact Char.toNat_inj.1 hnat

private theorem digitValue_pos {c : Char} (hc : c.isDigit = true) (hne : c ≠ '0') : 0 < digitValue c := by
  rcases Nat.eq_zero_or_pos (digitValue c) with h | h
  · have hzero : digitValue c = digitValue '0' := h
    exact absurd (digitValue_inj hc (by decide) hzero) hne
  · exact h

theorem isDigits_cons {c : Char} {s : Str} : IsDigits (c :: s) ↔ c.isDigit = true ∧ IsDigits s := List.forall_mem_cons

theorem numeral_append (s : Str) (c : Char) : numeral (s ++ [c]) = numeral s * 10 + digitValue c := by
  simp [numeral]

theorem numeral_cons (c : Char) (s : Str) : numeral (c :: s) = digitValue c * 10 ^ s.length + numeral s := by
  induction s using List.reverseRecOn with
  | nil => simp [numeral]
  | append_singleton s d ih =>
    rw [← List.cons_append, numeral_append, ih, numeral_append, List.length_append, List.length_singleton, Nat.pow_succ]
    ring

theorem numeral_lt {s : Str} (h : IsDigits s) : numeral s < 10 ^ s.length := by
  induction s with
  | nil => exact Nat.one_pos
  | cons c s ih =>
    rw [isDigits_cons] at h
    have hrest := ih h.2
    have hdigit := digitValue_le h.1
    have hproduct : digitValue c * 10 ^ s.length ≤ 9 * 10 ^ s.length := Nat.mul_le_mul_right _ hdigit
    rw [numeral_cons, List.length_cons, Nat.pow_succ]
    omega

/-! ### Leading zeros -/

theorem isDigits_stripZeros {s : Str} (h : IsDigits s) : IsDigits (stripZeros s) :=
  fun c hc => h c ((List.dropWhile_sublist _).subset hc)

theorem replicate_leadingZeros (s : Str) : List.replicate (leadingZeros s) '0' ++ stripZeros s = s := by
  have hzeros : s.takeWhile (· == '0') = List.replicate (leadingZeros s) '0' := by
    refine List.eq_replicate_iff.2 ⟨rfl, fun c hc => ?_⟩
    simpa using List.mem_takeWhile_imp hc
  rw [← hzeros]
  exact List.takeWhile_append_dropWhile

theorem numeral_stripZeros (s : Str) : numeral (stripZeros s) = numeral s := by
  induction s with
  | nil => rfl
  | cons c s ih =>
    by_cases hc : c = '0'
    · have hzero : digitValue c = 0 := by rw [hc]; rfl
      have hstrip : stripZeros (c :: s) = stripZeros s := by simp [stripZeros, hc]
      rw [hstrip, ih, numeral_cons, hzero, Nat.zero_mul, Nat.zero_add]
    · have hstrip : stripZeros (c :: s) = c :: s := by simp [stripZeros, hc]
      rw [hstrip]

/-- A numeral without leading zeros is at least the power of ten with as many digits. -/
theorem pow_le_numeral {c : Char} {s : Str} (hc : c.isDigit = true) (hne : c ≠ '0') :
    10 ^ s.length ≤ numeral (c :: s) := by
  rw [numeral_cons]
  have hpos := digitValue_pos hc hne
  have hproduct : 1 * 10 ^ s.length ≤ digitValue c * 10 ^ s.length := Nat.mul_le_mul_right _ hpos
  omega

private theorem stripZeros_head {s : Str} {c : Char} {rest : Str} (h : stripZeros s = c :: rest) : c ≠ '0' := by
  intro hc
  have hhead := List.head?_dropWhile_not (· == '0') s
  rw [stripZeros] at h
  rw [h] at hhead
  simp [hc] at hhead

/-- The numeral with more digits after its leading zeros is greater. -/
theorem numeral_lt_of_length {s t : Str} (hs : IsDigits s) (ht : IsDigits t)
    (h : (stripZeros s).length < (stripZeros t).length) : numeral s < numeral t := by
  rw [← numeral_stripZeros s, ← numeral_stripZeros t]
  have hlt := numeral_lt (isDigits_stripZeros hs)
  cases hstrip : stripZeros t with
  | nil =>
    rw [hstrip] at h
    exact absurd h (Nat.not_lt_zero _)
  | cons c rest =>
    have hdigits := isDigits_stripZeros ht
    rw [hstrip] at h hdigits
    have hle : 10 ^ (stripZeros s).length ≤ 10 ^ rest.length := by
      apply Nat.pow_le_pow_right (by decide)
      rw [List.length_cons] at h
      omega
    have hge := @pow_le_numeral c rest (isDigits_cons.1 hdigits).1 (stripZeros_head hstrip)
    omega

/-- Two numerals of one length that denote the same number are equal. -/
theorem numeral_inj {s t : Str} (hlength : s.length = t.length) (hs : IsDigits s) (ht : IsDigits t)
    (h : numeral s = numeral t) : s = t := by
  induction s generalizing t with
  | nil => exact (List.length_eq_zero_iff.1 hlength.symm).symm
  | cons c s ih =>
    cases t with
    | nil => cases hlength
    | cons d t =>
      rw [isDigits_cons] at hs ht
      have hlength' : s.length = t.length := Nat.succ.inj hlength
      rw [numeral_cons, numeral_cons, hlength'] at h
      have hslt := numeral_lt hs.2
      have htlt := numeral_lt ht.2
      rw [hlength'] at hslt
      have hpos : 0 < 10 ^ t.length := Nat.pow_pos (by decide)
      have hdigit : digitValue c = digitValue d := by
        have hc := congrArg (· / 10 ^ t.length) h
        simp only [Nat.mul_comm _ (10 ^ t.length), Nat.mul_add_div hpos, Nat.div_eq_of_lt hslt, Nat.div_eq_of_lt htlt] at hc
        exact hc
      rw [hdigit] at h
      rw [digitValue_inj hs.1 ht.1 hdigit, ih hlength' hs.2 ht.2 (Nat.add_left_cancel h)]

theorem numeral_eq_iff {s t : Str} (hs : IsDigits s) (ht : IsDigits t) :
    numeral s = numeral t ↔ stripZeros s = stripZeros t := by
  constructor
  · intro h
    have hlength : (stripZeros s).length = (stripZeros t).length := by
      rcases Nat.lt_trichotomy (stripZeros s).length (stripZeros t).length with hlt | heq | hlt
      · have := numeral_lt_of_length hs ht hlt
        omega
      · exact heq
      · have := numeral_lt_of_length ht hs hlt
        omega
    refine numeral_inj hlength (isDigits_stripZeros hs) (isDigits_stripZeros ht) ?_
    rw [numeral_stripZeros, numeral_stripZeros, h]
  · intro h
    rw [← numeral_stripZeros s, ← numeral_stripZeros t, h]

/-- Of two numerals of one length, the one of the lesser number has the lesser digit where they first differ. -/
theorem numeral_diverges {s t : Str} (hlength : s.length = t.length) (hs : IsDigits s) (ht : IsDigits t)
    (h : numeral s < numeral t) : Diverges s t := by
  induction s generalizing t with
  | nil =>
    rw [List.length_eq_zero_iff.1 hlength.symm] at h
    exact absurd h (Nat.lt_irrefl _)
  | cons c s ih =>
    cases t with
    | nil => cases hlength
    | cons d t =>
      have hlength' : s.length = t.length := Nat.succ.inj hlength
      rw [isDigits_cons] at hs ht
      rw [numeral_cons, numeral_cons, hlength'] at h
      have hslt := numeral_lt hs.2
      rw [hlength'] at hslt
      have htlt := numeral_lt ht.2
      rcases Nat.lt_trichotomy (digitValue c) (digitValue d) with hlt | heq | hgt
      · have hc := toNat_of_digit hs.1
        have hd := toNat_of_digit ht.1
        have hnat : c.toNat < d.toNat := by omega
        have hless : c < d := hnat
        exact .head hless s t
      · rw [heq] at h
        rw [digitValue_inj hs.1 ht.1 heq]
        exact (ih hlength' hs.2 ht.2 (Nat.lt_of_add_lt_add_left h)).append_left [d]
      · have hproduct : (digitValue d + 1) * 10 ^ t.length ≤ digitValue c * 10 ^ t.length := Nat.mul_le_mul_right _ hgt
        rw [Nat.add_mul] at hproduct
        omega

end Lib
