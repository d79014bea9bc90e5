import TrustedReleases.Lib.Regex

/-!
# Decimal digits of all scripts

The characters that Unicode 16 has for the decimal digits: for each script the ten digits in their order, so that the
digit zero tells the others.
-/

namespace Lib

/-- The characters for the digit zero. -/
def DECIMAL_ZEROS : List Nat :=
  [0x0030, 0x0660, 0x06F0, 0x07C0, 0x0966, 0x09E6, 0x0A66, 0x0AE6, 0x0B66, 0x0BE6, 0x0C66, 0x0CE6, 0x0D66, 0x0DE6,
   0x0E50, 0x0ED0, 0x0F20, 0x1040, 0x1090, 0x17E0, 0x1810, 0x1946, 0x19D0, 0x1A80, 0x1A90, 0x1B50, 0x1BB0, 0x1C40,
   0x1C50, 0xA620, 0xA8D0, 0xA900, 0xA9D0, 0xA9F0, 0xAA50, 0xABF0, 0xFF10, 0x104A0, 0x10D30, 0x10D40, 0x11066,
   0x110F0, 0x11136, 0x111D0, 0x112F0, 0x11450, 0x114D0, 0x11650, 0x116C0, 0x116D0, 0x116DA, 0x11730, 0x118E0,
   0x11950, 0x11BF0, 0x11C50, 0x11D50, 0x11DA0, 0x11F50, 0x16130, 0x16A60, 0x16AC0, 0x16B50, 0x16D70, 0x1CCF0,
   0x1D7CE, 0x1D7D8, 0x1D7E2, 0x1D7EC, 0x1D7F6, 0x1E140, 0x1E2F0, 0x1E4F0, 0x1E5F1, 0x1E950, 0x1FBF0]

/-- The digit zero of the script of a digit. -/
def decimalZero (c : Char) : Option Nat := DECIMAL_ZEROS.find? fun z => z ≤ c.toNat && c.toNat ≤ z + 9

/-- `str.isdecimal`, of one character. -/
def isDecimal (c : Char) : Bool := (decimalZero c).isSome

def decimalValue (c : Char) : Nat := ((decimalZero c).map fun z => c.toNat - z).getD 0

/-- `int(s)`, of a string of decimal digits. -/
def decimalNumeral (s : Str) : Nat := s.foldl (fun n c => n * 10 + decimalValue c) 0

/-- `\d` -/
def Regex.decimal : Regex := one isDecimal

theorem isDecimal_of_isDigit {c : Char} (h : Regex.isDigit c = true) : isDecimal c = true := by
  obtain ⟨hfirst, hlast⟩ := Bool.and_eq_true_iff.1 h
  have hzero : (0x0030 : Nat) ≤ c.toNat := UInt32.le_iff_toNat_le.1 (of_decide_eq_true hfirst)
  have hnine : c.toNat ≤ 0x0030 + 9 := UInt32.le_iff_toNat_le.1 (of_decide_eq_true hlast)
  unfold isDecimal decimalZero DECIMAL_ZEROS
  rw [List.find?_cons_of_pos (by simp [hzero, hnine])]
  rfl

def IsDecimals (s : Str) : Prop := ∀ c ∈ s, isDecimal c = true

theorem isDecimals_nil : IsDecimals [] := by
  intro c hc
  cases hc

theorem isDecimals_cons {c : Char} {s : Str} : IsDecimals (c :: s) ↔ isDecimal c = true ∧ IsDecimals s :=
  List.forall_mem_cons

theorem isDecimals_append {s t : Str} : IsDecimals (s ++ t) ↔ IsDecimals s ∧ IsDecimals t := by
  simp only [IsDecimals, List.forall_mem_append]

end Lib
