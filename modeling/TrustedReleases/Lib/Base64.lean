import TrustedReleases.Lib.Bytes

/-!
# Base64

Base64 with padding, read strictly: only the alphabet, nothing after the padding, and no padding at the start.  What
is encoded is decoded again (`b64decode_b64encode`).
-/

namespace Lib

def base64Alphabet : Str := "ABCDEFGHIJKLMNOPQRSTUVWXYZabcdefghijklmnopqrstuvwxyz0123456789+/".toList

/-- The character of six bits. -/
def base64Digit (n : Nat) : Char := base64Alphabet.getD (n % 64) 'A'

/-- The six bits of a character. -/
def base64Value (c : Char) : Option Nat := base64Alphabet.idxOf? c

/-- The strict decoder: four characters for three bytes, fewer bytes in the last four by padding. -/
def b64decode : Str → Option Bytes
  | [] => some []
  | c₀ :: c₁ :: c₂ :: c₃ :: rest => do
    let v₀ ← base64Value c₀
    let v₁ ← base64Value c₁
    if c₂ = '=' ∧ c₃ = '=' ∧ rest = [] then
      return [byte (v₀ * 4 + v₁ / 16)]
    else do
      let v₂ ← base64Value c₂
      if c₃ = '=' ∧ rest = [] then
        return [byte (v₀ * 4 + v₁ / 16), byte (v₁ * 16 + v₂ / 4)]
      else do
        let v₃ ← base64Value c₃
        let bs ← b64decode rest
        return byte (v₀ * 4 + v₁ / 16) :: byte (v₁ * 16 + v₂ / 4) :: byte (v₂ * 64 + v₃) :: bs
  | _ => none

def b64encode : Bytes → Str
  | [] => []
  | [a] => [base64Digit (a.val / 4), base64Digit (a.val * 16), '=', '=']
  | [a, b] => [base64Digit (a.val / 4), base64Digit (a.val * 16 + b.val / 16), base64Digit (b.val * 4), '=']
  | a :: b :: c :: rest =>
    base64Digit (a.val / 4) :: base64Digit (a.val * 16 + b.val / 16) :: base64Digit (b.val * 4 + c.val / 64) ::
      base64Digit c.val :: b64encode rest

private theorem base64Value_digit (n : Nat) : base64Value (base64Digit n) = some (n % 64) := by
  have hall : ∀ i : Fin 64, base64Value (base64Alphabet.getD i.val 'A') = some i.val := by decide +kernel
  exact hall ⟨n % 64, Nat.mod_lt n (by decide)⟩

private theorem base64Digit_mem (n : Nat) : base64Digit n ∈ base64Alphabet := by
  have hall : ∀ i : Fin 64, base64Alphabet.getD i.val 'A' ∈ base64Alphabet := by decide +kernel
  exact hall ⟨n % 64, Nat.mod_lt n (by decide)⟩

private theorem base64Digit_ne_pad (n : Nat) : base64Digit n ≠ '=' := by
  have hpad : '=' ∉ base64Alphabet := by decide
  exact fun h => hpad (h ▸ base64Digit_mem n)

/-- The characters that are written. -/
theorem mem_b64encode {bs : Bytes} {c : Char} (h : c ∈ b64encode bs) : c ∈ base64Alphabet ∨ c = '=' := by
  induction bs using b64encode.induct with
  | case1 => cases h
  | case2 a =>
    simp only [b64encode, List.mem_cons, List.not_mem_nil, or_false, or_self] at h
    rcases h with rfl | rfl | h
    · exact .inl (base64Digit_mem _)
    · exact .inl (base64Digit_mem _)
    · exact .inr h
  | case3 a b =>
    simp only [b64encode, List.mem_cons, List.not_mem_nil, or_false] at h
    rcases h with rfl | rfl | rfl | h
    · exact .inl (base64Digit_mem _)
    · exact .inl (base64Digit_mem _)
    · exact .inl (base64Digit_mem _)
    · exact .inr h
  | case4 a b c rest ih =>
    simp only [b64encode, List.mem_cons] at h
    rcases h with rfl | rfl | rfl | rfl | h
    · exact .inl (base64Digit_mem _)
    · exact .inl (base64Digit_mem _)
    · exact .inl (base64Digit_mem _)
    · exact .inl (base64Digit_mem _)
    · exact ih h

/-- No padding at the start. -/
theorem head?_b64encode_ne (bs : Bytes) : (b64encode bs).head? ≠ some '=' := by
  intro h
  rcases bs with _ | ⟨a, _ | ⟨b, _ | ⟨c, rest⟩⟩⟩
  · cases h
  · exact base64Digit_ne_pad _ (Option.some.inj h)
  · exact base64Digit_ne_pad _ (Option.some.inj h)
  · exact base64Digit_ne_pad _ (Option.some.inj h)

/-- What is encoded is decoded again. -/
theorem b64decode_b64encode (bs : Bytes) : b64decode (b64encode bs) = some bs := by
  have first : ∀ a b : Nat, a < 256 → b < 256 → (a / 4 % 64 * 4 + (a * 16 + b / 16) % 64 / 16) % 256 = a := by
    intro a b ha hb
    omega
  have second : ∀ a b c : Nat, b < 256 → c < 256 →
      ((a * 16 + b / 16) % 64 * 16 + (b * 4 + c / 64) % 64 / 4) % 256 = b := by
    intro a b c hb hc
    omega
  have third : ∀ b c : Nat, c < 256 → ((b * 4 + c / 64) % 64 * 64 + c % 64) % 256 = c := by
    intro b c hc
    omega
  induction bs using b64encode.induct with
  | case1 => rfl
  | case2 a =>
    have ha := first a.val 0 a.isLt (by decide)
    simp only [Nat.zero_div, Nat.add_zero] at ha
    simp only [b64encode, b64decode, base64Value_digit, Option.bind_eq_bind, Option.bind_some, and_self, if_true]
    exact congrArg (fun x => some [x]) (Fin.ext ha)
  | case3 a b =>
    have ha := first a.val b.val a.isLt b.isLt
    have hb := second a.val b.val 0 b.isLt (by decide)
    simp only [Nat.zero_div, Nat.add_zero] at hb
    simp only [b64encode, b64decode, base64Value_digit, base64Digit_ne_pad, Option.bind_eq_bind, Option.bind_some,
      false_and, if_false, and_self, if_true]
    exact congrArg₂ (fun x y => some [x, y]) (Fin.ext ha) (Fin.ext hb)
  | case4 a b c rest ih =>
    have ha : byte (a.val / 4 % 64 * 4 + (a.val * 16 + b.val / 16) % 64 / 16) = a :=
      Fin.ext (first a.val b.val a.isLt b.isLt)
    have hb : byte ((a.val * 16 + b.val / 16) % 64 * 16 + (b.val * 4 + c.val / 64) % 64 / 4) = b :=
      Fin.ext (second a.val b.val c.val b.isLt c.isLt)
    have hc : byte ((b.val * 4 + c.val / 64) % 64 * 64 + c.val % 64) = c := Fin.ext (third b.val c.val c.isLt)
    simp only [b64encode, b64decode, base64Value_digit, base64Digit_ne_pad, Option.bind_eq_bind, Option.bind_some,
      false_and, if_false, ih, ha, hb, hc]
    rfl

end Lib
