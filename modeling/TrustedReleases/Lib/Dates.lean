import TrustedReleases.Lib.Calendar
import TrustedReleases.Lib.Numeral

/-!
# The order of dates

The dates of the Gregorian calendar from the year 1 to the year 9999.  Their texts are in the order of the dates
(`dateText_lt`), and the texts with an admitted year, month and day are texts of dates (`exists_date`).
-/

namespace Lib

/-- `datetime.date` -/
abbrev Date := {d : Day // 1 ≤ d ∧ d ≤ 3652059}

def daysBeforeYear (year : Nat) : Nat := (year - 1) * 365 + (year - 1) / 4 - (year - 1) / 100 + (year - 1) / 400

def yearLength (year : Nat) : Nat := if isLeap year then 366 else 365

/-- The month and the day of the month of a day of a year, which is counted from zero. -/
def monthDay (leap : Bool) (n : Nat) : Nat × Nat :=
  let month := (n + 50) / 32
  let preceding := daysBeforeMonth month + if 2 < month ∧ leap then 1 else 0
  let length := if month - 1 = 2 then (if leap then 29 else 28) else if month - 1 ∈ [4, 6, 9, 11] then 30 else 31
  if n < preceding then (month - 1, n + length - preceding + 1) else (month, n - preceding + 1)

private theorem isLeap_iff (year : Nat) : isLeap year = true ↔ year % 4 = 0 ∧ (year % 100 ≠ 0 ∨ year % 400 = 0) := by
  simp [isLeap]

private theorem yearLength_eq (year : Nat) :
    yearLength year = 365 + (if year % 4 = 0 ∧ (year % 100 ≠ 0 ∨ year % 400 = 0) then 1 else 0) := by
  unfold yearLength
  by_cases h : isLeap year = true
  · rw [if_pos h, if_pos ((isLeap_iff year).1 h)]
  · rw [if_neg h, if_neg (fun hleap => h ((isLeap_iff year).2 hleap))]

private theorem daysBeforeYear_succ {year : Nat} (h : 1 ≤ year) :
    daysBeforeYear (year + 1) = daysBeforeYear year + yearLength year := by
  have hle : (year - 1) / 100 ≤ (year - 1) / 4 := by omega
  rw [yearLength_eq, daysBeforeYear, daysBeforeYear, Nat.add_sub_cancel]
  by_cases hy4 : year % 4 = 0
  · have h4 : year / 4 = (year - 1) / 4 + 1 := by omega
    by_cases hy100 : year % 100 = 0
    · have h100 : year / 100 = (year - 1) / 100 + 1 := by omega
      by_cases hy400 : year % 400 = 0
      · have h400 : year / 400 = (year - 1) / 400 + 1 := by omega
        rw [if_pos ⟨hy4, .inr hy400⟩, h4, h100, h400]
        omega
      · have h400 : year / 400 = (year - 1) / 400 := by omega
        rw [if_neg (by omega), h4, h100, h400]
        omega
    · have h100 : year / 100 = (year - 1) / 100 := by omega
      have h400 : year / 400 = (year - 1) / 400 := by omega
      rw [if_pos ⟨hy4, .inl hy100⟩, h4, h100, h400]
      omega
  · have h4 : year / 4 = (year - 1) / 4 := by omega
    have h100 : year / 100 = (year - 1) / 100 := by omega
    have h400 : year / 400 = (year - 1) / 400 := by omega
    rw [if_neg (by omega), h4, h100, h400]
    omega

private theorem daysBeforeYear_mono {y y' : Nat} (hy : 1 ≤ y) (h : y ≤ y') : daysBeforeYear y ≤ daysBeforeYear y' := by
  induction y' with
  | zero => omega
  | succ y' ih =>
    by_cases heq : y = y' + 1
    · rw [heq]
    · have hprev := ih (by omega)
      rw [daysBeforeYear_succ (by omega)]
      omega

/-- The years of four centuries, of a century and of four years that are whole, and the years after them. -/
theorem year_parts {a b c d : Nat} (hb : b ≤ 3) (hc : c ≤ 24) (hd : d ≤ 3) :
    daysBeforeYear (a * 400 + b * 100 + c * 4 + d + 1) = a * 146097 + b * 36524 + c * 1461 + d * 365 ∧
      (isLeap (a * 400 + b * 100 + c * 4 + d + 1) = true ↔ d = 3 ∧ (c ≠ 24 ∨ b = 3)) := by
  constructor
  · have h4 : (a * 400 + b * 100 + c * 4 + d) / 4 = a * 100 + b * 25 + c := by omega
    have h100 : (a * 400 + b * 100 + c * 4 + d) / 100 = a * 4 + b := by omega
    have h400 : (a * 400 + b * 100 + c * 4 + d) / 400 = a := by omega
    rw [daysBeforeYear, Nat.add_sub_cancel, h4, h100, h400]
    omega
  · rw [isLeap_iff]
    have h4 : (a * 400 + b * 100 + c * 4 + d + 1) % 4 = (d + 1) % 4 := by omega
    have h100 : (a * 400 + b * 100 + c * 4 + d + 1) % 100 = (c * 4 + d + 1) % 100 := by omega
    have h400 : (a * 400 + b * 100 + c * 4 + d + 1) % 400 = (b * 100 + c * 4 + d + 1) % 400 := by omega
    rw [h4, h100, h400]
    omega

/-- The year of a date and the day of the year. -/
theorem yearMonthDay_eq {day : Nat} (h : 1 ≤ day) : ∃ year n, 1 ≤ year ∧ day = daysBeforeYear year + n + 1 ∧
    n < yearLength year ∧ yearMonthDay day = (year, monthDay (isLeap year) n) := by
  unfold yearMonthDay
  simp only []
  have hday : day = (day - 1) + 1 := by omega
  generalize day - 1 = n₀ at hday
  have h400 := Nat.div_add_mod n₀ 146097
  have h400' := Nat.mod_lt n₀ (show 0 < 146097 by decide)
  generalize n₀ / 146097 = a at h400
  generalize n₀ % 146097 = n₁ at h400 h400'
  have h100 := Nat.div_add_mod n₁ 36524
  have h100' := Nat.mod_lt n₁ (show 0 < 36524 by decide)
  generalize n₁ / 36524 = b at h100
  generalize n₁ % 36524 = n₂ at h100 h100'
  have h4 := Nat.div_add_mod n₂ 1461
  have h4' := Nat.mod_lt n₂ (show 0 < 1461 by decide)
  generalize n₂ / 1461 = c at h4
  generalize n₂ % 1461 = n₃ at h4 h4'
  have h1 := Nat.div_add_mod n₃ 365
  have h1' := Nat.mod_lt n₃ (show 0 < 365 by decide)
  generalize n₃ / 365 = d at h1
  generalize n₃ % 365 = n at h1 h1'
  have hb : b ≤ 4 := by omega
  have hc : c ≤ 24 := by omega
  have hd : d ≤ 4 := by omega
  by_cases hlast : d = 4 ∨ b = 4
  · -- the last day of a leap year
    rw [if_pos hlast]
    obtain ⟨b', c', hb', hc', hyear, hleap, hdays⟩ : ∃ b' c', b' ≤ 3 ∧ c' ≤ 24 ∧
        a * 400 + b * 100 + c * 4 + d + 1 - 1 = a * 400 + b' * 100 + c' * 4 + 3 + 1 ∧ (c' ≠ 24 ∨ b' = 3) ∧
        day = a * 146097 + b' * 36524 + c' * 1461 + 3 * 365 + 365 + 1 := by
      rcases hlast with hd4 | hb4
      · exact ⟨b, c, by omega, hc, by omega, by omega, by omega⟩
      · exact ⟨3, 24, by omega, by omega, by omega, by omega, by omega⟩
    obtain ⟨hbefore, hiff⟩ := @year_parts a b' c' 3 hb' hc' (by decide)
    have hisLeap := hiff.2 ⟨rfl, hleap⟩
    rw [hyear]
    refine ⟨a * 400 + b' * 100 + c' * 4 + 3 + 1, 365, by omega, by rw [hbefore]; exact hdays, ?_, ?_⟩
    · rw [yearLength, if_pos hisLeap]
      decide
    · rw [hisLeap]
      rfl
  · rw [if_neg hlast]
    obtain ⟨hbefore, hiff⟩ := @year_parts a b c d (by omega) hc (by omega)
    refine ⟨a * 400 + b * 100 + c * 4 + d + 1, n, by omega, by rw [hbefore]; omega, ?_, ?_⟩
    · unfold yearLength
      split
      · omega
      · exact h1'
    · unfold monthDay daysInMonth
      simp only []
      split_ifs <;> rfl

/-! ### The days of a year -/

/-- A later day of a year has a later month, or a later day of the month. -/
theorem monthDay_lt {leap : Bool} {n n' : Nat} (h : n < n') (hn' : n' < if leap then 366 else 365) :
    (monthDay leap n).1 < (monthDay leap n').1 ∨
      ((monthDay leap n).1 = (monthDay leap n').1 ∧ (monthDay leap n).2 < (monthDay leap n').2) := by
  have hnext : ∀ leap : Bool, ∀ n < 365, n + 1 < (if leap then 366 else 365) →
      (monthDay leap n).1 * 32 + (monthDay leap n).2 < (monthDay leap (n + 1)).1 * 32 + (monthDay leap (n + 1)).2 := by
    decide +kernel
  have hrange : ∀ leap : Bool, ∀ n < (if leap then 366 else 365), (monthDay leap n).2 < 32 := by
    decide +kernel
  have hmono : ∀ k, n + k + 1 < (if leap then 366 else 365) →
      (monthDay leap n).1 * 32 + (monthDay leap n).2 <
        (monthDay leap (n + k + 1)).1 * 32 + (monthDay leap (n + k + 1)).2 := by
    intro k
    induction k with
    | zero =>
      intro hk
      exact hnext leap n (by split at hk <;> omega) hk
    | succ k ih =>
      intro hk
      have hlt := ih (by omega)
      have hstep := hnext leap (n + k + 1) (by split at hk <;> omega) hk
      exact lt_trans hlt hstep
  obtain ⟨k, rfl⟩ : ∃ k, n' = n + k + 1 := ⟨n' - n - 1, by omega⟩
  have hlt := hmono k hn'
  have hd := hrange leap n (by omega)
  have hd' := hrange leap (n + k + 1) hn'
  omega

private theorem monthDay_bounds {leap : Bool} {n : Nat} (h : n < 366) :
    (monthDay leap n).1 < 100 ∧ (monthDay leap n).2 < 100 := by
  have hall : ∀ leap : Bool, ∀ n < 366, (monthDay leap n).1 < 100 ∧ (monthDay leap n).2 < 100 := by
    decide +kernel
  exact hall leap n h

def monthLength (leap : Bool) (month : Nat) : Nat :=
  if month = 2 then (if leap then 29 else 28) else if month ∈ [4, 6, 9, 11] then 30 else 31

def dayOfYear (leap : Bool) (month d : Nat) : Nat :=
  daysBeforeMonth month + (if 2 < month ∧ leap = true then 1 else 0) + (d - 1)

/-- Every day of a month is a day of the year. -/
theorem exists_monthDay {year m d : Nat} (hm : 1 ≤ m ∧ m ≤ 12) (hd : 1 ≤ d ∧ d ≤ daysInMonth year m) :
    ∃ n < yearLength year, monthDay (isLeap year) n = (m, d) := by
  have hall : ∀ leap : Bool, ∀ m < 13, ∀ d < 32, 1 ≤ m ∧ 1 ≤ d ∧ d ≤ monthLength leap m →
      dayOfYear leap m d < (if leap then 366 else 365) ∧ monthDay leap (dayOfYear leap m d) = (m, d) := by
    decide +kernel
  have hlast : d < 32 := by
    have hle := hd.2
    unfold daysInMonth at hle
    split_ifs at hle <;> omega
  exact ⟨_, hall (isLeap year) m (by omega) d hlast ⟨hm.1, hd.1, hd.2⟩⟩

/-! ### Dates and days of years -/

/-- The year and the day of the year are determined by the date. -/
theorem year_unique {y y' n n' : Nat} (hy : 1 ≤ y) (hy' : 1 ≤ y') (hn : n < yearLength y) (hn' : n' < yearLength y') :
    (daysBeforeYear y + n < daysBeforeYear y' + n' ↔ y < y' ∨ (y = y' ∧ n < n')) := by
  have hnext := daysBeforeYear_succ hy
  have hnext' := daysBeforeYear_succ hy'
  rcases Nat.lt_trichotomy y y' with hlt | rfl | hgt
  · have hmono := daysBeforeYear_mono (by omega) (show y + 1 ≤ y' from hlt)
    omega
  · omega
  · have hmono := daysBeforeYear_mono (by omega) (show y' + 1 ≤ y from hgt)
    omega

private theorem year_le {y n : Nat} (h : daysBeforeYear y + n + 1 ≤ 3652059) : y ≤ 9999 := by
  by_contra hy
  have hmono := daysBeforeYear_mono (by decide) (show 10000 ≤ y by omega)
  have hlast : daysBeforeYear 10000 = 3652059 := by decide
  omega

/-- An earlier date has an earlier year, month or day. -/
theorem yearMonthDay_lt {day day' : Nat} (h : 1 ≤ day) (hlt : day < day') :
    (yearMonthDay day).1 < (yearMonthDay day').1 ∨ ((yearMonthDay day).1 = (yearMonthDay day').1 ∧
      ((yearMonthDay day).2.1 < (yearMonthDay day').2.1 ∨ ((yearMonthDay day).2.1 = (yearMonthDay day').2.1 ∧
        (yearMonthDay day).2.2 < (yearMonthDay day').2.2))) := by
  obtain ⟨y, n, hy, hday, hn, heq⟩ := yearMonthDay_eq h
  obtain ⟨y', n', hy', hday', hn', heq'⟩ := yearMonthDay_eq (show 1 ≤ day' by omega)
  rw [heq, heq']
  rcases (year_unique hy hy' hn hn').1 (by omega) with hyear | ⟨rfl, hnn⟩
  · exact .inl hyear
  · exact .inr ⟨rfl, monthDay_lt hnn hn'⟩

private theorem yearMonthDay_bounds {day : Nat} (h : 1 ≤ day) (hle : day ≤ 3652059) :
    (yearMonthDay day).1 < 10000 ∧ (yearMonthDay day).2.1 < 100 ∧ (yearMonthDay day).2.2 < 100 := by
  obtain ⟨y, n, hy, hday, hn, heq⟩ := yearMonthDay_eq h
  rw [heq]
  have hyear := year_le (hday ▸ hle)
  have hlength : yearLength y ≤ 366 := by
    unfold yearLength
    split <;> omega
  exact ⟨by omega, monthDay_bounds (by omega)⟩

/-! ### Texts -/

private theorem digits_isDigits (width n : Nat) : IsDigits (digits width n) := by
  induction width generalizing n with
  | zero => exact fun _ h => (by cases h)
  | succ width ih =>
    intro c hc
    rw [digits, List.mem_append, List.mem_singleton] at hc
    rcases hc with hc | rfl
    · exact ih _ c hc
    · have hall : ∀ d < 10, (Char.ofNat (48 + d)).isDigit = true := by decide
      exact hall (n % 10) (Nat.mod_lt n (by decide))

private theorem numeral_digits {width n : Nat} (h : n < 10 ^ width) : numeral (digits width n) = n := by
  induction width generalizing n with
  | zero =>
    have hzero : n = 0 := by
      rw [Nat.pow_zero] at h
      omega
    rw [hzero]
    rfl
  | succ width ih =>
    have hall : ∀ d < 10, digitValue (Char.ofNat (48 + d)) = d := by decide
    have hdiv : n / 10 < 10 ^ width := by
      rw [Nat.pow_succ] at h
      omega
    rw [digits, numeral_append, ih hdiv, hall (n % 10) (Nat.mod_lt n (by decide))]
    omega

/-- A numeral is the text of its number with as many digits. -/
theorem digits_numeral {s : Str} (h : IsDigits s) : digits s.length (numeral s) = s := by
  refine numeral_inj (digits_length _ _) (digits_isDigits _ _) h ?_
  rw [numeral_digits (numeral_lt h)]

private theorem digits_diverges {width a b : Nat} (hb : b < 10 ^ width) (h : a < b) :
    Diverges (digits width a) (digits width b) := by
  refine numeral_diverges ?_ (digits_isDigits _ _) (digits_isDigits _ _) ?_
  · rw [digits_length, digits_length]
  · rwa [numeral_digits (lt_trans h hb), numeral_digits hb]

/-- The texts of dates are in the order of the dates. -/
theorem dateText_diverges {day day' : Nat} (h : 1 ≤ day) (hle : day' ≤ 3652059) (hlt : day < day') :
    Diverges (dateText day) (dateText day') := by
  obtain ⟨hy, hm, hd⟩ := yearMonthDay_bounds (show 1 ≤ day' by omega) hle
  have horder := yearMonthDay_lt h hlt
  simp only [dateText]
  rcases horder with hlt | ⟨heq, hlt | ⟨heq', hlt⟩⟩
  · exact ((digits_diverges hy hlt).append_right _ _).append_right _ _
  · rw [heq]
    have hmonth := (digits_diverges (show _ < 10 ^ 2 from hm) hlt).append_left ['-']
    exact (hmonth.append_left (digits 4 (yearMonthDay day').1)).append_right _ _
  · rw [heq, heq']
    have hday := (digits_diverges (show _ < 10 ^ 2 from hd) hlt).append_left ['-']
    exact hday.append_left _

theorem dateText_inj {d d' : Date} (h : dateText d.1 = dateText d'.1) : d = d' := by
  refine Subtype.ext ?_
  rcases Nat.lt_trichotomy d.1 d'.1 with hlt | heq | hgt
  · have hless := (dateText_diverges d.2.1 d'.2.2 hlt).lt
    rw [h] at hless
    exact absurd hless (List.lt_irrefl _)
  · exact heq
  · have hless := (dateText_diverges d'.2.1 d.2.2 hgt).lt
    rw [h] at hless
    exact absurd hless (List.lt_irrefl _)

private theorem decimal_eq_some {s : Str} {n : Nat} (h : decimal s = some n) : IsDigits s ∧ numeral s = n := by
  unfold decimal at h
  induction s using List.reverseRecOn generalizing n with
  | nil => exact ⟨fun _ hc => (by cases hc), Option.some.inj h⟩
  | append_singleton s c ih =>
    rw [List.foldl_append, List.foldl_cons, List.foldl_nil] at h
    by_cases hc : c.isDigit = true
    · rw [if_pos hc] at h
      obtain ⟨m, hm, rfl⟩ := Option.map_eq_some_iff.1 h
      obtain ⟨hdigits, rfl⟩ := ih hm
      refine ⟨fun d hd => ?_, numeral_append s c⟩
      rcases List.mem_append.1 hd with hd | hd
      · exact hdigits d hd
      · rwa [List.mem_singleton.1 hd]
    · rw [if_neg hc] at h
      cases h

/-- The text of an instant begins with that of a date. -/
theorem exists_date {s : Str} (h : isInstantText s = true) : ∃ d : Date, s.take 10 = dateText d.1 := by
  unfold isInstantText at h
  simp only [Bool.and_eq_true, decide_eq_true_eq] at h
  obtain ⟨⟨⟨⟨⟨⟨⟨⟨⟨hlength, h4⟩, h7⟩, -⟩, -⟩, -⟩, -⟩, -⟩, -⟩, h⟩ := h
  split at h
  · rename_i y m d _ _ _ hy hm hd _ _ _
    simp only [Bool.and_eq_true, decide_eq_true_eq] at h
    obtain ⟨⟨⟨⟨⟨⟨⟨hy1, hm1⟩, hm12⟩, hd1⟩, hdlast⟩, -⟩, -⟩, -⟩ := h
    obtain ⟨hydigits, hyvalue⟩ := decimal_eq_some hy
    obtain ⟨hmdigits, hmvalue⟩ := decimal_eq_some hm
    obtain ⟨hddigits, hdvalue⟩ := decimal_eq_some hd
    obtain ⟨n, hn, hmonthDay⟩ := exists_monthDay ⟨hm1, hm12⟩ ⟨hd1, hdlast⟩
    have hylength : (s.take 4).length = 4 := by simp [hlength]
    have hmlength : ((s.drop 5).take 2).length = 2 := by simp [hlength]
    have hdlength : ((s.drop 8).take 2).length = 2 := by simp [hlength]
    have hyear : y ≤ 9999 := by
      have hlt := numeral_lt hydigits
      rw [hyvalue, hylength] at hlt
      omega
    have hbefore : daysBeforeYear (y + 1) ≤ daysBeforeYear 10000 := daysBeforeYear_mono (by omega) (by omega)
    have hlast : daysBeforeYear 10000 = 3652059 := by decide
    rw [daysBeforeYear_succ hy1, hlast] at hbefore
    have hdate : yearMonthDay (daysBeforeYear y + n + 1) = (y, m, d) := by
      obtain ⟨y', n', hy', hday', hn', heq⟩ := @yearMonthDay_eq (daysBeforeYear y + n + 1) (by omega)
      have hone := year_unique hy1 hy' hn hn'
      have htwo := year_unique hy' hy1 hn' hn
      have hyy : y' = y ∧ n' = n := by omega
      rw [heq, hyy.1, hyy.2, hmonthDay]
    have hfirst : 1 ≤ daysBeforeYear y + n + 1 := by omega
    have hend : daysBeforeYear y + n + 1 ≤ 3652059 := by omega
    refine ⟨⟨daysBeforeYear y + n + 1, hfirst, hend⟩, ?_⟩
    have hsplit : s.take 10 = s.take 4 ++ '-' :: ((s.drop 5).take 2 ++ '-' :: (s.drop 8).take 2) := by
      have hfour : s.drop 4 = '-' :: s.drop 5 := by
        obtain ⟨hlt, hget⟩ := List.getElem?_eq_some_iff.1 h4
        rw [List.drop_eq_getElem_cons hlt, hget]
      have hseven : s.drop 7 = '-' :: s.drop 8 := by
        obtain ⟨hlt, hget⟩ := List.getElem?_eq_some_iff.1 h7
        rw [List.drop_eq_getElem_cons hlt, hget]
      have htail : (s.drop 5).take 5 = (s.drop 5).take 2 ++ '-' :: (s.drop 8).take 2 := by
        rw [show 5 = 2 + 3 from rfl, List.take_add, List.drop_drop, hseven]
        rfl
      rw [show 10 = 4 + 6 from rfl, List.take_add, hfour, List.take_succ_cons, htail]
    have hytext := digits_numeral hydigits
    have hmtext := digits_numeral hmdigits
    have hdtext := digits_numeral hddigits
    rw [hylength, hyvalue] at hytext
    rw [hmlength, hmvalue] at hmtext
    rw [hdlength, hdvalue] at hdtext
    rw [hsplit, dateText, hdate, ← hytext, ← hmtext, ← hdtext]
    simp
  · cases h

end Lib
