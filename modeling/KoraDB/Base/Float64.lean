import Mathlib.Data.Int.Log
import Mathlib.Data.Rat.Floor
import Mathlib.Tactic.Linarith
import Mathlib.Tactic.FieldSimp
import KoraDB.Base.Strconv

/-!
# `float64`

A `float64` is the rational number it stands for, and an operation on two of
them is the exact one, rounded to 53 significant bits, ties to even. The numbers
here are not negative and stay in the range of the normal ones, so neither signs
nor overflow nor subnormals come up. Rounding is off by one part in `2 ^ 53` at
most and keeps the integers below `2 ^ 53`.

`%.nf` writes the decimals of that rational, the last of them rounded, and what
is written reads back as the rounded decimal (`readDecimal_formatFixed`).
-/

namespace KoraDB.Base

variable {x : ℚ}

/-! ## Rounding -/

/-- The nearest integer, of two the even one. -/
def roundEven (x : ℚ) : ℤ :=
  if 2 * (x - ⌊x⌋) < 1 then ⌊x⌋
  else if 1 < 2 * (x - ⌊x⌋) then ⌊x⌋ + 1
  else if ⌊x⌋ % 2 = 0 then ⌊x⌋ else ⌊x⌋ + 1

theorem abs_roundEven_sub_le (x : ℚ) : |(roundEven x : ℚ) - x| ≤ 1 / 2 := by
  have hlo := Int.floor_le x
  have hhi := Int.lt_floor_add_one x
  unfold roundEven
  rw [abs_le]
  split_ifs with hdown hup heven
  · exact ⟨by linarith, by linarith⟩
  · push_cast
    exact ⟨by linarith, by linarith⟩
  -- halfway, either neighbour is as near
  · exact ⟨by linarith, by linarith⟩
  · push_cast
    exact ⟨by linarith, by linarith⟩

/-- The integer within less than a half. -/
theorem roundEven_eq_of_abs_lt {n : ℤ} (h : |x - n| < 1 / 2) : roundEven x = n := by
  have hround := abs_le.mp (abs_roundEven_sub_le x)
  obtain ⟨hlo, hhi⟩ := abs_lt.mp h
  have hlt : ((roundEven x - n : ℤ) : ℚ) < 1 := by
    push_cast
    linarith
  have hgt : (-1 : ℚ) < ((roundEven x - n : ℤ) : ℚ) := by
    push_cast
    linarith
  have hlt' : roundEven x - n < 1 := by exact_mod_cast hlt
  have hgt' : -1 < roundEven x - n := by exact_mod_cast hgt
  omega

theorem roundEven_intCast (n : ℤ) : roundEven (n : ℚ) = n :=
  roundEven_eq_of_abs_lt (by norm_num)

theorem roundEven_nonneg (hx : 0 ≤ x) : 0 ≤ roundEven x := by
  have hround := abs_le.mp (abs_roundEven_sub_le x)
  have hgt : (-1 : ℚ) < (roundEven x : ℚ) := by linarith
  have hgt' : -1 < roundEven x := by exact_mod_cast hgt
  omega

/-! ## 53 bits -/

/-- The value of the last of 53 significant bits. -/
def ulp (x : ℚ) : ℚ := 2 ^ (Int.log 2 x - 52)

/-- The nearest `float64`. -/
def float64 (x : ℚ) : ℚ := roundEven (x / ulp x) * ulp x

theorem ulp_pos (x : ℚ) : 0 < ulp x := zpow_pos (by norm_num) _

theorem ulp_le (hx : 0 < x) : ulp x ≤ x / 2 ^ 52 := by
  have hlog : ((2 : ℕ) : ℚ) ^ Int.log 2 x ≤ x := Int.zpow_log_le_self (by decide) hx
  rw [ulp, zpow_sub₀ (by norm_num)]
  exact div_le_div_of_nonneg_right (by exact_mod_cast hlog) (by norm_num)

theorem float64_zero : float64 0 = 0 := by
  have hround : roundEven 0 = 0 := roundEven_intCast 0
  rw [float64, zero_div, hround]
  norm_num

theorem abs_float64_sub_le (hx : 0 ≤ x) : |float64 x - x| ≤ x / 2 ^ 53 := by
  rcases hx.eq_or_lt with rfl | hpos
  · rw [float64_zero]
    norm_num
  · have hulp := ulp_pos x
    have hsplit : float64 x - x = (roundEven (x / ulp x) - x / ulp x) * ulp x := by
      rw [float64, sub_mul, div_mul_cancel₀ _ hulp.ne']
    calc |float64 x - x|
        = |(roundEven (x / ulp x) : ℚ) - x / ulp x| * ulp x := by
          rw [hsplit, abs_mul, abs_of_pos hulp]
      _ ≤ 1 / 2 * ulp x := mul_le_mul_of_nonneg_right (abs_roundEven_sub_le _) hulp.le
      _ ≤ x / 2 ^ 53 := by linarith [ulp_le hpos]

theorem float64_nonneg (hx : 0 ≤ x) : 0 ≤ float64 x :=
  mul_nonneg (by exact_mod_cast roundEven_nonneg (div_nonneg hx (ulp_pos x).le)) (ulp_pos x).le

/-- An integer of 53 bits is a `float64`. -/
theorem float64_natCast {n : ℕ} (h : n < 2 ^ 53) : float64 n = n := by
  have hlog : Nat.log 2 n ≤ 52 := by
    rcases Nat.eq_zero_or_pos n with rfl | hpos
    · simp
    · exact Nat.le_of_lt_succ (Nat.log_lt_of_lt_pow hpos.ne' h)
  -- the last bit is worth a power of two of the form `1 / 2 ^ k`, so the quotient is an integer
  have hulp : ulp n = 1 / 2 ^ (52 - Nat.log 2 n) := by
    rw [ulp, Int.log_natCast, one_div, ← zpow_natCast, ← zpow_neg]
    congr 1
    omega
  have hquot : (n : ℚ) / ulp n = ((n * 2 ^ (52 - Nat.log 2 n) : ℤ) : ℚ) := by
    rw [hulp]
    push_cast
    field_simp
  rw [float64, hquot, roundEven_intCast, ← hquot, div_mul_cancel₀ _ (ulp_pos _).ne']

/-! ## Decimals -/

def point : UInt8 := 0x2E

/-- `fmt.Sprintf("%.*f", places, x)`, with some places. -/
def formatFixed (places : ℕ) (x : ℚ) : Bytes :=
  let n := (roundEven (x * 10 ^ places)).toNat
  formatUint (n / 10 ^ places) ++ point :: zeroPadded places (n % 10 ^ places)

/-- The value of digits with a decimal point among them. -/
def readDecimal (s : Bytes) : Option ℚ := do
  let whole ← parseDigits 0 (s.takeWhile (· != point))
  let decimals := (s.dropWhile (· != point)).tail
  let fraction ← parseDigits 0 decimals
  return whole + fraction / 10 ^ decimals.length

theorem mem_formatFixed {places : ℕ} {b : UInt8} (hb : b ∈ formatFixed places x) : 0x2E ≤ b := by
  unfold formatFixed at hb
  simp only [List.mem_append, List.mem_cons] at hb
  rcases hb with hb | rfl | hb
  · exact UInt8.le_trans (by decide) (digits_formatUint hb).1
  · decide
  · exact UInt8.le_trans (by decide) (digits_zeroPadded hb).1

/-- A number written with some places reads back as it was rounded. -/
theorem readDecimal_formatFixed {places : ℕ} (hplaces : 0 < places) (hx : 0 ≤ x) :
    readDecimal (formatFixed places x) =
      some ((roundEven (x * 10 ^ places) : ℚ) / 10 ^ places) := by
  have hround : 0 ≤ roundEven (x * 10 ^ places) := roundEven_nonneg (by positivity)
  obtain ⟨n, hn⟩ := Int.eq_ofNat_of_zero_le hround
  have hpow : 0 < 10 ^ places := Nat.pow_pos (by decide)
  have hdigits : ∀ b ∈ formatUint (n / 10 ^ places), (b != point) = true := by
    intro b hb
    rw [bne_iff_ne]
    rintro rfl
    exact absurd (digits_formatUint hb).1 (by decide)
  have hlength : (zeroPadded places (n % 10 ^ places)).length = places :=
    length_zeroPadded hplaces (Nat.mod_lt _ hpow)
  have hvalue : ((n / 10 ^ places : ℕ) : ℚ) + ((n % 10 ^ places : ℕ) : ℚ) / 10 ^ places =
      (n : ℚ) / 10 ^ places := by
    have hsplit : ((10 ^ places * (n / 10 ^ places) + n % 10 ^ places : ℕ) : ℚ) = n := by
      rw [Nat.div_add_mod]
    push_cast at hsplit ⊢
    field_simp
    linarith
  have hwhole : (formatFixed places x).takeWhile (· != point) = formatUint (n / 10 ^ places) := by
    simp only [formatFixed, hn, Int.toNat_natCast]
    rw [List.takeWhile_append_of_pos hdigits]
    simp
  have hrest : (formatFixed places x).dropWhile (· != point) =
      point :: zeroPadded places (n % 10 ^ places) := by
    simp only [formatFixed, hn, Int.toNat_natCast]
    rw [List.dropWhile_append_of_pos hdigits]
    simp
  simp only [readDecimal, hwhole, hrest, List.tail_cons, parseDigits_formatUint,
    parseDigits_zeroPadded, hlength, hn]
  exact congrArg some hvalue

end KoraDB.Base
