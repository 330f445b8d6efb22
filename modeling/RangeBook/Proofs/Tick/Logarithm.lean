import Mathlib
import RangeBook.Proofs.Tick.Ratio
import RangeBook.Tick.SqrtPrice

/-!
# How close the digits of the logarithm are

The binary logarithm of a ratio is read off its highest set bit and off 14 rounds of squaring,
each of which gives one binary digit. A round keeps its number in `[2 ^ 127, 2 ^ 128)`
(`logRound_bounds`) and loses less than one unit in the last place. After any number of rounds
the digits are therefore below the logarithm by less than one unit in their last place, up to
`2 ^ -127` for each unit (`logDigits_bounds`), and so are the units of `logTwo` for every ratio
(`logUnits_bounds`).
-/

set_option autoImplicit false
set_option relaxedAutoImplicit false

namespace RangeBook

/-- A number from `[1, 2)` in Q1.127. -/
structure IsMantissa (mantissa : ℕ) : Prop where
  ge : 2 ^ 127 ≤ mantissa
  lt : mantissa < 2 ^ 128

/-- The number that a mantissa stands for. -/
noncomputable def mantissaValue (mantissa : ℕ) : ℝ :=
  mantissa / (twoPow 127 : ℕ)

theorem mantissaValue_eq (mantissa : ℕ) : mantissaValue mantissa = mantissa / 2 ^ 127 := by
  rw [mantissaValue, cast_twoPow]

namespace IsMantissa

variable {mantissa : ℕ}

theorem one_le_value (h : IsMantissa mantissa) : 1 ≤ mantissaValue mantissa := by
  have hge : (2 : ℝ) ^ 127 ≤ mantissa := by exact_mod_cast h.ge
  rw [mantissaValue_eq, le_div_iff₀ (by positivity), one_mul]
  exact hge

theorem value_le_two (h : IsMantissa mantissa) : mantissaValue mantissa ≤ 2 := by
  have hlt : (mantissa : ℝ) < 2 ^ 128 := by exact_mod_cast h.lt
  rw [mantissaValue_eq, div_le_iff₀ (by positivity)]
  norm_num at hlt ⊢
  linarith

end IsMantissa

/-! ### One round -/

/-- A round gives a binary digit and a mantissa again, and its square is off by less than one
unit in the last place. -/
theorem logRound_bounds {mantissa : ℕ} (h : IsMantissa mantissa) :
    (logRound mantissa).1 ≤ 1 ∧ IsMantissa (logRound mantissa).2 ∧
      (logRound mantissa).2 * 2 ^ ((logRound mantissa).1 + 127) ≤ mantissa * mantissa ∧
      mantissa * mantissa < ((logRound mantissa).2 + 1) * 2 ^ ((logRound mantissa).1 + 127) := by
  obtain ⟨hge, hlt⟩ := h
  have hsquarege : 2 ^ 254 ≤ mantissa * mantissa := by
    calc 2 ^ 254 = 2 ^ 127 * 2 ^ 127 := by norm_num
      _ ≤ mantissa * mantissa := Nat.mul_le_mul hge hge
  have hsquarelt : mantissa * mantissa < 2 ^ 256 := by
    calc mantissa * mantissa < 2 ^ 128 * 2 ^ 128 := Nat.mul_lt_mul'' hlt hlt
      _ = 2 ^ 256 := by norm_num
  simp only [logRound, twoPow_eq]
  generalize mantissa * mantissa = square at hsquarege hsquarelt ⊢
  by_cases hlarge : 2 ^ 255 ≤ square
  · have hdigit : square / 2 ^ 127 / 2 ^ 128 = 1 := by omega
    rw [hdigit, pow_one]
    refine ⟨le_rfl, ⟨?_, ?_⟩, ?_, ?_⟩
    · omega
    · omega
    · norm_num
      omega
    · norm_num
      omega
  · have hdigit : square / 2 ^ 127 / 2 ^ 128 = 0 := by omega
    rw [hdigit, pow_zero, Nat.div_one]
    refine ⟨by decide, ⟨?_, ?_⟩, ?_, ?_⟩
    · omega
    · omega
    · norm_num
      omega
    · norm_num
      omega

/-- One unit in the last place of a mantissa is a small part of it. -/
theorem IsMantissa.add_one_le {mantissa : ℕ} (h : IsMantissa mantissa) :
    (mantissa : ℝ) + 1 ≤ mantissa * (1 + 1 / 2 ^ 127) := by
  have hge : (2 : ℝ) ^ 127 ≤ mantissa := by exact_mod_cast h.ge
  have hone : (1 : ℝ) ≤ mantissa / 2 ^ 127 := by rwa [le_div_iff₀ (by positivity), one_mul]
  rw [mul_add, mul_one, mul_one_div]
  linarith

/-- The square of a mantissa is the next digit and the next mantissa, up to one unit of it. -/
theorem mantissaValue_logRound_bounds {mantissa : ℕ} (h : IsMantissa mantissa) :
    2 ^ (logRound mantissa).1 * mantissaValue (logRound mantissa).2 ≤ mantissaValue mantissa ^ 2 ∧
      mantissaValue mantissa ^ 2 ≤
        2 ^ (logRound mantissa).1 * mantissaValue (logRound mantissa).2 * (1 + 1 / 2 ^ 127) := by
  obtain ⟨-, hnext, hlow, hhigh⟩ := logRound_bounds h
  set digit := (logRound mantissa).1
  set next := (logRound mantissa).2
  constructor
  · have hcast : (next : ℝ) * 2 ^ (digit + 127) ≤ mantissa * mantissa := by exact_mod_cast hlow
    have heq : 2 ^ digit * mantissaValue next = next * 2 ^ (digit + 127) / (2 ^ 127) ^ 2 := by
      rw [mantissaValue_eq, pow_add]
      field_simp
    rw [heq, mantissaValue_eq, div_pow, pow_two (mantissa : ℝ)]
    exact div_le_div_of_nonneg_right hcast (by positivity)
  · have hcast : (mantissa : ℝ) * mantissa ≤ (next + 1) * 2 ^ (digit + 127) := by
      exact_mod_cast hhigh.le
    have heq : 2 ^ digit * mantissaValue next * (1 + 1 / 2 ^ 127) =
        next * (1 + 1 / 2 ^ 127) * 2 ^ (digit + 127) / (2 ^ 127) ^ 2 := by
      rw [mantissaValue_eq, pow_add]
      field_simp
    rw [heq, mantissaValue_eq, div_pow, pow_two (mantissa : ℝ)]
    apply div_le_div_of_nonneg_right _ (by positivity)
    exact le_trans hcast (mul_le_mul_of_nonneg_right hnext.add_one_le (by positivity))

/-- Twice the logarithm of a mantissa is its next digit and the logarithm of the next mantissa. -/
theorem log_logRound_bounds {mantissa : ℕ} (h : IsMantissa mantissa) :
    (logRound mantissa).1 * Real.log 2 + Real.log (mantissaValue (logRound mantissa).2) ≤
        2 * Real.log (mantissaValue mantissa) ∧
      2 * Real.log (mantissaValue mantissa) ≤
        (logRound mantissa).1 * Real.log 2 + Real.log (mantissaValue (logRound mantissa).2) +
          1 / 2 ^ 127 := by
  have hvalue := h.one_le_value
  have hnext := (logRound_bounds h).2.1.one_le_value
  obtain ⟨hlow, hhigh⟩ := mantissaValue_logRound_bounds h
  have hsquare : 2 * Real.log (mantissaValue mantissa) =
      Real.log (mantissaValue mantissa ^ 2) := by
    rw [Real.log_pow]
    norm_num
  have hproduct : (logRound mantissa).1 * Real.log 2 +
      Real.log (mantissaValue (logRound mantissa).2) =
        Real.log (2 ^ (logRound mantissa).1 * mantissaValue (logRound mantissa).2) := by
    rw [Real.log_mul (by positivity) (by linarith), Real.log_pow]
  have hpositive : 0 < 2 ^ (logRound mantissa).1 * mantissaValue (logRound mantissa).2 := by
    positivity
  rw [hsquare, hproduct]
  constructor
  · exact Real.log_le_log hpositive hlow
  · refine le_trans (Real.log_le_log (by positivity) hhigh) ?_
    rw [Real.log_mul hpositive.ne' (by positivity)]
    have hsmall := Real.log_le_sub_one_of_pos (by positivity : (0 : ℝ) < 1 + 1 / 2 ^ 127)
    linarith

/-! ### All rounds -/

/-- The digits of so many rounds are below the scaled logarithm by less than one unit, up to the
units that the rounds cut off. -/
theorem logDigits_bounds (rounds : ℕ) : ∀ {mantissa : ℕ}, IsMantissa mantissa →
    logDigits rounds mantissa * Real.log 2 ≤ 2 ^ rounds * Real.log (mantissaValue mantissa) ∧
      2 ^ rounds * Real.log (mantissaValue mantissa) ≤
        (logDigits rounds mantissa + 1) * Real.log 2 + (2 ^ rounds - 1) / 2 ^ 127 := by
  induction rounds with
  | zero =>
    intro mantissa h
    have hnonneg := Real.log_nonneg h.one_le_value
    have hle := Real.log_le_log (by linarith [h.one_le_value]) h.value_le_two
    simp only [logDigits, Nat.cast_zero, zero_mul, pow_zero, one_mul, zero_add, sub_self, zero_div,
      add_zero]
    exact ⟨hnonneg, hle⟩
  | succ rounds ih =>
    intro mantissa h
    obtain ⟨-, hnext, -, -⟩ := logRound_bounds h
    obtain ⟨hlow, hhigh⟩ := log_logRound_bounds h
    obtain ⟨ihlow, ihhigh⟩ := ih hnext
    set digit := (logRound mantissa).1
    set next := (logRound mantissa).2
    have hscale : (0 : ℝ) < 2 ^ rounds := by positivity
    have hlow' := mul_le_mul_of_nonneg_left hlow hscale.le
    have hhigh' := mul_le_mul_of_nonneg_left hhigh hscale.le
    have hsplit : (logDigits (rounds + 1) mantissa : ℝ) =
        digit * 2 ^ rounds + logDigits rounds next := by
      rw [logDigits, twoPow_eq]
      push_cast
      rfl
    rw [hsplit, pow_succ]
    constructor
    · linarith
    · have herror : ((2 : ℝ) ^ rounds * 2 - 1) / 2 ^ 127 =
          (2 ^ rounds - 1) / 2 ^ 127 + 2 ^ rounds * (1 / 2 ^ 127) := by ring
      rw [herror]
      linarith

/-! ### The logarithm of a ratio -/

/-- The ratio of a price within the bounds is a nonzero word: bringing a square root of price to
Q128.128 loses none of its bits. -/
theorem ratio_bounds {price : ℕ} (hlow : minSqrtPrice ≤ price) (hhigh : price < maxSqrtPrice) :
    0 < price * twoPow 32 ∧ price * twoPow 32 < twoPow 256 := by
  have hpos : 0 < price := lt_of_lt_of_le (by decide) hlow
  refine ⟨Nat.mul_pos hpos (twoPow_pos 32), ?_⟩
  calc price * twoPow 32 < maxSqrtPrice * twoPow 32 :=
        Nat.mul_lt_mul_of_pos_right hhigh (twoPow_pos 32)
    _ ≤ twoPow 256 := by decide

/-- The number of 14-digit units in the logarithm of a ratio. -/
def logUnits (ratio : ℕ) : ℤ :=
  ((topBit ratio : ℤ) - 128) * 2 ^ 14 + logDigits 14 (logMantissa ratio (topBit ratio))

theorem logTwo_eq (ratio : ℕ) : logTwo ratio = logUnits ratio * 2 ^ 50 := by
  rw [logTwo, logUnits, twoPow_eq, twoPow_eq]
  push_cast
  ring

/-- Brought to the place of `2 ^ 127`, a ratio is a mantissa, and it loses less than one unit. -/
theorem logMantissa_bounds {ratio : ℕ} (hpos : 0 < ratio) (hlt : ratio < 2 ^ 256) :
    IsMantissa (logMantissa ratio (topBit ratio)) ∧
      logMantissa ratio (topBit ratio) * 2 ^ topBit ratio ≤ ratio * 2 ^ 127 ∧
      ratio * 2 ^ 127 < (logMantissa ratio (topBit ratio) + 1) * 2 ^ topBit ratio := by
  have hge := twoPow_topBit_le hpos hlt
  have hltTop := lt_twoPow_topBit_succ hpos hlt
  rw [twoPow_eq] at hge hltTop
  generalize topBit ratio = top at hge hltTop ⊢
  simp only [logMantissa, twoPow_eq]
  by_cases htop : 128 ≤ top
  · obtain ⟨extra, rfl⟩ : ∃ extra, top = 127 + extra := ⟨top - 127, by omega⟩
    rw [if_pos htop, Nat.add_sub_cancel_left]
    have hunit : 0 < 2 ^ extra := Nat.two_pow_pos extra
    have hfloor := Nat.div_mul_le_self ratio (2 ^ extra)
    have hceil := Nat.lt_div_mul_add (a := ratio) hunit
    rw [pow_add] at hge
    rw [show 127 + extra + 1 = 128 + extra by omega, pow_add] at hltTop
    refine ⟨⟨?_, ?_⟩, ?_, ?_⟩
    · rwa [Nat.le_div_iff_mul_le hunit]
    · rwa [Nat.div_lt_iff_lt_mul hunit]
    · rw [pow_add]
      nlinarith
    · rw [pow_add]
      nlinarith
  · obtain ⟨extra, hextra⟩ : ∃ extra, 127 = top + extra := ⟨127 - top, by omega⟩
    rw [if_neg htop, hextra, Nat.add_sub_cancel_left]
    refine ⟨⟨?_, ?_⟩, ?_, ?_⟩
    · rw [hextra, pow_add]
      exact Nat.mul_le_mul_right _ hge
    · rw [show 128 = top + 1 + extra by omega, pow_add]
      exact Nat.mul_lt_mul_of_pos_right hltTop (Nat.two_pow_pos extra)
    · rw [pow_add]
      exact le_of_eq (by ring)
    · rw [pow_add]
      have hone := Nat.two_pow_pos top
      nlinarith

/-- A ratio is its mantissa times the power of its highest bit, up to one unit of the mantissa. -/
theorem mantissaValue_logMantissa_bounds {ratio : ℕ} (hpos : 0 < ratio) (hlt : ratio < 2 ^ 256) :
    mantissaValue (logMantissa ratio (topBit ratio)) ≤ ratio / 2 ^ topBit ratio ∧
      ratio / 2 ^ topBit ratio ≤
        mantissaValue (logMantissa ratio (topBit ratio)) * (1 + 1 / 2 ^ 127) := by
  obtain ⟨hmantissa, hfloor, hceil⟩ := logMantissa_bounds hpos hlt
  set mantissa := logMantissa ratio (topBit ratio)
  set top := topBit ratio
  constructor
  · have hcast : (mantissa : ℝ) * 2 ^ top ≤ ratio * 2 ^ 127 := by exact_mod_cast hfloor
    rw [mantissaValue_eq, div_le_div_iff₀ (by positivity) (by positivity)]
    exact hcast
  · have hcast : (ratio : ℝ) * 2 ^ 127 ≤ (mantissa + 1) * 2 ^ top := by exact_mod_cast hceil.le
    rw [mantissaValue_eq, div_mul_eq_mul_div, div_le_div_iff₀ (by positivity) (by positivity)]
    exact le_trans hcast (mul_le_mul_of_nonneg_right hmantissa.add_one_le (by positivity))

/-- The units of the logarithm are below it by less than one, up to `2 ^ -112` of a unit. -/
theorem logUnits_bounds {ratio : ℕ} (hpos : 0 < ratio) (hlt : ratio < 2 ^ 256) :
    logUnits ratio * Real.log 2 ≤ 2 ^ 14 * Real.log (ratio / 2 ^ 128) ∧
      2 ^ 14 * Real.log (ratio / 2 ^ 128) ≤ (logUnits ratio + 1) * Real.log 2 + 1 / 2 ^ 112 := by
  obtain ⟨hmantissa, -, -⟩ := logMantissa_bounds hpos hlt
  obtain ⟨hlow, hhigh⟩ := logDigits_bounds 14 hmantissa
  obtain ⟨hfloor, hceil⟩ := mantissaValue_logMantissa_bounds hpos hlt
  have hvalue := hmantissa.one_le_value
  rw [logUnits]
  set mantissa := logMantissa ratio (topBit ratio)
  set top := topBit ratio
  have hratio : (0 : ℝ) < ratio := by exact_mod_cast hpos
  have hsplit : Real.log (ratio / 2 ^ 128) =
      (top - 128) * Real.log 2 + Real.log (ratio / 2 ^ top) := by
    rw [Real.log_div hratio.ne' (by positivity), Real.log_div hratio.ne' (by positivity),
      Real.log_pow, Real.log_pow]
    push_cast
    ring
  have hloglow := Real.log_le_log (by linarith) hfloor
  have hloghigh := Real.log_le_log (by positivity) hceil
  rw [Real.log_mul (by linarith) (by positivity)] at hloghigh
  have hsmall := Real.log_le_sub_one_of_pos (by positivity : (0 : ℝ) < 1 + 1 / 2 ^ 127)
  push_cast
  rw [hsplit]
  norm_num at hlow hhigh hsmall ⊢
  constructor <;> linarith

end RangeBook
