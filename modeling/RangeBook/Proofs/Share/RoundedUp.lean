import Mathlib
import RangeBook.Proofs.Failure
import RangeBook.Proofs.Share.Monotone

/-!
# Shares that are rounded up

A share can be scaled by every fraction of at most one (`exists_scale`), and the result is meant to
be the exact product rounded up. It is, except where rounding up carries out of the 256 digits of
the mantissa: there the carry is dropped, and the mantissa stays all ones (`LosesCarry`). That is
the only way for the result to lie below the exact product (`le_scale_iff`). It takes a product in
the gap between a mantissa that is all ones and the power of two above it (`LosesCarry.between`),
and the result is then short by less than one unit in its last place.
-/

set_option autoImplicit false
set_option relaxedAutoImplicit false

namespace RangeBook.Share

variable {share next : Share} {numerator denominator amount : ℕ}

/-! ### Shares can be scaled -/

theorem leadingDigits_normalised (hamount : amount < twoPow 512) (hdigits : 256 ≤ digits amount) :
    twoPow 255 ≤ leadingDigits amount ∧ leadingDigits amount < twoPow 256 := by
  have hunit := twoPow_pos (digits amount - 256)
  have hlength : twoPow 255 * twoPow (digits amount - 256) ≤ amount := by
    rw [← twoPow_add, show 255 + (digits amount - 256) = digits amount - 1 by omega]
    exact twoPow_digits_le (pos_of_digits_ge hdigits)
  have hceil : twoPow 255 ≤ divCeil amount (twoPow (digits amount - 256)) :=
    Nat.le_of_mul_le_mul_right (hlength.trans ((divCeil_le_iff hunit).mp le_rfl)) hunit
  rw [leadingDigits_eq hamount hdigits]
  refine ⟨le_min hceil (by decide), lt_of_le_of_lt (min_le_right _ _) (by decide)⟩

section

variable (hpos : 0 < numerator) (hle : numerator ≤ denominator)
  (hdenominator : denominator < twoPow 256)

include hpos hle hdenominator

/-- Every share can be scaled by every fraction of at most one. -/
theorem exists_scale : ∃ next, share.scale numerator denominator = .ok next := by
  have hlost : digits (share.mantissa * numerator) ≤
      768 - digits (share.scaledRatio numerator denominator) :=
    digits_product_le share hpos hle hdenominator
  have hscaled := scaledUp share hpos hle hdenominator
  obtain ⟨hge, hlt⟩ := leadingDigits_normalised hscaled.ratio_lt hscaled.digits_ge
  refine FailsOnly.exists_eq_ok ?_
  refine .bind (.require (absurd ⟨hpos, hle⟩)) fun _ _ ↦ .bind (.require (absurd hlost)) fun _ _ ↦
    .ite (fun hexponent ↦ ?_) fun _ ↦ .pure _
  refine .of_eq_ok (orReject_eq_ok.mpr (dif_pos ⟨hge, hlt, hexponent⟩))

end

/-! ### Lost carries -/

/-- Whether rounding up carries out of the mantissa: the quotient has 256 leading ones, more digits
that are not all zero, and an exponent in range. -/
def LosesCarry (share : Share) (numerator denominator : ℕ) : Prop :=
  (twoPow 256 - 1) * twoPow (digits (share.scaledRatio numerator denominator) - 256) <
      share.scaledRatio numerator denominator ∧
    share.scaledExponent numerator denominator < twoPow 128

instance (share : Share) (numerator denominator : ℕ) :
    Decidable (share.LosesCarry numerator denominator) :=
  inferInstanceAs (Decidable (_ ∧ _))

/-- The leading digits reach the whole amount, unless all 256 are ones and more follows. -/
theorem le_leadingDigits_iff (hamount : amount < twoPow 512) (hdigits : 256 ≤ digits amount) :
    amount ≤ leadingDigits amount * twoPow (digits amount - 256) ↔
      amount ≤ (twoPow 256 - 1) * twoPow (digits amount - 256) := by
  have hceil := (divCeil_le_iff (twoPow_pos (digits amount - 256))).mp (le_refl (divCeil amount _))
  rw [leadingDigits_eq hamount hdigits, ← Nat.mul_min_mul_right, le_min_iff, and_iff_right hceil]

/-- A quotient rounded up is at most an integer exactly where the exact quotient is. -/
theorem ScaledUp.le_iff {ratio exponent bound : ℕ}
    (h : ScaledUp share numerator denominator ratio exponent) :
    share.value * (numerator / denominator) * 2 ^ (digits ratio + exponent) ≤ bound ↔
      ratio ≤ bound := by
  constructor
  · intro hbound
    have hlt : (ratio : ℚ) < bound + 1 := h.ratio_lt_add_one.trans_le (add_le_add_left hbound 1)
    exact Nat.lt_succ_iff.mp (by exact_mod_cast hlt)
  · intro hbound
    exact h.le_ratio.trans (by exact_mod_cast hbound)

/-- A share that is scaled is at least the exact product, unless a carry is lost. -/
theorem le_scale_iff (hdenominator : denominator < twoPow 256)
    (h : share.scale numerator denominator = .ok next) :
    share.value * (numerator / denominator) ≤ next.value ↔
      ¬share.LosesCarry numerator denominator := by
  obtain ⟨-, hscaled, ⟨hmantissa, hexponent⟩ | ⟨hlow, rfl⟩⟩ := scaled_of_scale hdenominator h
  · have hinRange := hexponent ▸ next.exponent_lt
    rw [LosesCarry, and_iff_left hinRange, not_lt,
      ← le_leadingDigits_iff hscaled.ratio_lt hscaled.digits_ge, ← hscaled.le_iff, ← hmantissa,
      Nat.cast_mul, cast_twoPow, ← hscaled.places hexponent, ← mul_assoc, ← value_eq_mul_unit]
    exact (mul_le_mul_iff_left₀ (by positivity)).symm
  · exact iff_of_true (hscaled.lt_smallest hlow).le fun hlost ↦ absurd hlost.2 (not_lt.mpr hlow)

/-- A carry is lost only where the exact product lies between a mantissa that is all ones and the
power of two above it. -/
theorem LosesCarry.between (h : share.LosesCarry numerator denominator)
    (hscaled : ScaledUp share numerator denominator (share.scaledRatio numerator denominator)
      (share.scaledExponent numerator denominator)) :
    ∃ places < twoPow 128,
      (1 - 1 / 2 ^ 256) / 2 ^ places < share.value * (numerator / denominator) ∧
        share.value * (numerator / denominator) < 1 / 2 ^ places := by
  obtain ⟨hones, hinRange⟩ := h
  generalize share.scaledRatio numerator denominator = ratio at hones hscaled
  generalize share.scaledExponent numerator denominator = exponent at hinRange hscaled
  have hpower : (2 : ℚ) ^ (digits ratio + exponent) =
      2 ^ 256 * 2 ^ (digits ratio - 256) * 2 ^ exponent := by
    rw [pow_add, ← pow_add 2 256, Nat.add_sub_cancel' hscaled.digits_ge]
  have hbelow := mt hscaled.le_iff.mp (not_le.mpr hones)
  have habove : (ratio : ℚ) < 2 ^ digits ratio := by exact_mod_cast lt_twoPow_digits ratio
  refine ⟨exponent, hinRange, ?_, ?_⟩
  · rw [not_le, hpower, Nat.cast_mul, cast_twoPow, Nat.cast_pred (twoPow_pos 256), cast_twoPow]
      at hbelow
    rw [← mul_lt_mul_iff_left₀ (show (0 : ℚ) < 2 ^ 256 * 2 ^ (digits ratio - 256) * 2 ^ exponent by
      positivity)]
    calc (1 - 1 / 2 ^ 256 : ℚ) / 2 ^ exponent * (2 ^ 256 * 2 ^ (digits ratio - 256) * 2 ^ exponent)
        = (2 ^ 256 - 1) * 2 ^ (digits ratio - 256) := by field_simp
      _ < _ := hbelow
  · rw [lt_div_iff₀ (by positivity), ← mul_lt_mul_iff_left₀ (show (0 : ℚ) < 2 ^ digits ratio by
      positivity), one_mul, mul_assoc, ← pow_add, Nat.add_comm exponent]
    exact hscaled.le_ratio.trans_lt habove

/-! ### The law -/

/-- How a share that was scaled lies to the exact product. -/
structure RoundedUp (share : Share) (numerator denominator : ℕ) (next : Share) : Prop where
  le_iff : share.value * (numerator / denominator) ≤ next.value ↔
    ¬share.LosesCarry numerator denominator
  lt_add_unit : share.value * (numerator / denominator) < next.value + next.unit
  /-- As long as the exponent has room to grow, the result is rounded up by less than one unit. -/
  value_lt : share.exponent + 256 < twoPow 128 →
    next.value < share.value * (numerator / denominator) + next.unit
  /-- Where the carry is lost, the exact product lies in the gap between a mantissa that is all ones
  and the power of two above it. -/
  lost_between : share.LosesCarry numerator denominator → ∃ places < twoPow 128,
    (1 - 1 / 2 ^ 256) / 2 ^ places < share.value * (numerator / denominator) ∧
      share.value * (numerator / denominator) < 1 / 2 ^ places

/-- Every share can be scaled by every fraction of at most one, and is not understated unless a
carry is lost. -/
theorem scale_rounds_up (hpos : 0 < numerator) (hle : numerator ≤ denominator)
    (hdenominator : denominator < twoPow 256) :
    ∃ next, share.scale numerator denominator = .ok next ∧
      share.RoundedUp numerator denominator next := by
  obtain ⟨next, hnext⟩ := exists_scale hpos hle hdenominator
  exact ⟨next, hnext, le_scale_iff hdenominator hnext, lt_scale_add_unit hdenominator hnext,
    fun hroom ↦ scale_lt_add_unit hdenominator hroom hnext,
    fun hlost ↦ hlost.between (scaled_of_scale hdenominator hnext).2.1⟩

/-- A seventh of the largest share takes more than 256 digits. It is rounded up, and no carry is
lost. -/
theorem scale_rounds_up_seventh :
    ∃ next, largest.scale 1 7 = .ok next ∧ largest.RoundedUp 1 7 next ∧
      ¬largest.LosesCarry 1 7 := by
  obtain ⟨next, hnext, hrounded⟩ :=
    scale_rounds_up (by decide : 0 < 1) (by decide : 1 ≤ 7) (by decide : 7 < twoPow 256)
  exact ⟨next, hnext, hrounded, by decide +kernel⟩

/-- The greatest share with no more than five sixths of the whole. -/
def fiveSixths : Share :=
  { largest with
    mantissa := 5 * twoPow 255 / 3
    mantissa_ge := by decide
    mantissa_lt := by decide }

/-- Three fifths of five sixths are a half, less a fifth of the last place. Rounded up that is a
half, but the carry is lost, and the result lies half a place below. -/
theorem scale_understates :
    ∃ next, fiveSixths.scale 3 5 = .ok next ∧ next.mantissa = twoPow 256 - 1 ∧ next.exponent = 1 ∧
      next.value < fiveSixths.value * (3 / 5) := by
  have hparts : (fun next : Share ↦ (next.mantissa, next.exponent)) <$> fiveSixths.scale 3 5 =
      .ok (twoPow 256 - 1, 1) := by decide +kernel
  obtain ⟨next, hnext⟩ := exists_scale (by decide : 0 < 3) (by decide : 3 ≤ 5)
    (by decide : 5 < twoPow 256)
  rw [hnext] at hparts
  obtain ⟨hmantissa, hexponent⟩ := Prod.mk.inj (Except.ok.inj hparts)
  have hloses : fiveSixths.LosesCarry 3 5 := by decide +kernel
  have hbelow := (le_scale_iff (by decide) hnext).not.mpr (not_not.mpr hloses)
  exact ⟨next, hnext, hmantissa, hexponent, by exact_mod_cast not_le.mp hbelow⟩

end RangeBook.Share
