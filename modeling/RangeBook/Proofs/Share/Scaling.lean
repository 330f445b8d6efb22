import Mathlib
import RangeBook.Proofs.Share.RoundedUp

/-!
# Scaling shares down

A share is scaled by the fractions above zero and of at most one, and by no others. On the way no
shift is negative and no width is left (`KeepsWidths`). The result is no greater than the share, and
the share itself where the fraction is one (`scale_self`); a greater fraction leaves no less. It lies
less than one unit in its last place from the exact product, on one side or the other, as long as
the exponent stays in its range. Where it does not, even the smallest share is more than the exact
product, and that is the result (`ScaledDown`).
-/

set_option autoImplicit false
set_option relaxedAutoImplicit false

namespace RangeBook.Share

variable {share next : Share} {amount places numerator denominator : ℕ}

/-! ### Scaling by one -/

theorem digits_mul_twoPow (hpos : 0 < amount) (places : ℕ) :
    digits (amount * twoPow places) = digits amount + places := by
  have hraised : 0 < amount * twoPow places := Nat.mul_pos hpos (twoPow_pos places)
  refine le_antisymm (digits_le hraised ?_) ?_
  · rw [twoPow_add]
    exact Nat.mul_lt_mul_of_pos_right (lt_twoPow_digits amount) (twoPow_pos places)
  · have hlength : twoPow (digits amount - 1 + places) ≤ amount * twoPow places := by
      rw [twoPow_add]
      exact Nat.mul_le_mul_right _ (twoPow_digits_le hpos)
    have hlt := lt_digits hraised hlength
    have hone : 1 ≤ digits amount := Nat.le_add_left 1 _
    omega

theorem digits_mantissa (share : Share) : digits share.mantissa = 256 :=
  le_antisymm (digits_le share.mantissa_pos share.mantissa_lt)
    (lt_digits share.mantissa_pos share.mantissa_ge)

/-- The leading digits of a mantissa with zeros after it are the mantissa. -/
theorem leadingDigits_mantissa (hfits : share.mantissa * twoPow places < twoPow 512) :
    leadingDigits (share.mantissa * twoPow places) = share.mantissa := by
  have hdigits : digits (share.mantissa * twoPow places) = 256 + places := by
    rw [digits_mul_twoPow share.mantissa_pos, digits_mantissa]
  rw [leadingDigits_eq hfits (by omega), hdigits, Nat.add_sub_cancel_left,
    divCeil_mul_self _ (twoPow_pos places)]
  exact min_eq_left (Nat.le_sub_one_of_lt share.mantissa_lt)

theorem scaledRatio_self (share : Share) (hpos : 0 < denominator) :
    share.scaledRatio denominator denominator =
      share.mantissa * twoPow (512 - digits (share.mantissa * denominator)) := by
  rw [scaledRatio, Nat.mul_right_comm share.mantissa denominator, divCeil_mul_self _ hpos]

/-- Scaling by one leaves a share as it is. -/
theorem scale_self (hpos : 0 < denominator) (hdenominator : denominator < twoPow 256) :
    share.scale denominator denominator = .ok share := by
  obtain ⟨next, hnext⟩ : ∃ next, share.scale denominator denominator = .ok next :=
    exists_scale hpos le_rfl hdenominator
  obtain ⟨-, hscaled, hresult⟩ := scaled_of_scale hdenominator hnext
  obtain ⟨hge, hle⟩ := digits_product_bounds share hpos le_rfl hdenominator
  have hratio := scaledRatio_self share hpos
  have hexponent : share.scaledExponent denominator denominator = share.exponent := by
    rw [scaledExponent, hratio, digits_mul_twoPow share.mantissa_pos, digits_mantissa]
    omega
  obtain ⟨hmantissa, hsame⟩ | ⟨hlow, -⟩ := hresult
  · rw [hnext, ext_parts (hmantissa.trans ?_) (hsame.trans hexponent)]
    rw [hratio]
    exact leadingDigits_mantissa (hratio ▸ hscaled.ratio_lt)
  · exact absurd share.exponent_lt (not_lt.mpr (hexponent ▸ hlow))

/-! ### The law -/

/-- What scaling a share takes for granted on its way: the shifts that normalise the product, its
quotient and the exponent are not negative, the quotient has no more than 512 digits, and the leading
ones of them make a mantissa. -/
structure KeepsWidths (share : Share) (numerator denominator : ℕ) : Prop where
  product_ge : 256 ≤ digits (share.mantissa * numerator)
  product_le : digits (share.mantissa * numerator) ≤ 512
  ratio_ge : 256 ≤ digits (share.scaledRatio numerator denominator)
  ratio_lt : share.scaledRatio numerator denominator < twoPow 512
  exponent_ge : digits (share.mantissa * numerator) ≤
    768 - digits (share.scaledRatio numerator denominator)
  leading_ge : twoPow 255 ≤ leadingDigits (share.scaledRatio numerator denominator)
  leading_lt : leadingDigits (share.scaledRatio numerator denominator) < twoPow 256

theorem keepsWidths (share : Share) (hpos : 0 < numerator) (hle : numerator ≤ denominator)
    (hdenominator : denominator < twoPow 256) : share.KeepsWidths numerator denominator := by
  obtain ⟨hproductGe, hproductLe⟩ := digits_product_bounds share hpos hle hdenominator
  have hratioGe := digits_scaledRatio_ge share hpos hle hdenominator
  have hratioLt := (scaledRatio_bounds share hpos hle hdenominator).2
  obtain ⟨hleadingGe, hleadingLt⟩ := leadingDigits_normalised hratioLt hratioGe
  exact ⟨hproductGe, hproductLe, hratioGe, hratioLt,
    digits_product_le share hpos hle hdenominator, hleadingGe, hleadingLt⟩

/-- Whether scaling takes the exponent out of its range. -/
def Exhausts (share : Share) (numerator denominator : ℕ) : Prop :=
  twoPow 128 ≤ share.scaledExponent numerator denominator

instance (share : Share) (numerator denominator : ℕ) :
    Decidable (share.Exhausts numerator denominator) :=
  inferInstanceAs (Decidable (_ ≤ _))

/-- How a share that was scaled lies to the share that it was and to the exact product. -/
structure ScaledDown (share : Share) (numerator denominator : ℕ) (next : Share) : Prop where
  normalised : next.mantissa.testBit 255
  le_share : next ≤ share
  eq_of_whole : numerator = denominator → next = share
  near : ¬share.Exhausts numerator denominator →
    |next.value - share.value * (numerator / denominator)| < next.unit
  saturated : share.Exhausts numerator denominator →
    next = smallest ∧ share.value * (numerator / denominator) < smallest.value

theorem testBit_mantissa (share : Share) : share.mantissa.testBit 255 := by
  have hone : share.mantissa / 2 ^ 255 = 1 := by
    refine Nat.div_eq_of_lt_le ?_ ?_
    · rw [one_mul, ← twoPow_eq]
      exact share.mantissa_ge
    · rw [← twoPow_eq, Nat.add_one, ← twoPow_succ]
      exact share.mantissa_lt
  rw [Nat.testBit_eq_decide_div_mod_eq, hone]
  rfl

theorem scaledDown_of_scale (hdenominator : denominator < twoPow 256)
    (h : share.scale numerator denominator = .ok next) :
    share.ScaledDown numerator denominator next := by
  obtain ⟨hpos, hle⟩ := scale_eq_ok h
  obtain ⟨-, hscaled, hresult⟩ := scaled_of_scale hdenominator h
  have hself : share.scale denominator denominator = .ok share :=
    scale_self (lt_of_lt_of_le hpos hle) hdenominator
  refine ⟨testBit_mantissa next, scale_le_scale hdenominator hle h hself, ?_, ?_, ?_⟩
  · rintro rfl
    exact Except.ok.inj (h.symm.trans hself)
  · intro hroom
    obtain ⟨hmantissa, hexponent⟩ | ⟨hlow, -⟩ := hresult
    · rw [abs_sub_lt_iff, sub_lt_iff_lt_add', sub_lt_iff_lt_add']
      exact ⟨hscaled.lt_add_unit hmantissa hexponent, lt_scale_add_unit hdenominator h⟩
    · exact absurd hlow hroom
  · intro hexhausts
    refine ⟨?_, hscaled.lt_smallest hexhausts⟩
    obtain ⟨-, hexponent⟩ | ⟨-, hsmallest⟩ := hresult
    · exact absurd (hexponent ▸ next.exponent_lt) (not_lt.mpr hexhausts)
    · exact hsmallest

/-- A share is scaled by the fractions above zero and of at most one, and rejected for all others.
The result is no greater than the share, and no less the greater the fraction is. -/
theorem scale_shrinks (hdenominator : denominator < twoPow 256) :
    (share.scale numerator denominator = .error (.rejected .fractionOutOfRange) ↔
      numerator = 0 ∨ denominator < numerator) ∧
    (0 < numerator → numerator ≤ denominator → share.KeepsWidths numerator denominator ∧
      ∃ next, share.scale numerator denominator = .ok next ∧
        share.ScaledDown numerator denominator next ∧
        ∀ less fewer, less ≤ numerator → share.scale less denominator = .ok fewer →
          fewer ≤ next) := by
  refine ⟨⟨fun hrejected ↦ ?_, fun houtside ↦ ?_⟩, fun hpos hle ↦ ?_⟩
  · by_contra hwithin
    push Not at hwithin
    obtain ⟨next, hnext⟩ := exists_scale (Nat.pos_of_ne_zero hwithin.1) hwithin.2 hdenominator
    rw [hnext] at hrejected
    exact absurd hrejected (by simp)
  · refine bind_eq_error.mpr (.inl (require_eq_error.mpr ⟨?_, rfl⟩))
    rintro ⟨hpos, hle⟩
    omega
  · obtain ⟨next, hnext⟩ := exists_scale hpos hle hdenominator
    exact ⟨keepsWidths share hpos hle hdenominator, next, hnext,
      scaledDown_of_scale hdenominator hnext,
      fun less fewer hless hfewer ↦ scale_le_scale hdenominator hless hfewer hnext⟩

/-- Of the smallest share a quarter is the smallest share again. Six sevenths of the largest lie
less than a unit in the last place from the exact product, and three sevenths are no more. -/
theorem scale_shrinks_smallest_largest :
    (smallest.Exhausts 1 4 ∧ ∃ next, smallest.scale 1 4 = .ok next ∧
      smallest.ScaledDown 1 4 next ∧ next = smallest) ∧
    ¬largest.Exhausts 6 7 ∧ ∃ next, largest.scale 6 7 = .ok next ∧
      largest.ScaledDown 6 7 next ∧
      |next.value - largest.value * ((6 : ℕ) / (7 : ℕ))| < next.unit ∧
      ∃ fewer, largest.scale 3 7 = .ok fewer ∧ fewer ≤ next := by
  have hexhausts : smallest.Exhausts 1 4 := by decide +kernel
  have hroom : ¬largest.Exhausts 6 7 := by decide +kernel
  obtain ⟨-, quarter, hquarter, hdown, -⟩ :=
    (scale_shrinks (by decide : 4 < twoPow 256)).2 (by decide : 0 < 1) (by decide : 1 ≤ 4)
  obtain ⟨-, next, hnext, hscaled, hmost⟩ :=
    (scale_shrinks (by decide : 7 < twoPow 256)).2 (by decide : 0 < 6) (by decide : 6 ≤ 7)
  obtain ⟨fewer, hfewer⟩ : ∃ fewer, largest.scale 3 7 = .ok fewer :=
    exists_scale (by decide) (by decide) (by decide)
  exact ⟨⟨hexhausts, quarter, hquarter, hdown, (hdown.saturated hexhausts).1⟩,
    hroom, next, hnext, hscaled, hscaled.near hroom,
    fewer, hfewer, hmost 3 fewer (by decide) hfewer⟩

end RangeBook.Share
