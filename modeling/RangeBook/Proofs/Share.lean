import Mathlib
import RangeBook.Share
import RangeBook.Proofs.Quotient

/-!
# The values of shares

A share stands for an exact fraction (`value`), and the order of shares is the order of their values
(`value_le_value_iff`).

A share that is scaled is rounded up to 256 digits. It misses the exact product by less than one
unit in its last place (`lt_scale_add_unit`, `scale_lt_add_unit`), and is at least the product
unless its mantissa is all ones (`le_scale`).
-/

set_option autoImplicit false
set_option relaxedAutoImplicit false

namespace RangeBook.Share

/-- The fraction that a share stands for. -/
def value (share : Share) : ℚ :=
  share.mantissa / 2 ^ 256 / 2 ^ share.exponent

variable {left right numerator denominator : Share}

theorem mantissa_pos (share : Share) : 0 < share.mantissa :=
  lt_of_lt_of_le (twoPow_pos 255) share.mantissa_ge

theorem mantissa_mul_lt (share : Share) {factor : ℕ} (h : factor < twoPow 256) :
    share.mantissa * factor < twoPow 512 := by
  rw [show 512 = 256 + 256 from rfl, twoPow_add]
  exact Nat.mul_lt_mul'' share.mantissa_lt h

theorem value_pos (share : Share) : 0 < share.value := by
  have hmantissa : (0 : ℚ) < share.mantissa := by exact_mod_cast share.mantissa_pos
  unfold value
  positivity

theorem exponent_le (h : left ≤ right) : right.exponent ≤ left.exponent := by
  rcases h with hlt | ⟨heq, -⟩
  · exact hlt.le
  · exact heq.ge

/-- The ratio of two shares is that of their mantissas, moved by the difference of the exponents. -/
theorem value_div_value (h : numerator ≤ denominator) :
    numerator.value / denominator.value =
      numerator.mantissa / denominator.mantissa /
        2 ^ (numerator.exponent - denominator.exponent) := by
  have hdenominator : (denominator.mantissa : ℚ) ≠ 0 := by exact_mod_cast denominator.mantissa_pos.ne'
  have hpower : (2 : ℚ) ^ numerator.exponent =
      2 ^ (numerator.exponent - denominator.exponent) * 2 ^ denominator.exponent := by
    rw [← pow_add, Nat.sub_add_cancel (exponent_le h)]
  unfold value
  rw [hpower]
  field_simp

/-- Mantissas are normalised, so a share of a larger exponent has a smaller value. -/
theorem value_lt_of_exponent_lt (h : right.exponent < left.exponent) : left.value < right.value := by
  rw [← div_lt_one right.value_pos, value_div_value (.inl h), div_lt_one (by positivity)]
  have hright : (0 : ℚ) < right.mantissa := by exact_mod_cast right.mantissa_pos
  rw [div_lt_iff₀ hright]
  have hdouble : left.mantissa < 2 * right.mantissa :=
    calc left.mantissa < twoPow (255 + 1) := left.mantissa_lt
      _ = 2 * twoPow 255 := twoPow_succ 255
      _ ≤ 2 * right.mantissa := Nat.mul_le_mul_left 2 right.mantissa_ge
  have hone : 1 ≤ left.exponent - right.exponent := Nat.le_sub_of_add_le' h
  have hpower : (2 : ℚ) ≤ 2 ^ (left.exponent - right.exponent) := by
    calc (2 : ℚ) = 2 ^ 1 := (pow_one 2).symm
      _ ≤ 2 ^ (left.exponent - right.exponent) := pow_le_pow_right₀ one_le_two hone
  calc (left.mantissa : ℚ) < 2 * right.mantissa := by exact_mod_cast hdouble
    _ ≤ 2 ^ (left.exponent - right.exponent) * right.mantissa :=
      mul_le_mul_of_nonneg_right hpower hright.le

/-- Shares of one exponent have the values that their mantissas give them. -/
theorem value_le_value_of_exponent_eq (h : left.exponent = right.exponent) :
    left.value ≤ right.value ↔ left.mantissa ≤ right.mantissa := by
  unfold value
  rw [h, div_le_div_iff_of_pos_right (by positivity), div_le_div_iff_of_pos_right (by positivity),
    Nat.cast_le]

theorem value_lt_of_mantissa_lt (hexponent : left.exponent = right.exponent)
    (hlt : left.mantissa < right.mantissa) : left.value < right.value :=
  lt_of_not_ge fun hge ↦
    not_le.mpr hlt ((value_le_value_of_exponent_eq hexponent.symm).mp hge)

/-- Shares are ordered as their values are. -/
theorem value_le_value_iff : left.value ≤ right.value ↔ left ≤ right := by
  rcases lt_trichotomy left.exponent right.exponent with hlt | heq | hgt
  · refine iff_of_false (not_le.mpr (value_lt_of_exponent_lt hlt)) fun hle ↦ ?_
    exact absurd (exponent_le hle) (not_le.mpr hlt)
  · rw [value_le_value_of_exponent_eq heq]
    exact ⟨fun hle ↦ .inr ⟨heq, hle⟩, fun hle ↦ (hle.resolve_left heq.le.not_gt).2⟩
  · exact iff_of_true (value_lt_of_exponent_lt hgt).le (.inl hgt)

/-- Dropping digits splits a value as division by a power of two does. -/
theorem dropDigits_split {amount shift kept dropped : ℕ} (hamount : amount < twoPow 512)
    (h : dropDigits amount shift = (kept, dropped)) :
    kept * twoPow shift + dropped = amount ∧ dropped < twoPow shift := by
  unfold dropDigits at h
  split at h
  · rename_i hshift
    obtain ⟨rfl, rfl⟩ := Prod.mk.inj h
    have hle : twoPow 512 ≤ twoPow shift := by
      rw [← Nat.add_sub_cancel' hshift, twoPow_add]
      exact Nat.le_mul_of_pos_right _ (twoPow_pos _)
    rw [zero_mul, zero_add]
    exact ⟨rfl, lt_of_lt_of_le hamount hle⟩
  · obtain ⟨rfl, rfl⟩ := Prod.mk.inj h
    exact ⟨Nat.div_add_mod' amount (twoPow shift), Nat.mod_lt amount (twoPow_pos shift)⟩

/-! ### Scaling -/

theorem twoPow_digits_le {amount : ℕ} (hpos : 0 < amount) : twoPow (digits amount - 1) ≤ amount :=
  Nat.log2_self_le hpos.ne'

theorem lt_twoPow_digits (amount : ℕ) : amount < twoPow (digits amount) :=
  Nat.lt_log2_self

theorem digits_le {amount bits : ℕ} (hpos : 0 < amount) (h : amount < twoPow bits) :
    digits amount ≤ bits :=
  (Nat.log2_lt hpos.ne').mpr h

theorem lt_digits {amount bits : ℕ} (hpos : 0 < amount) (h : twoPow bits ≤ amount) :
    bits < digits amount :=
  Nat.lt_succ_of_le ((Nat.le_log2 hpos.ne').mpr h)

/-- The leading digits are rounded up by less than one unit in their last place, unless that would
take more than 256 of them. -/
theorem leadingDigits_bounds {amount : ℕ} (hamount : amount < twoPow 512) :
    leadingDigits amount * twoPow (digits amount - 256) <
        amount + twoPow (digits amount - 256) ∧
      (leadingDigits amount < twoPow 256 - 1 →
        amount ≤ leadingDigits amount * twoPow (digits amount - 256)) := by
  unfold leadingDigits
  rcases hdigits : dropDigits amount (digits amount - 256) with ⟨kept, dropped⟩
  obtain ⟨hsplit, hdropped⟩ := dropDigits_split hamount hdigits
  generalize twoPow (digits amount - 256) = unit at hsplit hdropped ⊢
  dsimp only
  split
  · rename_i hnone
    exact ⟨by omega, fun _ ↦ by omega⟩
  · rename_i hsome
    have hnext : (kept + 1) * unit = kept * unit + unit := Nat.add_one_mul kept unit
    constructor
    · calc min (kept + 1) (twoPow 256 - 1) * unit ≤ (kept + 1) * unit :=
            Nat.mul_le_mul_right unit (min_le_left _ _)
        _ < amount + unit := by omega
    · intro hfits
      rw [min_eq_left (by omega), hnext]
      omega

theorem smallest_value : smallest.value * 2 ^ twoPow 128 = 1 := by
  have hmantissa : smallest.mantissa = twoPow 255 := rfl
  have hexponent : smallest.exponent = twoPow 128 - 1 := rfl
  have hpos := twoPow_pos 128
  rw [value, hmantissa, hexponent, cast_twoPow]
  generalize twoPow 128 = bound at hpos
  obtain ⟨bound, rfl⟩ := Nat.exists_eq_add_one.mpr hpos
  rw [Nat.add_sub_cancel]
  field_simp
  ring

/-- One unit in the last place of a share's mantissa. -/
def unit (share : Share) : ℚ :=
  1 / 2 ^ 256 / 2 ^ share.exponent

theorem unit_pos (share : Share) : 0 < share.unit := by
  unfold unit
  positivity

theorem value_eq_mul_unit (share : Share) : share.value = share.mantissa * share.unit := by
  unfold value unit
  ring

/-- Mantissas have their top bit set, so the last place is a small part of a share. -/
theorem unit_le (share : Share) : share.unit * 2 ^ 255 ≤ share.value := by
  have hmantissa : (2 ^ 255 : ℚ) ≤ share.mantissa := by
    rw [← cast_twoPow]
    exact_mod_cast share.mantissa_ge
  rw [value_eq_mul_unit, mul_comm]
  exact mul_le_mul_of_nonneg_right hmantissa share.unit_pos.le

/-- A share of a larger exponent lies at least one unit in its last place below. -/
theorem value_add_unit_le_of_exponent_lt (h : right.exponent < left.exponent) :
    left.value + left.unit ≤ right.value := by
  have hmantissa : (left.mantissa : ℚ) + 1 ≤ 2 ^ 256 := by
    rw [← cast_twoPow]
    exact_mod_cast left.mantissa_lt
  have hpower : (2 : ℚ) * 2 ^ right.exponent ≤ 2 ^ left.exponent := by
    rw [← pow_succ']
    exact pow_le_pow_right₀ one_le_two h
  calc left.value + left.unit = (left.mantissa + 1) * left.unit := by
        rw [value_eq_mul_unit, add_one_mul]
    _ ≤ 2 ^ 256 * left.unit := mul_le_mul_of_nonneg_right hmantissa left.unit_pos.le
    _ = 1 / 2 ^ left.exponent := by
      unfold unit
      field_simp
    _ ≤ 1 / (2 * 2 ^ right.exponent) := one_div_le_one_div_of_le (by positivity) hpower
    _ = right.unit * 2 ^ 255 := by
      unfold unit
      rw [show (2 : ℚ) ^ 256 = 2 * 2 ^ 255 from pow_succ' 2 255]
      field_simp
    _ ≤ right.value := right.unit_le

/-- No other share lies less than one unit in its last place above a share. -/
theorem eq_of_value_lt_add_unit (hle : left ≤ right) (hlt : right.value < left.value + left.unit) :
    left = right := by
  obtain hexponent | ⟨hexponent, hmantissa⟩ := hle
  · exact absurd hlt (not_lt.mpr (value_add_unit_le_of_exponent_lt hexponent))
  · have hunit : right.unit = left.unit := by rw [unit, unit, hexponent]
    rw [value_eq_mul_unit, value_eq_mul_unit, hunit, ← add_one_mul,
      mul_lt_mul_iff_left₀ left.unit_pos] at hlt
    have hbelow : right.mantissa < left.mantissa + 1 := by exact_mod_cast hlt
    exact ext_parts (le_antisymm hmantissa (Nat.le_of_lt_succ hbelow)) hexponent

/-- What a share is scaled to before its leading digits are taken: a quotient rounded up that has
at least 256 digits, and the exponent that goes with it. -/
structure ScaledUp (share : Share) (numerator denominator ratio exponent : ℕ) : Prop where
  ratio_lt : ratio < twoPow 512
  digits_ge : 256 ≤ digits ratio
  exponent_le : exponent ≤ share.exponent + 256
  le_ratio : share.value * (numerator / denominator) * 2 ^ (digits ratio + exponent) ≤ ratio
  ratio_lt_add_one : (ratio : ℚ) <
    share.value * (numerator / denominator) * 2 ^ (digits ratio + exponent) + 1

theorem ofParts?_eq_some {mantissa exponent : ℕ} {share : Share}
    (h : ofParts? mantissa exponent = some share) :
    share.mantissa = mantissa ∧ share.exponent = exponent := by
  unfold ofParts? at h
  split at h
  · rw [← Option.some.inj h]
    exact ⟨rfl, rfl⟩
  · exact absurd h (by simp)

section

variable {share next : Share} {numerator denominator ratio exponent : ℕ}

/-- A share is scaled by a fraction of at most one. -/
theorem scale_eq_ok (h : share.scale numerator denominator = .ok next) :
    0 < numerator ∧ numerator ≤ denominator := by
  unfold scale at h
  obtain ⟨_, hrange, -⟩ := bind_eq_ok.mp h
  exact require_eq_ok.mp hrange

/-- The product of a share's mantissa and a numerator, raised to 512 digits. -/
def raisedProduct (share : Share) (numerator : ℕ) : ℕ :=
  share.mantissa * numerator * twoPow (512 - digits (share.mantissa * numerator))

/-- The quotient that a share is scaled to, with the product raised to 512 digits. -/
def scaledRatio (share : Share) (numerator denominator : ℕ) : ℕ :=
  divCeil (share.mantissa * numerator * twoPow (512 - digits (share.mantissa * numerator)))
    denominator

/-- The exponent that a share is scaled to. -/
def scaledExponent (share : Share) (numerator denominator : ℕ) : ℕ :=
  share.exponent +
    (768 - digits (share.scaledRatio numerator denominator) - digits (share.mantissa * numerator))

section

variable (share : Share) (hpos : 0 < numerator) (hle : numerator ≤ denominator)
  (hdenominator : denominator < twoPow 256)

include hpos hle hdenominator

theorem digits_product_bounds : 256 ≤ digits (share.mantissa * numerator) ∧
    digits (share.mantissa * numerator) ≤ 512 := by
  have hproductGe : twoPow 255 ≤ share.mantissa * numerator :=
    le_trans share.mantissa_ge (Nat.le_mul_of_pos_right _ hpos)
  have hproductPos := Nat.mul_pos share.mantissa_pos hpos
  exact ⟨lt_digits hproductPos hproductGe,
    digits_le hproductPos (share.mantissa_mul_lt (lt_of_le_of_lt hle hdenominator))⟩

theorem raisedProduct_bounds :
    twoPow 511 ≤ share.raisedProduct numerator ∧ share.raisedProduct numerator < twoPow 512 := by
  have hproductPos := Nat.mul_pos share.mantissa_pos hpos
  obtain ⟨hdigitsGe, hdigits⟩ := digits_product_bounds share hpos hle hdenominator
  unfold raisedProduct
  generalize share.mantissa * numerator = product at hproductPos hdigitsGe hdigits ⊢
  constructor
  · rw [show 511 = (digits product - 1) + (512 - digits product) by omega, twoPow_add]
    exact Nat.mul_le_mul_right _ (twoPow_digits_le hproductPos)
  · nth_rewrite 2 [← Nat.add_sub_cancel' hdigits]
    rw [twoPow_add]
    exact Nat.mul_lt_mul_of_pos_right (lt_twoPow_digits product) (twoPow_pos _)

theorem scaledRatio_bounds : twoPow 255 ≤ share.scaledRatio numerator denominator ∧
    share.scaledRatio numerator denominator < twoPow 512 := by
  have hdenominatorPos : 0 < denominator := lt_of_lt_of_le hpos hle
  obtain ⟨hraisedGe, hraisedLt⟩ := raisedProduct_bounds share hpos hle hdenominator
  have hbelow : share.raisedProduct numerator ≤
      share.scaledRatio numerator denominator * denominator :=
    (divCeil_le_iff hdenominatorPos).mp le_rfl
  constructor
  · by_contra hlt
    have hsmall : share.scaledRatio numerator denominator * denominator < twoPow 511 := by
      rw [show 511 = 255 + 256 from rfl, twoPow_add]
      exact Nat.mul_lt_mul'' (not_le.mp hlt) hdenominator
    omega
  · refine lt_of_le_of_lt ((divCeil_le_iff hdenominatorPos).mpr ?_) hraisedLt
    exact Nat.le_mul_of_pos_right _ hdenominatorPos

theorem digits_scaledRatio_ge : 256 ≤ digits (share.scaledRatio numerator denominator) := by
  have hratioGe := (scaledRatio_bounds share hpos hle hdenominator).1
  exact lt_digits (lt_of_lt_of_le (twoPow_pos 255) hratioGe) hratioGe

/-- A fraction of at most one does not lengthen the product, so the exponent does not fall. -/
theorem digits_product_le : digits (share.mantissa * numerator) ≤
    768 - digits (share.scaledRatio numerator denominator) := by
  have hdenominatorPos : 0 < denominator := lt_of_lt_of_le hpos hle
  have hratioGe := (scaledRatio_bounds share hpos hle hdenominator).1
  have hlength := (digits_product_bounds share hpos hle hdenominator).2
  have hproductLe : share.mantissa * numerator ≤ share.mantissa * denominator :=
    Nat.mul_le_mul_left _ hle
  have hratioLe : share.scaledRatio numerator denominator ≤
      share.mantissa * twoPow (512 - digits (share.mantissa * numerator)) := by
    rw [scaledRatio, divCeil_le_iff hdenominatorPos, Nat.mul_right_comm share.mantissa _ denominator]
    exact Nat.mul_le_mul_right _ hproductLe
  have hratioLt : share.scaledRatio numerator denominator <
      twoPow (256 + (512 - digits (share.mantissa * numerator))) := by
    rw [twoPow_add]
    exact lt_of_le_of_lt hratioLe
      (Nat.mul_lt_mul_of_pos_right share.mantissa_lt (twoPow_pos _))
  have hratioLength := digits_le (lt_of_lt_of_le (twoPow_pos 255) hratioGe) hratioLt
  omega

/-- The exact product, in the places of the quotient that a share is scaled to. -/
theorem value_mul_eq_quotient : share.value * (numerator / denominator) *
    2 ^ (digits (share.scaledRatio numerator denominator) +
      share.scaledExponent numerator denominator) =
    (share.raisedProduct numerator : ℚ) / denominator := by
  have hdenominatorCast : (0 : ℚ) < denominator := by exact_mod_cast lt_of_lt_of_le hpos hle
  have hlost := digits_product_le share hpos hle hdenominator
  obtain ⟨hproductDigits, hlength⟩ :=
    digits_product_bounds share hpos hle hdenominator
  have hplaces : digits (share.scaledRatio numerator denominator) +
      share.scaledExponent numerator denominator =
        (512 - digits (share.mantissa * numerator)) + 256 + share.exponent := by
    unfold scaledExponent
    omega
  rw [hplaces, raisedProduct, value, Nat.cast_mul, Nat.cast_mul, cast_twoPow, pow_add, pow_add]
  field_simp

theorem scaledUp : ScaledUp share numerator denominator (share.scaledRatio numerator denominator)
    (share.scaledExponent numerator denominator) := by
  have hdenominatorPos : 0 < denominator := lt_of_lt_of_le hpos hle
  have hexact := value_mul_eq_quotient share hpos hle hdenominator
  have hratioDigits := digits_scaledRatio_ge share hpos hle hdenominator
  have hproductDigits := (digits_product_bounds share hpos hle hdenominator).1
  refine ⟨(scaledRatio_bounds share hpos hle hdenominator).2, hratioDigits, ?_, ?_, ?_⟩
  · unfold scaledExponent
    omega
  · rw [hexact]
    exact div_le_divCeil _ hdenominatorPos
  · rw [hexact]
    exact divCeil_lt_div_add_one _ hdenominatorPos

end

/-- A share is scaled to the leading digits of the quotient, or to the smallest share where the
exponent leaves its range. -/
theorem scaled_of_scale (hdenominator : denominator < twoPow 256)
    (h : share.scale numerator denominator = .ok next) :
    digits (share.mantissa * numerator) ≤ 768 - digits (share.scaledRatio numerator denominator) ∧
      ScaledUp share numerator denominator (share.scaledRatio numerator denominator)
        (share.scaledExponent numerator denominator) ∧
      ((next.mantissa = leadingDigits (share.scaledRatio numerator denominator) ∧
          next.exponent = share.scaledExponent numerator denominator) ∨
        (twoPow 128 ≤ share.scaledExponent numerator denominator ∧ next = smallest)) := by
  obtain ⟨hpos, hle⟩ := scale_eq_ok h
  unfold scale at h
  obtain ⟨_, -, h⟩ := bind_eq_ok.mp h
  obtain ⟨_, hlost, h⟩ := bind_eq_ok.mp h
  rw [require_eq_ok] at hlost
  refine ⟨hlost, scaledUp share hpos hle hdenominator, ?_⟩
  dsimp only at h
  split at h
  · rw [orReject_eq_ok] at h
    exact .inl (ofParts?_eq_some h)
  · rename_i hlow
    exact .inr ⟨not_lt.mp hlow, (Except.ok.inj h).symm⟩

theorem scaledUp_of_scale (hdenominator : denominator < twoPow 256)
    (h : share.scale numerator denominator = .ok next) :
    ∃ ratio exponent, ScaledUp share numerator denominator ratio exponent ∧
      ((next.mantissa = leadingDigits ratio ∧ next.exponent = exponent) ∨
        (twoPow 128 ≤ exponent ∧ next = smallest)) :=
  ⟨_, _, (scaled_of_scale hdenominator h).2⟩

/-- The quotient counts in the places that its own leading digits do not reach. -/
theorem ScaledUp.places (h : ScaledUp share numerator denominator ratio exponent)
    (hexponent : next.exponent = exponent) :
    next.unit * 2 ^ (digits ratio + exponent) = 2 ^ (digits ratio - 256) := by
  have hpower : (2 : ℚ) ^ digits ratio = 2 ^ (digits ratio - 256) * 2 ^ 256 := by
    rw [← pow_add, Nat.sub_add_cancel h.digits_ge]
  rw [unit, hexponent, pow_add, hpower]
  field_simp

/-- Where the exponent leaves its range, the smallest share is above the exact one. -/
theorem ScaledUp.lt_smallest (h : ScaledUp share numerator denominator ratio exponent)
    (hlow : twoPow 128 ≤ exponent) :
    share.value * (numerator / denominator) < smallest.value := by
  have hratio : (ratio : ℚ) < 2 ^ digits ratio := by exact_mod_cast lt_twoPow_digits ratio
  have hpower : (2 : ℚ) ^ twoPow 128 ≤ 2 ^ exponent := pow_le_pow_right₀ one_le_two hlow
  rw [← mul_lt_mul_iff_left₀ (show (0 : ℚ) < 2 ^ (digits ratio + exponent) by positivity)]
  calc share.value * (numerator / denominator) * 2 ^ (digits ratio + exponent)
      ≤ ratio := h.le_ratio
    _ < 2 ^ digits ratio := hratio
    _ = smallest.value * 2 ^ twoPow 128 * 2 ^ digits ratio := by rw [smallest_value, one_mul]
    _ ≤ smallest.value * 2 ^ exponent * 2 ^ digits ratio := by
      refine mul_le_mul_of_nonneg_right ?_ (by positivity)
      exact mul_le_mul_of_nonneg_left hpower smallest.value_pos.le
    _ = smallest.value * 2 ^ (digits ratio + exponent) := by ring

/-- A share that is scaled is rounded up, unless that would take more than 256 digits. -/
theorem le_scale (hdenominator : denominator < twoPow 256)
    (h : share.scale numerator denominator = .ok next)
    (hfits : next.mantissa < twoPow 256 - 1) :
    share.value * (numerator / denominator) ≤ next.value := by
  obtain ⟨ratio, exponent, hscaled, ⟨hmantissa, hexponent⟩ | ⟨hlow, rfl⟩⟩ :=
    scaledUp_of_scale hdenominator h
  · rw [hmantissa] at hfits
    have hleading : (ratio : ℚ) ≤ next.mantissa * 2 ^ (digits ratio - 256) := by
      rw [hmantissa]
      exact_mod_cast (leadingDigits_bounds hscaled.ratio_lt).2 hfits
    rw [← mul_le_mul_iff_left₀ (show (0 : ℚ) < 2 ^ (digits ratio + exponent) by positivity),
      value_eq_mul_unit next, mul_assoc (next.mantissa : ℚ), hscaled.places hexponent]
    exact le_trans hscaled.le_ratio hleading
  · exact (hscaled.lt_smallest hlow).le

/-- A share that is scaled falls less than one unit in its last place below the exact product. -/
theorem lt_scale_add_unit (hdenominator : denominator < twoPow 256)
    (h : share.scale numerator denominator = .ok next) :
    share.value * (numerator / denominator) < next.value + next.unit := by
  by_cases hfits : next.mantissa < twoPow 256 - 1
  · exact lt_of_le_of_lt (le_scale hdenominator h hfits) (lt_add_of_pos_right _ next.unit_pos)
  obtain ⟨ratio, exponent, hscaled, ⟨-, hexponent⟩ | ⟨hlow, rfl⟩⟩ :=
    scaledUp_of_scale hdenominator h
  · -- the mantissa is all ones, and the quotient has no more digits than it counts
    have hmantissa : (next.mantissa : ℚ) + 1 = 2 ^ 256 := by
      have hlt := next.mantissa_lt
      have hsucc : next.mantissa + 1 = twoPow 256 := by omega
      rw [← cast_twoPow, ← Nat.cast_one, ← Nat.cast_add, hsucc]
    have hratio : (ratio : ℚ) < 2 ^ digits ratio := by exact_mod_cast lt_twoPow_digits ratio
    have hpower : (2 : ℚ) ^ digits ratio = 2 ^ 256 * 2 ^ (digits ratio - 256) := by
      rw [← pow_add, Nat.add_sub_cancel' hscaled.digits_ge]
    rw [← mul_lt_mul_iff_left₀ (show (0 : ℚ) < 2 ^ (digits ratio + exponent) by positivity),
      value_eq_mul_unit next, ← add_one_mul, mul_assoc (_ + _), hscaled.places hexponent, hmantissa,
      ← hpower]
    exact lt_of_le_of_lt hscaled.le_ratio hratio
  · exact lt_add_of_lt_of_pos (hscaled.lt_smallest hlow) smallest.unit_pos

/-- The leading digits of a quotient are less than one unit in their last place above the exact
product. -/
theorem ScaledUp.lt_add_unit (h : ScaledUp share numerator denominator ratio exponent)
    (hmantissa : next.mantissa = leadingDigits ratio) (hexponent : next.exponent = exponent) :
    next.value < share.value * (numerator / denominator) + next.unit := by
  have hleading : (next.mantissa : ℚ) * 2 ^ (digits ratio - 256) + 1 ≤
      ratio + 2 ^ (digits ratio - 256) := by
    rw [hmantissa]
    exact_mod_cast Nat.succ_le_of_lt (leadingDigits_bounds h.ratio_lt).1
  have hratio := h.ratio_lt_add_one
  rw [← mul_lt_mul_iff_left₀ (show (0 : ℚ) < 2 ^ (digits ratio + exponent) by positivity),
    add_mul, value_eq_mul_unit next, mul_assoc (next.mantissa : ℚ), h.places hexponent]
  linarith

/-- A share that is scaled stays less than one unit in its last place above the exact product, as
long as its exponent has room to grow. -/
theorem scale_lt_add_unit (hdenominator : denominator < twoPow 256)
    (hroom : share.exponent + 256 < twoPow 128)
    (h : share.scale numerator denominator = .ok next) :
    next.value < share.value * (numerator / denominator) + next.unit := by
  obtain ⟨ratio, exponent, hscaled, ⟨hmantissa, hexponent⟩ | ⟨hlow, -⟩⟩ :=
    scaledUp_of_scale hdenominator h
  · exact hscaled.lt_add_unit hmantissa hexponent
  · exact absurd (lt_of_le_of_lt hscaled.exponent_le hroom) (not_lt.mpr hlow)

end

end RangeBook.Share
