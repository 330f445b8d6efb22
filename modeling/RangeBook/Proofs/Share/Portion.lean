import Mathlib
import RangeBook.Proofs.Share

/-!
# Parts of an amount

The ratio of two shares takes a part of an amount. It divides by a mantissa first and drops binary
digits of the quotient then, and only ever looks at 512 digits, but the two integers that come out
are the exact part rounded down and rounded up (`portion_eq`). The order of shares is that of their
values (`compare_eq_compare_value`), so there is a part exactly where the ratio is at most one, and
it is never more than the amount (`portion_exact`).
-/

set_option autoImplicit false
set_option relaxedAutoImplicit false

namespace RangeBook.Share

variable {numerator denominator : Share} {amount floor ceiling : ℕ}

/-- Dividing and dropping digits of the quotient leaves a rest of the product, which is less than one
unit of what is kept. -/
theorem dropDigits_quotient {product divisor shift kept dropped : ℕ} (hdivisor : 0 < divisor)
    (hproduct : product < twoPow 512)
    (h : dropDigits (product / divisor) shift = (kept, dropped)) :
    ∃ rest, product = kept * (twoPow shift * divisor) + rest ∧ rest < twoPow shift * divisor ∧
      (rest = 0 ↔ product % divisor = 0 ∧ dropped = 0) := by
  have hratio : product / divisor < twoPow 512 := lt_of_le_of_lt (Nat.div_le_self _ _) hproduct
  obtain ⟨hsplit, hdropped⟩ := dropDigits_split hratio h
  refine ⟨dropped * divisor + product % divisor, ?_, ?_, ?_⟩
  · calc product = product / divisor * divisor + product % divisor := (Nat.div_add_mod' _ _).symm
      _ = (kept * twoPow shift + dropped) * divisor + product % divisor := by rw [hsplit]
      _ = kept * (twoPow shift * divisor) + (dropped * divisor + product % divisor) := by ring
  · calc dropped * divisor + product % divisor
        < dropped * divisor + divisor := Nat.add_lt_add_left (Nat.mod_lt _ hdivisor) _
      _ = (dropped + 1) * divisor := (Nat.add_one_mul _ _).symm
      _ ≤ twoPow shift * divisor := Nat.mul_le_mul_right _ hdropped
  · rw [Nat.add_eq_zero_iff, Nat.mul_eq_zero, or_iff_left hdivisor.ne', and_comm]

/-- What the product of an amount and a mantissa is divided by to get a part of the amount: the
mantissa of the greater share, in the places of the smaller one. -/
def partUnit (numerator denominator : Share) : ℕ :=
  twoPow (numerator.exponent - denominator.exponent) * denominator.mantissa

theorem partUnit_pos (numerator denominator : Share) : 0 < partUnit numerator denominator :=
  Nat.mul_pos (twoPow_pos _) denominator.mantissa_pos

theorem mantissa_le_partUnit (h : numerator ≤ denominator) :
    numerator.mantissa ≤ partUnit numerator denominator := by
  unfold partUnit
  obtain hexponent | ⟨-, hmantissa⟩ := h
  · obtain ⟨places, hplaces⟩ := Nat.exists_eq_add_of_lt (Nat.sub_pos_of_lt hexponent)
    rw [hplaces, Nat.zero_add, twoPow_succ]
    calc numerator.mantissa ≤ twoPow (255 + 1) := numerator.mantissa_lt.le
      _ = 2 * twoPow 255 := twoPow_succ 255
      _ ≤ 2 * denominator.mantissa := Nat.mul_le_mul_left 2 denominator.mantissa_ge
      _ ≤ 2 * twoPow places * denominator.mantissa :=
        Nat.mul_le_mul_right _ (Nat.le_mul_of_pos_right 2 (twoPow_pos places))
  · exact le_trans hmantissa (Nat.le_mul_of_pos_left _ (twoPow_pos _))

/-- A part of an amount can always be worked out, and is divided once and rounded both ways, though
digits are dropped after the division. -/
theorem portion_eq_ok (hamount : amount < twoPow 256) (hle : numerator ≤ denominator) :
    portion amount numerator denominator =
      .ok (amount * numerator.mantissa / partUnit numerator denominator,
        divCeil (amount * numerator.mantissa) (partUnit numerator denominator)) := by
  have hproduct : amount * numerator.mantissa < twoPow 512 :=
    Nat.mul_comm numerator.mantissa amount ▸ numerator.mantissa_mul_lt hamount
  have hwidth : amount * numerator.mantissa ≤ amount * partUnit numerator denominator :=
    Nat.mul_le_mul_left amount (mantissa_le_partUnit hle)
  have hunit := partUnit_pos numerator denominator
  rcases hdigits : dropDigits (amount * numerator.mantissa / denominator.mantissa)
    (numerator.exponent - denominator.exponent) with ⟨kept, dropped⟩
  obtain ⟨rest, hwhole, hrest, hexact⟩ :=
    dropDigits_quotient denominator.mantissa_pos hproduct hdigits
  rw [← partUnit] at hwhole hrest
  have hfloor : amount * numerator.mantissa / partUnit numerator denominator = kept :=
    Nat.div_eq_of_lt_le (by omega) (by rw [Nat.add_one_mul]; omega)
  unfold portion
  refine bind_eq_ok.mpr ⟨(), require_eq_ok.mpr hle, ?_⟩
  dsimp only
  rw [hdigits, hfloor]
  have hfits : kept ≤ amount := Nat.le_of_mul_le_mul_right (by omega) hunit
  refine bind_eq_ok.mpr ⟨kept, orReject_eq_ok.mpr (if_pos (lt_of_le_of_lt hfits hamount)), ?_⟩
  by_cases hdivides : amount * numerator.mantissa % denominator.mantissa = 0 ∧ dropped = 0
  · rw [if_pos hdivides, hwhole, hexact.mpr hdivides, Nat.add_zero, divCeil_mul_self _ hunit]
    rfl
  · have hrestPos : 0 < rest := Nat.pos_of_ne_zero (mt hexact.mp hdivides)
    have hroom : kept < amount := by
      refine Nat.lt_of_mul_lt_mul_right (lt_of_lt_of_le ?_ hwidth)
      rw [hwhole]
      exact Nat.lt_add_of_pos_right hrestPos
    rw [if_neg hdivides, hwhole, divCeil_add_of_pos kept hrestPos hrest.le]
    exact bind_eq_ok.mpr ⟨kept + 1, within_eq_ok.mpr ⟨by omega, rfl⟩, rfl⟩

/-- A part as a quotient of integers. -/
theorem part_eq (amount : ℕ) (h : numerator ≤ denominator) :
    amount * (numerator.value / denominator.value) =
      ((amount * numerator.mantissa : ℕ) : ℚ) / partUnit numerator denominator := by
  rw [value_div_value h, partUnit]
  push_cast
  rw [cast_twoPow]
  field_simp

/-- A part is the exact one, rounded down and rounded up. -/
theorem portion_eq (hamount : amount < twoPow 256) (hle : numerator ≤ denominator) :
    portion amount numerator denominator =
      .ok (⌊amount * (numerator.value / denominator.value)⌋₊,
        ⌈amount * (numerator.value / denominator.value)⌉₊) := by
  rw [portion_eq_ok hamount hle, part_eq amount hle, Nat.floor_div_eq_div,
    ceil_div _ (partUnit_pos numerator denominator)]

theorem eq_of_portion (hamount : amount < twoPow 256)
    (h : portion amount numerator denominator = .ok (floor, ceiling)) :
    numerator ≤ denominator ∧ floor = ⌊amount * (numerator.value / denominator.value)⌋₊ ∧
      ceiling = ⌈amount * (numerator.value / denominator.value)⌉₊ := by
  have hle : numerator ≤ denominator := by
    obtain ⟨_, hle, -⟩ := bind_eq_ok.mp h
    exact require_eq_ok.mp hle
  rw [portion_eq hamount hle] at h
  obtain ⟨rfl, rfl⟩ := Prod.mk.inj (Except.ok.inj h)
  exact ⟨hle, rfl, rfl⟩

theorem part_nonneg (amount : ℕ) (numerator denominator : Share) :
    0 ≤ amount * (numerator.value / denominator.value) :=
  mul_nonneg (Nat.cast_nonneg amount) (div_pos numerator.value_pos denominator.value_pos).le

theorem part_le (amount : ℕ) (hle : numerator ≤ denominator) :
    amount * (numerator.value / denominator.value) ≤ amount :=
  mul_le_of_le_one_right (Nat.cast_nonneg amount)
    ((div_le_one denominator.value_pos).mpr (value_le_value_iff.mpr hle))

/-- The part of an amount lies between the two integers that it is rounded to. -/
theorem portion_bounds (hamount : amount < twoPow 256)
    (h : portion amount numerator denominator = .ok (floor, ceiling)) :
    numerator ≤ denominator ∧ (floor : ℚ) ≤ amount * (numerator.value / denominator.value) ∧
      amount * (numerator.value / denominator.value) ≤ ceiling := by
  obtain ⟨hle, rfl, rfl⟩ := eq_of_portion hamount h
  exact ⟨hle, Nat.floor_le (part_nonneg amount numerator denominator), Nat.le_ceil _⟩

/-- The integer that a part is rounded up to is less than one unit above it. -/
theorem portion_ceiling_lt (hamount : amount < twoPow 256)
    (h : portion amount numerator denominator = .ok (floor, ceiling)) :
    (ceiling : ℚ) < amount * (numerator.value / denominator.value) + 1 := by
  obtain ⟨-, -, rfl⟩ := eq_of_portion hamount h
  exact Nat.ceil_lt_add_one (part_nonneg amount numerator denominator)

/-- The two integers that a part is rounded to are neighbours, or the same. -/
theorem portion_ceiling_le (hamount : amount < twoPow 256)
    (h : portion amount numerator denominator = .ok (floor, ceiling)) : ceiling ≤ floor + 1 := by
  obtain ⟨-, rfl, rfl⟩ := eq_of_portion hamount h
  exact Nat.ceil_le_floor_add_one _

/-- A smaller share takes no more of an amount. -/
theorem portion_ceiling_le_ceiling {smaller greater : Share} {floor' ceiling' : ℕ}
    (hamount : amount < twoPow 256) (hle : smaller ≤ greater)
    (h : portion amount smaller denominator = .ok (floor, ceiling))
    (h' : portion amount greater denominator = .ok (floor', ceiling')) : ceiling ≤ ceiling' := by
  obtain ⟨-, -, rfl⟩ := eq_of_portion hamount h
  obtain ⟨-, -, rfl⟩ := eq_of_portion hamount h'
  exact Nat.ceil_mono (mul_le_mul_of_nonneg_left
    (div_le_div_of_nonneg_right (value_le_value_iff.mpr hle) denominator.value_pos.le)
    (Nat.cast_nonneg amount))

/-! ### The order of shares -/

/-- Shares are compared as their values are. -/
theorem compare_eq_compare_value (left right : Share) :
    compare left right = compare left.value right.value := by
  change (compare right.exponent left.exponent).then (compare left.mantissa right.mantissa) = _
  rcases lt_trichotomy left.exponent right.exponent with hlt | heq | hgt
  · rw [compare_gt_iff_gt.mpr hlt, compare_gt_iff_gt.mpr (value_lt_of_exponent_lt hlt)]
    rfl
  · rw [compare_eq_iff_eq.mpr heq.symm, Ordering.eq_then]
    rcases lt_trichotomy left.mantissa right.mantissa with hlt | hsame | hgt
    · rw [compare_lt_iff_lt.mpr hlt, compare_lt_iff_lt.mpr (value_lt_of_mantissa_lt heq hlt)]
    · rw [ext_parts hsame heq, compare_eq_iff_eq.mpr rfl, compare_eq_iff_eq.mpr rfl]
    · rw [compare_gt_iff_gt.mpr hgt, compare_gt_iff_gt.mpr (value_lt_of_mantissa_lt heq.symm hgt)]
  · rw [compare_lt_iff_lt.mpr hgt, compare_lt_iff_lt.mpr (value_lt_of_exponent_lt hgt)]
    rfl

/-- A part of an amount is rejected exactly where the share to be taken is more than the other one,
by their values as by their order. Everywhere else no shift is negative, and the part is the exact
one rounded down and rounded up, and at most the amount. -/
theorem portion_exact (hamount : amount < twoPow 256) :
    compare numerator denominator = compare numerator.value denominator.value ∧
    (portion amount numerator denominator = .error (.rejected .fractionOutOfRange) ↔
      denominator.value < numerator.value) ∧
    (numerator.value ≤ denominator.value →
      denominator.exponent ≤ numerator.exponent ∧
        portion amount numerator denominator =
          .ok (⌊amount * (numerator.value / denominator.value)⌋₊,
            ⌈amount * (numerator.value / denominator.value)⌉₊) ∧
        ⌊amount * (numerator.value / denominator.value)⌋₊ ≤ amount ∧
        ⌈amount * (numerator.value / denominator.value)⌉₊ ≤ amount) := by
  refine ⟨compare_eq_compare_value numerator denominator, ⟨fun hrejected ↦ ?_, fun hlt ↦ ?_⟩,
    fun hle ↦ ?_⟩
  · by_contra hnot
    rw [portion_eq hamount (value_le_value_iff.mp (not_lt.mp hnot))] at hrejected
    exact absurd hrejected (by simp)
  · have hgreater : ¬numerator ≤ denominator := mt value_le_value_iff.mpr (not_le.mpr hlt)
    exact bind_eq_error.mpr (.inl (require_eq_error.mpr ⟨hgreater, rfl⟩))
  · rw [value_le_value_iff] at hle
    have hpart := part_le amount hle
    exact ⟨exponent_le hle, portion_eq hamount hle, Nat.floor_le_of_le hpart,
      Nat.ceil_le.mpr hpart⟩

/-- The smallest share takes a positive part of every amount, which is less than one unit. -/
theorem portion_exact_smallest :
    portion (twoPow 256 - 1) smallest largest = .ok (0, 1) ∧
      ⌊(twoPow 256 - 1 : ℕ) * (smallest.value / largest.value)⌋₊ = 0 ∧
      ⌈(twoPow 256 - 1 : ℕ) * (smallest.value / largest.value)⌉₊ = 1 := by
  have hresult : portion (twoPow 256 - 1) smallest largest = .ok (0, 1) := by decide +kernel
  have hle : smallest ≤ largest := by decide +kernel
  obtain ⟨-, hpart, -⟩ := (portion_exact (by decide : twoPow 256 - 1 < twoPow 256)).2.2
    (value_le_value_iff.mpr hle)
  obtain ⟨hfloor, hceiling⟩ := Prod.mk.inj (Except.ok.inj (hresult.symm.trans hpart))
  exact ⟨hresult, hfloor.symm, hceiling.symm⟩

end RangeBook.Share
