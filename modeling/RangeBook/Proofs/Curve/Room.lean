import Mathlib
import RangeBook.Proofs.Curve.NextPrice

/-!
# Room for amounts and prices on the curve

Prices from the least to the greatest are not so far apart, and not so near to zero, that liquidity
of 128 bits could hold more than 192 bits of a token between them (`exactAmount_le`). So the amounts
between them can always be worked out (`amount_finishes`), and so can the price after a trade that
stops before such a price (`priceAfterInput_finishes`, `priceAfterOutput_finishes`).
-/

set_option autoImplicit false
set_option relaxedAutoImplicit false

namespace RangeBook

/-- Whether a price lies within the bounds of all prices. -/
structure PriceInBounds (price : ℕ) : Prop where
  minSqrtPrice_le : minSqrtPrice ≤ price
  lt_maxSqrtPrice : price < maxSqrtPrice

/-- Whether a price has at least 33 and at most 160 binary digits, as all prices from the least to
the greatest have. -/
structure PriceFits (price : ℕ) : Prop where
  twoPow_le : twoPow 32 ≤ price
  lt_twoPow : price < twoPow 160

namespace PriceFits

variable {price priceA priceB : ℕ}

theorem of_bounds (hmin : minSqrtPrice ≤ price) (hmax : price ≤ maxSqrtPrice) : PriceFits price :=
  ⟨le_trans (by decide) hmin, lt_of_le_of_lt hmax (by decide)⟩

theorem pos (h : PriceFits price) : 0 < price :=
  lt_of_lt_of_le (twoPow_pos 32) h.twoPow_le

theorem min (hA : PriceFits priceA) (hB : PriceFits priceB) : PriceFits (min priceA priceB) := by
  rcases min_choice priceA priceB with h | h <;> rw [h]
  · exact hA
  · exact hB

theorem max (hA : PriceFits priceA) (hB : PriceFits priceB) : PriceFits (max priceA priceB) := by
  rcases max_choice priceA priceB with h | h <;> rw [h]
  · exact hA
  · exact hB

/-- Prices on the way between two prices fit where these do. -/
theorem of_leads {paid : Token} (hA : PriceFits priceA) (hB : PriceFits priceB)
    (hleads : paid.Leads priceA price) (hstays : paid.Leads price priceB) : PriceFits price := by
  cases paid with
  | zero => exact ⟨le_trans hB.twoPow_le hstays, lt_of_le_of_lt hleads hA.lt_twoPow⟩
  | one => exact ⟨le_trans hA.twoPow_le hleads, lt_of_le_of_lt hstays hB.lt_twoPow⟩

end PriceFits

namespace PriceInBounds

variable {price priceA priceB : ℕ}

theorem fits (h : PriceInBounds price) : PriceFits price :=
  .of_bounds h.minSqrtPrice_le h.lt_maxSqrtPrice.le

theorem pos (h : PriceInBounds price) : 0 < price :=
  h.fits.pos

/-- Prices on the way between two prices within the bounds are within the bounds. -/
theorem of_leads {paid : Token} (hA : PriceInBounds priceA) (hB : PriceInBounds priceB)
    (hleads : paid.Leads priceA price) (hstays : paid.Leads price priceB) :
    PriceInBounds price := by
  cases paid with
  | zero =>
    exact ⟨le_trans hB.minSqrtPrice_le hstays, lt_of_le_of_lt hleads hA.lt_maxSqrtPrice⟩
  | one =>
    exact ⟨le_trans hA.minSqrtPrice_le hleads, lt_of_le_of_lt hstays hB.lt_maxSqrtPrice⟩

end PriceInBounds

namespace Curve

variable {allowed : Failure → Prop} {token paid : Token} {rounding : Rounding}
  {priceA priceB low high current target liquidity amount result : ℕ}

/-! ### Amounts -/

/-- Liquidity holds at most `2 ^ 64` times as much of a token between two prices. -/
theorem exactAmount_le (hA : PriceFits priceA) (hB : PriceFits priceB) :
    exactAmount token priceA priceB liquidity ≤ (liquidity * twoPow 64 : ℕ) := by
  have hlow := hA.min hB
  have hhigh := hA.max hB
  have hsorted : exactAmount token priceA priceB liquidity =
      exactAmount token (min priceA priceB) (max priceA priceB) liquidity := by
    rw [exactAmount_of_le min_le_max, exactAmount]
  have hle : min priceA priceB ≤ max priceA priceB := min_le_max
  rw [hsorted]
  generalize min priceA priceB = low at *
  generalize max priceA priceB = high at *
  cases token with
  | zero =>
    have hpos : 0 < low * high := Nat.mul_pos hlow.pos hhigh.pos
    rw [exactAmount_zero_eq hlow.pos hle, div_le_iff₀ (by exact_mod_cast hpos), ← Nat.cast_mul,
      Nat.cast_le]
    have hshift : q96 * (high - low) ≤ twoPow 64 * (low * high) := by
      calc q96 * (high - low) = twoPow 64 * (twoPow 32 * (high - low)) := by
            rw [← mul_assoc, ← twoPow_add, q96]
        _ ≤ twoPow 64 * (low * high) :=
            Nat.mul_le_mul_left _ (Nat.mul_le_mul hlow.twoPow_le (Nat.sub_le _ _))
    rw [mul_assoc, mul_assoc]
    exact Nat.mul_le_mul_left liquidity hshift
  | one =>
    rw [exactAmount_one_eq hle, div_le_iff₀ (by exact_mod_cast q96_pos), ← Nat.cast_mul,
      Nat.cast_le, mul_assoc, q96, ← twoPow_add]
    exact Nat.mul_le_mul_left liquidity (le_trans (Nat.sub_le _ _) hhigh.lt_twoPow.le)

theorem amount_up_le (hA : PriceFits priceA) (hB : PriceFits priceB)
    (h : Curve.amount token .up priceA priceB liquidity = .ok result) :
    result ≤ liquidity * twoPow 64 :=
  (amount_up_le_iff h).mpr (exactAmount_le hA hB)

theorem amount_down_le (hA : PriceFits priceA) (hB : PriceFits priceB)
    (h : Curve.amount token .down priceA priceB liquidity = .ok result) :
    result ≤ liquidity * twoPow 64 := by
  exact_mod_cast le_trans (amount_down_le_exactAmount h) (exactAmount_le hA hB)

theorem quotient_le {dividend divisor bound : ℕ} (rounding : Rounding) (hpos : 0 < divisor)
    (hle : dividend ≤ bound * divisor) : quotient rounding dividend divisor ≤ bound := by
  cases rounding with
  | down => exact Nat.div_le_of_le_mul (by rwa [mul_comm divisor])
  | up => exact (divCeil_le_iff hpos).mpr hle

theorem mulDiv_le {a b c bound : ℕ} {rounding : Rounding} (hpos : 0 < c)
    (hle : a * b ≤ bound * c) (h : mulDiv rounding a b c = .ok result) : result ≤ bound := by
  obtain ⟨-, -, rfl⟩ := mulDiv_eq_ok.mp h
  exact quotient_le rounding hpos hle

theorem mulDiv_finishes {a b c bound : ℕ} (rounding : Rounding) (hpos : 0 < c)
    (hle : a * b ≤ bound * c) (hfits : bound < twoPow 256) :
    FailsOnly allowed (mulDiv rounding a b c) :=
  .of_eq_ok (mulDiv_eq_ok.mpr
    ⟨hpos.ne', lt_of_le_of_lt (quotient_le rounding hpos hle) hfits, rfl⟩)

/-- Between positive prices the amount of token zero can be worked out, however far apart they
are. -/
theorem amountZero_failsOnly (rounding : Rounding) (hliquidity : liquidity < twoPow 128)
    (hzero : ¬0 < min priceA priceB → allowed (.rejected .zeroSqrtPrice)) :
    FailsOnly allowed (Curve.amount .zero rounding priceA priceB liquidity) := by
  refine .bind (.require hzero) fun _ hpos ↦ .bind ?_ fun _ _ ↦ .pure _
  exact mulDiv_finishes rounding (lt_of_lt_of_le (require_eq_ok.mp hpos) min_le_max)
    (Nat.mul_le_mul_left _ (Nat.sub_le _ _)) (lt_trans (mul_q96_lt hliquidity) (by decide))

/-- The amount of a token between two prices of at most 160 bits fits. -/
theorem amount_finishes_of_lt (rounding : Rounding) (hpos : 0 < min priceA priceB)
    (hlt : max priceA priceB < twoPow 160) (hliquidity : liquidity < twoPow 128) :
    FailsOnly allowed (Curve.amount token rounding priceA priceB liquidity) := by
  cases token with
  | zero => exact amountZero_failsOnly rounding hliquidity (absurd hpos)
  | one =>
    have hwide : liquidity * (max priceA priceB - min priceA priceB) ≤
        liquidity * twoPow 64 * q96 := by
      rw [mul_assoc, q96, ← twoPow_add]
      exact Nat.mul_le_mul_left liquidity (le_trans (Nat.sub_le _ _) hlt.le)
    refine mulDiv_finishes rounding q96_pos hwide ?_
    calc liquidity * twoPow 64 < twoPow 128 * twoPow 64 :=
          Nat.mul_lt_mul_of_pos_right hliquidity (twoPow_pos 64)
      _ ≤ twoPow 256 := by decide

/-- The amount of a token between two prices fits. -/
theorem amount_finishes (rounding : Rounding) (hA : PriceFits priceA)
    (hB : PriceFits priceB) (hliquidity : liquidity < twoPow 128) :
    FailsOnly allowed (Curve.amount token rounding priceA priceB liquidity) :=
  amount_finishes_of_lt rounding (hA.min hB).pos (hA.max hB).lt_twoPow hliquidity

/-- Liquidity holds at most `2 ^ 96` times as much of a token between two prices of at most 160
bits. -/
theorem amount_le_of_lt (hlt : max priceA priceB < twoPow 160)
    (h : Curve.amount token rounding priceA priceB liquidity = .ok result) :
    result ≤ liquidity * q96 := by
  cases token with
  | zero =>
    obtain ⟨hmin, hmax, scaled, hscaled, rfl⟩ := amountZero_eq_ok h
    have hscaledLe : scaled ≤ liquidity * q96 :=
      mulDiv_le hmax (Nat.mul_le_mul_left _ (Nat.sub_le _ _)) hscaled
    exact quotient_le rounding hmin (le_trans hscaledLe (Nat.le_mul_of_pos_right _ hmin))
  | one =>
    refine mulDiv_le q96_pos ?_ h
    calc liquidity * (max priceA priceB - min priceA priceB)
        ≤ liquidity * (q96 * q96) :=
          Nat.mul_le_mul_left liquidity (le_trans (Nat.sub_le _ _)
            (le_trans hlt.le (by decide)))
      _ = liquidity * q96 * q96 := by ring

/-! ### Prices -/

theorem priceAfterZeroIn_finishes (hcurrent : PriceFits current) (hpos : 0 < liquidity)
    (hliquidity : liquidity < twoPow 128) (hamount : amount ≤ twoPow 255) :
    FailsOnly allowed (priceAfterZeroIn current liquidity amount) := by
  have hdivisor : liquidity * q96 / current + amount < twoPow 256 :=
    calc liquidity * q96 / current + amount ≤ liquidity * q96 + twoPow 255 :=
          Nat.add_le_add (Nat.div_le_self _ _) hamount
      _ < twoPow 224 + twoPow 255 := Nat.add_lt_add_right (mul_q96_lt hliquidity) _
      _ ≤ twoPow 256 := by decide
  obtain ⟨next, hnext⟩ := exists_priceAfterZeroIn (lt_trans hcurrent.lt_twoPow (by decide)) hpos
    hliquidity hdivisor
  exact .of_eq_ok hnext

theorem priceAfterOneIn_finishes (htarget : PriceFits target) (htoward : current ≤ target)
    (hless : amount * q96 < liquidity * (target - current)) :
    FailsOnly allowed (priceAfterOneIn current liquidity amount) := by
  have hpos : 0 < liquidity := Nat.pos_of_mul_pos_right (Nat.zero_lt_of_lt hless)
  have hrise : amount * q96 / liquidity < target - current := Nat.div_lt_of_lt_mul hless
  have hnext : current + amount * q96 / liquidity < twoPow 160 := by
    have hwide := htarget.lt_twoPow
    generalize amount * q96 / liquidity = rise at hrise
    omega
  exact .of_eq_ok ((priceAfterOneIn_eq_ok_iff hpos).mpr ⟨hnext, rfl⟩)

theorem priceAfterZeroOut_finishes (htarget : PriceFits target) (htoward : current ≤ target)
    (hliquidity : liquidity < twoPow 128)
    (hless : amount * (current * target) < liquidity * q96 * (target - current)) :
    FailsOnly allowed (priceAfterZeroOut current liquidity amount) := by
  have hpos : 0 < liquidity :=
    Nat.pos_of_mul_pos_right (Nat.pos_of_mul_pos_right (Nat.zero_lt_of_lt hless))
  have hfits : amount * current < liquidity * q96 := by
    refine Nat.lt_of_mul_lt_mul_right (a := target) ?_
    calc amount * current * target = amount * (current * target) := mul_assoc _ _ _
      _ < liquidity * q96 * (target - current) := hless
      _ ≤ liquidity * q96 * target := Nat.mul_le_mul_left _ (Nat.sub_le _ _)
  have hceil : liquidity * q96 * current ≤ target * (liquidity * q96 - amount * current) := by
    rw [Nat.mul_sub, Nat.le_sub_iff_add_le (Nat.mul_le_mul_left _ hfits.le)]
    calc liquidity * q96 * current + target * (amount * current)
        = liquidity * q96 * current + amount * (current * target) := by ring
      _ ≤ liquidity * q96 * current + liquidity * q96 * (target - current) :=
          Nat.add_le_add_left hless.le _
      _ = target * (liquidity * q96) := by
          rw [← Nat.mul_add, Nat.add_sub_cancel' htoward, mul_comm]
  have hnext := (divCeil_le_iff (Nat.sub_pos_of_lt hfits)).mpr hceil
  exact .of_eq_ok ((priceAfterZeroOut_eq_ok_iff (lt_of_le_of_lt htoward htarget.lt_twoPow) hpos
    hliquidity).mpr ⟨hfits, lt_of_le_of_lt hnext htarget.lt_twoPow, rfl⟩)

theorem priceAfterOneOut_finishes (hcurrent : PriceFits current)
    (htarget : PriceFits target)
    (hless : amount * q96 < liquidity * (current - target)) :
    FailsOnly allowed (priceAfterOneOut current liquidity amount) := by
  have hpos : 0 < liquidity := Nat.pos_of_mul_pos_right (Nat.zero_lt_of_lt hless)
  have hceil : amount * q96 ≤ (current - target) * liquidity := by
    rw [mul_comm (current - target)]
    exact hless.le
  have hfall : divCeil (amount * q96) liquidity < current :=
    lt_of_le_of_lt ((divCeil_le_iff hpos).mpr hceil)
      (Nat.sub_lt hcurrent.pos htarget.pos)
  exact .of_eq_ok ((priceAfterOneOut_eq_ok_iff (lt_trans hcurrent.lt_twoPow (by decide))
    hpos).mpr ⟨hfall, rfl⟩)

/-- Without liquidity nothing lies between two prices. -/
theorem pos_of_lt_exactAmount (hless : (amount : ℚ) < exactAmount paid current target liquidity) :
    0 < liquidity := by
  refine Nat.pos_of_ne_zero fun hzero ↦ ?_
  rw [hzero, exactAmount, Nat.cast_zero, zero_mul] at hless
  exact absurd hless (not_lt.mpr (Nat.cast_nonneg amount))

/-- The price after an input that does not reach a price that fits can be worked out. -/
theorem priceAfterInput_finishes (hcurrent : PriceFits current)
    (htarget : PriceFits target) (htoward : paid.Leads current target)
    (hliquidity : liquidity < twoPow 128) (hamount : amount ≤ twoPow 255)
    (hless : (amount : ℚ) < exactAmount paid current target liquidity) :
    FailsOnly allowed (priceAfterInput current liquidity amount paid) := by
  have hpos := pos_of_lt_exactAmount hless
  refine .bind (.require (absurd hcurrent.pos.ne')) fun _ _ ↦
    .bind (.require (absurd hpos)) fun _ _ ↦ ?_
  cases paid with
  | zero => exact priceAfterZeroIn_finishes hcurrent hpos hliquidity hamount
  | one =>
    rw [exactAmount_one_eq htoward, lt_div_iff₀ (by exact_mod_cast q96_pos)] at hless
    exact priceAfterOneIn_finishes htarget htoward (by exact_mod_cast hless)

/-- The price after an output that is less than what lies before a price that fits can be worked
out. -/
theorem priceAfterOutput_finishes (hcurrent : PriceFits current)
    (htarget : PriceFits target) (htoward : paid.Leads current target)
    (hliquidity : liquidity < twoPow 128)
    (hless : (amount : ℚ) < exactAmount paid.other current target liquidity) :
    FailsOnly allowed (priceAfterOutput current liquidity amount paid) := by
  have hpos := pos_of_lt_exactAmount hless
  refine .bind (.require (absurd hcurrent.pos.ne')) fun _ _ ↦
    .bind (.require (absurd hpos)) fun _ _ ↦ ?_
  cases paid with
  | zero =>
    rw [exactAmount_comm, Token.other, exactAmount_one_eq htoward,
      lt_div_iff₀ (by exact_mod_cast q96_pos)] at hless
    exact priceAfterOneOut_finishes hcurrent htarget (by exact_mod_cast hless)
  | one =>
    have hbothPos : 0 < current * target := Nat.mul_pos hcurrent.pos htarget.pos
    rw [Token.other, exactAmount_zero_eq hcurrent.pos htoward,
      lt_div_iff₀ (by exact_mod_cast hbothPos)] at hless
    exact priceAfterZeroOut_finishes htarget htoward hliquidity (by exact_mod_cast hless)

end Curve

end RangeBook
