import Mathlib
import RangeBook.Proofs.Swap.StepRoom

/-!
# What a step along a range promises

Between any two prices from the least to the greatest, the greatest included, a step can be worked
out for every amount of 256 bits with its sign (`compute_withinAmount`). Its price stays between the
two, and it moves no more than that amount, and all of it where it stops short of its target.

Whatever prices, liquidity, amount and fee a step was worked out for, it takes in at least what the
exact curve asks for the way that the price went, gives out at most what the curve holds on it, and
charges at least the exact fee (`compute_favoursPool`). A step that stops short of its target takes
as its fee all that is left of the input, and that too is at least the exact fee
(`InputPart.mul_fee_le`).
-/

set_option autoImplicit false
set_option relaxedAutoImplicit false

namespace RangeBook.RangeStep

open Curve

variable {paid : Token} {current target liquidity amount fee : ℕ} {remaining : ℤ}
  {step : RangeStep}

/-! ### The amount left to swap -/

theorem Favourable.between (h : Favourable paid current target liquidity step) :
    min current target ≤ step.price ∧ step.price ≤ max current target := by
  have hleads := h.leads
  have hstays := h.stays
  cases paid with
  | zero => exact ⟨min_le_of_right_le hstays, le_max_of_le_left hleads⟩
  | one => exact ⟨min_le_of_left_le hleads, le_max_of_le_right hstays⟩

/-- A step between two prices from the least to the greatest can be worked out. It stops between
them, and moves no more than the amount that is left to swap, and all of it where it stops short of
its target. -/
theorem compute_withinAmount (hcurrent : current ∈ Set.Icc minSqrtPrice maxSqrtPrice)
    (htarget : target ∈ Set.Icc minSqrtPrice maxSqrtPrice) (hliquidity : liquidity < twoPow 128)
    (hremaining : -(twoPow 255 : ℤ) ≤ remaining ∧ remaining < twoPow 255)
    (hfee : fee < feeDenominator) :
    ∃ step, compute current target liquidity remaining fee = .ok step ∧
      (min current target ≤ step.price ∧ step.price ≤ max current target) ∧
      (0 ≤ remaining → step.amountIn + step.fee ≤ remaining.natAbs ∧
        (step.price ≠ target → step.amountIn + step.fee = remaining.natAbs)) ∧
      (remaining < 0 → step.amountOut ≤ remaining.natAbs ∧
        (step.price ≠ target → step.amountOut = remaining.natAbs)) := by
  have hcurrentFits : PriceFits current := .of_bounds hcurrent.1 hcurrent.2
  have htargetFits : PriceFits target := .of_bounds htarget.1 htarget.2
  have hwidth : remaining.natAbs ≤ twoPow 255 := by omega
  obtain ⟨step, hstep⟩ :=
    (compute_finishes hfee hcurrentFits htargetFits hliquidity hwidth).exists_eq_ok
  have hstays := favourable_of_compute htargetFits.pos (leads_paidToward current target) hstep
  have hreaches := reaches_of_compute htargetFits.pos hstep
  refine ⟨step, hstep, hstays.between, fun hinput ↦ ?_, fun houtput ↦ ?_⟩
  · refine ⟨spent_le_of_compute htargetFits.pos hinput hstep, fun hshort ↦ ?_⟩
    obtain hreached | ⟨-, hspent⟩ | ⟨houtput, -⟩ := hreaches
    · exact absurd hreached hshort
    · exact hspent
    · exact absurd hinput (not_le.mpr houtput)
  · refine ⟨bought_le_of_compute htargetFits.pos houtput hstep, fun hshort ↦ ?_⟩
    obtain hreached | ⟨hinput, -⟩ | ⟨-, hbought⟩ := hreaches
    · exact absurd hreached hshort
    · exact absurd hinput (not_le.mpr houtput)
    · exact hbought

/-- The greatest output of all, asked for from the greatest price down to the least. -/
theorem compute_withinAmount_greatestOutput :
    ∃ step, compute maxSqrtPrice minSqrtPrice (twoPow 128 - 1) (-(twoPow 255 : ℤ)) 3000 = .ok step ∧
      (minSqrtPrice ≤ step.price ∧ step.price ≤ maxSqrtPrice) ∧ step.amountOut ≤ twoPow 255 := by
  have hcurrent : maxSqrtPrice ∈ Set.Icc minSqrtPrice maxSqrtPrice := by decide
  have htarget : minSqrtPrice ∈ Set.Icc minSqrtPrice maxSqrtPrice := by decide
  obtain ⟨step, hstep, ⟨hmin, hmax⟩, -, houtput⟩ := compute_withinAmount hcurrent htarget
    (show twoPow 128 - 1 < twoPow 128 by decide)
    (show -(twoPow 255 : ℤ) ≤ -(twoPow 255 : ℤ) ∧ -(twoPow 255 : ℤ) < twoPow 255 by decide)
    (show 3000 < feeDenominator by decide)
  exact ⟨step, hstep, ⟨le_trans (by decide) hmin, le_trans hmax (by decide)⟩,
    (houtput (by decide)).1⟩

/-! ### The exact curve and the exact fee -/

/-- All that an input leaves on a part of the way is at least the exact fee on what was paid. -/
theorem InputPart.mul_fee_le (h : InputPart paid current target liquidity amount fee step)
    (hfee : fee < feeDenominator) :
    step.amountIn * fee ≤ step.fee * (feeDenominator - fee) := by
  obtain ⟨budget, hbudget, -, hprice⟩ := h.price_eq
  have hle : step.amountIn ≤ budget :=
    (amount_up_le_iff h.amountIn_eq).mpr (exactAmount_priceAfterInput_le hprice)
  have hrest := mul_fee_le_rest hfee hbudget hle
  rwa [← h.spent_eq, Nat.add_sub_cancel_left] at hrest

/-- A step charges at least the exact fee on what is paid. -/
theorem Went.mul_fee_le (h : Went paid current target liquidity remaining fee step)
    (hfee : fee < feeDenominator) :
    step.amountIn * fee ≤ step.fee * (feeDenominator - fee) := by
  cases h with
  | whole htaken _ _ => exact mul_fee_le_feeOn hfee htaken.fee_eq
  | inputPart _ hpart => exact hpart.mul_fee_le hfee
  | outputPart _ hpart => exact mul_fee_le_feeOn hfee hpart.fee_eq

/-- A step takes in at least what the exact curve asks for the way that the price went, gives out at
most what the curve holds on it, and charges at least the exact fee. -/
theorem compute_favoursPool (hcurrent : 0 < current) (htarget : 0 < target)
    (h : compute current target liquidity remaining fee = .ok step) :
    (target ≤ current →
      liquidity * 2 ^ 96 * |(current : ℚ) - step.price| / (current * step.price) ≤ step.amountIn ∧
        (step.amountOut : ℚ) ≤ liquidity * |(current : ℚ) - step.price| / 2 ^ 96) ∧
    (current ≤ target →
      liquidity * |(current : ℚ) - step.price| / 2 ^ 96 ≤ step.amountIn ∧
        (step.amountOut : ℚ) ≤
          liquidity * 2 ^ 96 * |(current : ℚ) - step.price| / (current * step.price)) ∧
    step.amountIn * fee ≤ step.fee * (feeDenominator - fee) := by
  have hprice : 0 < step.price := by
    have hbetween :=
      (favourable_of_compute htarget (leads_paidToward current target) h).between.1
    exact lt_of_lt_of_le (lt_min hcurrent htarget) hbetween
  refine ⟨fun hfalls ↦ ?_, fun hrises ↦ ?_, ?_⟩
  · have hstep : Favourable .zero current target liquidity step :=
      favourable_of_compute htarget hfalls h
    rw [← exactAmount_zero_eq_abs hcurrent hprice, ← exactAmount_one_eq_abs]
    exact ⟨hstep.exactAmount_le, hstep.le_exactAmount⟩
  · have hstep : Favourable .one current target liquidity step :=
      favourable_of_compute htarget hrises h
    rw [← exactAmount_zero_eq_abs hcurrent hprice, ← exactAmount_one_eq_abs]
    exact ⟨hstep.exactAmount_le, hstep.le_exactAmount⟩
  · obtain ⟨hfee, hwent⟩ := went_toward_of_compute htarget h
    exact hwent.mul_fee_le hfee

/-- An input of a hundred that stops short of the least price. -/
theorem compute_favoursPool_shortStep :
    compute q96 minSqrtPrice 1000 100 3000 = .ok ⟨72091139685408860412687852899, 99, 90, 1⟩ ∧
      ((1000 : ℕ) * 2 ^ 96 * |(q96 : ℚ) - (72091139685408860412687852899 : ℕ)| /
        (q96 * (72091139685408860412687852899 : ℕ)) ≤ (99 : ℕ)) ∧ 99 * 3000 ≤ 1 * 997000 := by
  have hstep : compute q96 minSqrtPrice 1000 100 3000 =
      .ok ⟨72091139685408860412687852899, 99, 90, 1⟩ := by decide +kernel
  obtain ⟨hfalls, -, hfee⟩ := compute_favoursPool (by decide) (by decide) hstep
  exact ⟨hstep, (hfalls (by decide)).1, hfee⟩

end RangeBook.RangeStep
