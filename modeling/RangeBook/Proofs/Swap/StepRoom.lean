import Mathlib
import RangeBook.Proofs.Curve.Room
import RangeBook.Proofs.Swap.RangeStep

/-!
# Room for steps along a range

Between prices from the least to the greatest a step moves no more than the curve holds there,
whatever is left to swap. An input that does not reach the target is not much more than what the
curve asks for either, since a fee below the whole leaves at least a millionth of it
(`withinRoom_of_compute`). So all amounts fit, and the step can always be worked out
(`compute_finishes`).
-/

set_option autoImplicit false
set_option relaxedAutoImplicit false

namespace RangeBook.RangeStep

open Curve

variable {allowed : Failure → Prop} {paid : Token} {current target liquidity amount fee : ℕ}
  {remaining : ℤ} {step : RangeStep}

/-! ### What a step can move -/

/-- Whether a step moves no more than the liquidity can hold between prices that fit, and
charges less than a million times that. -/
structure WithinRoom (liquidity : ℕ) (step : RangeStep) : Prop where
  amountIn_le : step.amountIn ≤ liquidity * twoPow 64
  amountOut_le : step.amountOut ≤ liquidity * twoPow 64
  fee_le : step.fee ≤ liquidity * twoPow 64 * feeDenominator

theorem InputStep.withinRoom (h : InputStep paid current target liquidity amount fee step)
    (hfee : fee < feeDenominator) (hcurrent : PriceFits current)
    (htarget : PriceFits target) : WithinRoom liquidity step := by
  have hprice := hcurrent.of_leads htarget h.leads h.favourable.stays
  have hamountIn := amount_up_le hcurrent hprice h.amountIn_eq
  refine ⟨hamountIn, amount_down_le hcurrent hprice h.amountOut_eq, ?_⟩
  obtain ⟨-, hcharged, -⟩ | ⟨-, hspent, budget, hbudget, hless⟩ := h.arrival
  · exact le_trans (feeOn_le hfee hcharged) (Nat.mul_le_mul_right _ hamountIn)
  · have hbelow : budget < liquidity * twoPow 64 := by
      exact_mod_cast lt_of_lt_of_le hless (exactAmount_le hcurrent htarget)
    calc step.fee ≤ amount := hspent ▸ Nat.le_add_left _ _
      _ ≤ (budget + 1) * feeDenominator := (lt_of_lessFee hfee hbudget).le
      _ ≤ liquidity * twoPow 64 * feeDenominator := Nat.mul_le_mul_right _ hbelow

theorem OutputStep.withinRoom (h : OutputStep paid current target liquidity amount fee step)
    (hfee : fee < feeDenominator) (hcurrent : PriceFits current)
    (htarget : PriceFits target) : WithinRoom liquidity step := by
  have hprice := hcurrent.of_leads htarget h.leads h.stays
  have hamountIn := amount_up_le hcurrent hprice h.amountIn_eq
  obtain ⟨bought, hbought, hout⟩ := h.amountOut_eq
  refine ⟨hamountIn, ?_, le_trans (feeOn_le hfee h.fee_eq) (Nat.mul_le_mul_right _ hamountIn)⟩
  rw [hout]
  exact le_trans (min_le_left _ _) (amount_down_le hcurrent hprice hbought)

theorem withinRoom_of_compute (hcurrent : PriceFits current) (htarget : PriceFits target)
    (h : compute current target liquidity remaining fee = .ok step) :
    WithinRoom liquidity step := by
  obtain ⟨hfee, ⟨-, hstep⟩ | ⟨-, hstep⟩⟩ := step_of_compute htarget.pos h
  · exact hstep.withinRoom hfee hcurrent htarget
  · exact hstep.withinRoom hfee hcurrent htarget

/-! ### Steps finish -/

/-- Liquidity of 128 bits cannot hold so much between prices that a fee on it would not fit. -/
theorem mul_feeDenominator_lt (hliquidity : liquidity < twoPow 128) :
    liquidity * twoPow 64 * feeDenominator < twoPow 212 := by
  calc liquidity * twoPow 64 * feeDenominator
      < twoPow 128 * twoPow 64 * feeDenominator := by
        refine Nat.mul_lt_mul_of_pos_right ?_ (by decide)
        exact Nat.mul_lt_mul_of_pos_right hliquidity (twoPow_pos 64)
    _ ≤ twoPow 212 := by decide

theorem WithinRoom.amounts_lt (h : WithinRoom liquidity step)
    (hliquidity : liquidity < twoPow 128) :
    step.amountIn + step.fee < twoPow 213 ∧ step.amountOut < twoPow 213 := by
  have hfee := lt_of_le_of_lt h.fee_le (mul_feeDenominator_lt hliquidity)
  have hwithFee : liquidity * twoPow 64 ≤ liquidity * twoPow 64 * feeDenominator :=
    Nat.le_mul_of_pos_right _ (by decide)
  have hheld := lt_of_le_of_lt hwithFee (mul_feeDenominator_lt hliquidity)
  have hamountIn := h.amountIn_le
  have hamountOut := h.amountOut_le
  have hdouble : twoPow 213 = 2 * twoPow 212 := twoPow_succ 212
  constructor <;> omega

theorem feeOn_amountPaid_finishes {price : ℕ} (hfee : fee < feeDenominator)
    (hcurrent : PriceFits current) (hprice : PriceFits price)
    (hliquidity : liquidity < twoPow 128)
    (h : amountPaid paid current price liquidity = .ok amount) :
    FailsOnly allowed (feeOn amount fee) := by
  refine feeOn_finishes hfee (lt_of_le_of_lt ?_ (lt_trans (mul_feeDenominator_lt hliquidity)
    (by decide)))
  exact Nat.mul_le_mul_right _ (amount_up_le hcurrent hprice h)

theorem exactInput_finishes (hfee : fee < feeDenominator) (hcurrent : PriceFits current)
    (htarget : PriceFits target) (hliquidity : liquidity < twoPow 128)
    (hamount : amount ≤ twoPow 255) :
    FailsOnly allowed (exactInput current target liquidity amount fee) := by
  have htoward := leads_paidToward current target
  refine .bind (lessFee_finishes (lt_of_le_of_lt hamount (by decide))) fun budget hbudget ↦
    .bind (amount_finishes .up hcurrent htarget hliquidity) fun toTarget htoTarget ↦ ?_
  have hless : ¬toTarget ≤ budget → (budget : ℚ) < exactAmount (paidToward current target)
      current target liquidity := by
    intro hshort
    rw [← not_le, ← amount_up_le_iff htoTarget]
    exact hshort
  have hbudgetLe : budget ≤ twoPow 255 := le_trans (lessFee_le_input hbudget) hamount
  refine .ite_bind (fun _ ↦ .pure _) (fun hshort ↦ priceAfterInput_finishes hcurrent htarget htoward
    hliquidity hbudgetLe (hless hshort)) fun price hpriceEq ↦ ?_
  -- Short of the target the way to the price costs no more than what the fee leaves.
  have hbetween : PriceFits price ∧ (price ≠ target →
      exactAmount (paidToward current target) current price liquidity ≤ budget) := by
    split at hpriceEq
    · obtain rfl := Except.ok.inj hpriceEq
      exact ⟨htarget, fun hne ↦ absurd rfl hne⟩
    · rename_i hshort
      obtain ⟨hleads, hpast⟩ := priceAfterInput_between htarget.pos htoward (hless hshort) hpriceEq
      exact ⟨hcurrent.of_leads htarget hleads (.of_past hpast),
        fun _ ↦ exactAmount_priceAfterInput_le hpriceEq⟩
  obtain ⟨hprice, hspent⟩ := hbetween
  refine .ite_bind (fun _ ↦ .pure _) (fun _ ↦ amount_finishes .up hcurrent hprice hliquidity)
    fun amountIn hamountIn ↦ .bind (amount_finishes .down hcurrent hprice hliquidity) fun _ _ ↦
    .ite_bind (fun hreached ↦ ?_) (fun hshort ↦ ?_) fun _ _ ↦ .pure _
  · rw [if_pos hreached] at hamountIn
    obtain rfl := Except.ok.inj hamountIn
    exact feeOn_amountPaid_finishes hfee hcurrent htarget hliquidity htoTarget
  · rw [if_neg hshort] at hamountIn
    have hle : amountIn ≤ budget := (amount_up_le_iff hamountIn).mpr (hspent hshort)
    exact .of_eq_ok (remainder_eq_ok.mpr ⟨le_trans hle (lessFee_le_input hbudget), rfl⟩)

theorem exactOutput_finishes (hfee : fee < feeDenominator) (hcurrent : PriceFits current)
    (htarget : PriceFits target) (hliquidity : liquidity < twoPow 128) :
    FailsOnly allowed (exactOutput current target liquidity amount fee) := by
  have htoward := leads_paidToward current target
  refine .bind (amount_finishes .down hcurrent htarget hliquidity) fun toTarget htoTarget ↦ ?_
  have hless : ¬toTarget ≤ amount → (amount : ℚ) < exactAmount (paidToward current target).other
      current target liquidity := by
    intro hshort
    refine lt_of_lt_of_le ?_ (amount_down_le_exactAmount htoTarget)
    exact_mod_cast not_le.mp hshort
  refine .ite_bind (fun _ ↦ .pure _) (fun hshort ↦ priceAfterOutput_finishes hcurrent htarget
    htoward hliquidity (hless hshort)) fun price hpriceEq ↦ ?_
  have hprice : PriceFits price := by
    split at hpriceEq
    · obtain rfl := Except.ok.inj hpriceEq
      exact htarget
    · rename_i hshort
      obtain ⟨hleads, hstays⟩ :=
        priceAfterOutput_between htarget.pos htoward (hless hshort).le hpriceEq
      exact hcurrent.of_leads htarget hleads hstays
  refine .bind (amount_finishes .up hcurrent hprice hliquidity) fun amountIn hamountIn ↦
    .ite_bind (fun _ ↦ .pure _) (fun _ ↦ amount_finishes .down hcurrent hprice hliquidity)
      fun _ _ ↦ .bind ?_ fun _ _ ↦ .pure _
  exact feeOn_amountPaid_finishes hfee hcurrent hprice hliquidity hamountIn

/-- A step between prices that fit can always be worked out. -/
theorem compute_finishes (hfee : fee < feeDenominator) (hcurrent : PriceFits current)
    (htarget : PriceFits target) (hliquidity : liquidity < twoPow 128)
    (hremaining : remaining.natAbs ≤ twoPow 255) :
    FailsOnly allowed (compute current target liquidity remaining fee) :=
  .bind (.require (absurd hfee)) fun _ _ ↦
    .ite (fun _ ↦ exactInput_finishes hfee hcurrent htarget hliquidity hremaining)
      fun _ ↦ exactOutput_finishes hfee hcurrent htarget hliquidity

end RangeBook.RangeStep
