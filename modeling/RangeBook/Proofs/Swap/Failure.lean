import Mathlib
import RangeBook.Proofs.Book.Operations
import RangeBook.Proofs.Swap.LevelFill
import RangeBook.Swap.Trip

/-!
# How fills of a level fail

A fill fails because a number does not fit, or because the share of the level cannot be scaled
(`LevelFill.failures`). Booking its amounts fails because a sum does not fit. That a part of a level
is more than is available is the one thing to rule out by the level
(`SwapState.fillLevel_failsOnly`).
-/

set_option autoImplicit false
set_option relaxedAutoImplicit false

namespace RangeBook

attribute [local irreducible] tickSqrtPrice tickAt

variable {allowed : Failure → Prop}

/-! ### Shares and prices -/

theorem Share.scale_failsOnly {share : Share} {numerator denominator : ℕ}
    (hquotient : allowed (.rejected .quotientOverflow))
    (hrange : allowed (.rejected .fractionOutOfRange)) :
    FailsOnly allowed (scale share numerator denominator) := by
  refine .bind (.require fun _ ↦ hrange) fun _ _ ↦ .bind (.require fun _ ↦ hrange) fun _ _ ↦ ?_
  exact .ite (fun _ ↦ .orReject fun _ ↦ hquotient) fun _ ↦ .pure _

theorem Book.costCeil_failsOnly {bought price : ℕ} {paid : Token}
    (hquotient : allowed (.rejected .quotientOverflow)) :
    FailsOnly allowed (costCeil bought price paid) := by
  cases paid with
  | zero => exact .orReject fun _ ↦ hquotient
  | one => exact .orReject fun _ ↦ hquotient

theorem Book.boughtFloor_failsOnly {cost price : ℕ} {paid : Token}
    (hquotient : allowed (.rejected .quotientOverflow)) :
    FailsOnly allowed (boughtFloor cost price paid) := by
  cases paid with
  | zero => exact .mulDivFloor hquotient
  | one => exact .mulDivFloor hquotient

/-! ### Fills -/

namespace LevelFill

variable {price available taken fee : ℕ} {unfilled : Share} {remaining : ℤ} {paid : Token}

/-- How a fill can fail. -/
def failures : List Failure := [
  .rejected .feeLimit, .rejected .quotientOverflow, .rejected .uint256Range,
  .rejected .fractionOutOfRange]

theorem takePart_failsOnly (h : ∀ failure ∈ failures, allowed failure) :
    FailsOnly allowed (takePart available taken unfilled) := by
  have hquotient := h (.rejected .quotientOverflow) (by decide)
  have hwidth := h (.rejected .uint256Range) (by decide)
  have hrange := h (.rejected .fractionOutOfRange) (by decide)
  refine .bind (.within fun _ ↦ hwidth) fun left _ ↦
    .bind (Share.scale_failsOnly hquotient hrange) fun next _ ↦
    .bind (Share.portion_failsOnly hquotient hwidth fun _ ↦ hrange) fun _ _ ↦ ?_
  exact .bind (.within fun _ ↦ hwidth) fun _ _ ↦ .pure _

theorem compute_failsOnly (h : ∀ failure ∈ failures, allowed failure) :
    FailsOnly allowed (compute price available unfilled remaining fee paid) := by
  have hquotient := h (.rejected .quotientOverflow) (by decide)
  have hwhole : ∀ {cost}, FailsOnly allowed (whole available cost fee) := by
    intro cost
    exact .bind (.orReject fun _ ↦ hquotient) fun _ _ ↦ .pure _
  refine .bind (.require fun _ ↦ h _ (by decide)) fun _ _ ↦ .ite (fun _ ↦ ?_) fun _ ↦ ?_
  · refine .bind (Book.costCeil_failsOnly hquotient) fun cost _ ↦
      .bind (.mulDivFloor hquotient) fun budget _ ↦ .ite (fun _ ↦ hwhole) fun _ ↦ ?_
    exact .bind (Book.boughtFloor_failsOnly hquotient) fun _ _ ↦
      .bind (takePart_failsOnly h) fun _ _ ↦ .pure _
  · refine .bind (Book.costCeil_failsOnly hquotient) fun cost _ ↦ .ite (fun _ ↦ hwhole) fun _ ↦ ?_
    refine .bind (takePart_failsOnly h) fun _ _ ↦ ?_
    exact .bind (Book.costCeil_failsOnly hquotient) fun _ _ ↦
      .bind (.orReject fun _ ↦ hquotient) fun _ _ ↦ .pure _

end LevelFill

/-! ### Booking -/

namespace SwapState

variable {pool : Pool} {request : SwapRequest} {state : SwapState} {tick : ℤ} {level : Level}
  {sqrtPrice : ℕ}

theorem book_failsOnly {amountIn fee amountOut : ℕ} (hunsigned : allowed (.rejected .uint256Range))
    (hsigned : allowed (.rejected .int256Range)) :
    FailsOnly allowed (book request state amountIn fee amountOut) := by
  have hint : ∀ {value}, FailsOnly allowed (int256 value) := .within fun _ ↦ hsigned
  refine .bind (.within fun _ ↦ hunsigned) fun _ _ ↦ .bind hint fun _ _ ↦ .bind hint fun _ _ ↦
    .ite (fun _ ↦ ?_) fun _ ↦ ?_
  · exact .bind hint fun _ _ ↦ .bind hint fun _ _ ↦ .pure _
  · exact .bind hint fun _ _ ↦ .bind hint fun _ _ ↦ .pure _

/-- A fill of a level takes no more than is available there. -/
theorem fillLevel_failsOnly (h : ∀ failure ∈ LevelFill.failures, allowed failure)
    (hsigned : allowed (.rejected .int256Range)) (havailable : level.available < twoPow 128) :
    FailsOnly allowed (fillLevel pool request state tick level sqrtPrice) := by
  refine .bind (.mulDivFloor (h _ (by decide))) fun price _ ↦
    .bind (LevelFill.compute_failsOnly h) fun fill hfill ↦
    .bind (book_failsOnly (h _ (by decide)) hsigned) fun booked _ ↦ ?_
  have hwide : twoPow 128 < twoPow 256 := by decide
  have htaken : wrap128 fill.amountOut ≤ level.available :=
    le_trans (wrap128_le _)
      (LevelFill.bounded_of_compute (lt_trans havailable hwide) hfill).amountOut_le
  cases fill.unfilled? with
  | none => exact .pure _
  | some unfilled => exact .bind (.require (absurd htaken)) fun _ _ ↦ .pure _

end SwapState

end RangeBook
