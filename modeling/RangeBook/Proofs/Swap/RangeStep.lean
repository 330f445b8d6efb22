import Mathlib
import RangeBook.Proofs.Action
import RangeBook.Proofs.Curve.Trade
import RangeBook.Proofs.Fee
import RangeBook.Swap.RangeStep

/-!
# Steps along a range

A step goes all the way to its target where the amount that is left to swap covers it, and otherwise
a part of the way for all of that amount (`Went`). So a step of fixed input reaches its target within
what the fee leaves of the input, or stops before it and spends all of the input (`InputStep`). A
step of fixed output gives out no more than the output (`OutputStep`).

A step of either kind stays within the amount that is left to swap (`spent_le_of_compute`,
`bought_le_of_compute`). It keeps the price between where it was and its target, takes in at least
what the exact curve asks for the way that the price went, and gives out at most what the exact
curve holds on it (`favourable_of_compute`).
-/

set_option autoImplicit false
set_option relaxedAutoImplicit false

namespace RangeBook.RangeStep

open Curve

variable {paid : Token} {current target liquidity amount fee : ℕ} {remaining : ℤ}
  {step : RangeStep}

theorem leads_paidToward (current target : ℕ) :
    (paidToward current target).Leads current target := by
  unfold paidToward
  split
  · rename_i hle
    exact hle
  · rename_i hlt
    exact (not_le.mp hlt).le

theorem paidToward_eq (htoward : paid.Leads current target) (hne : current ≠ target) :
    paidToward current target = paid := by
  unfold paidToward
  cases paid with
  | zero => exact if_pos htoward
  | one => exact if_neg fun hle ↦ hne (le_antisymm htoward hle)

/-! ### What a step does -/

/-- What a step does that goes all the way to its target. It does not depend on what is left to
swap. -/
structure Whole (paid : Token) (current target liquidity fee : ℕ) (step : RangeStep) : Prop where
  price_eq : step.price = target
  amountIn_eq : amountPaid paid current target liquidity = .ok step.amountIn
  amountOut_eq : amountBought paid current target liquidity = .ok step.amountOut
  fee_eq : feeOn step.amountIn fee = .ok step.fee

/-- What a step does that takes all of an input and goes a part of the way for it. -/
structure InputPart (paid : Token) (current target liquidity input fee : ℕ) (step : RangeStep) :
    Prop where
  price_eq : ∃ budget, lessFee input fee = .ok budget ∧
    (budget : ℚ) < exactAmount paid current target liquidity ∧
    priceAfterInput current liquidity budget paid = .ok step.price
  amountIn_eq : amountPaid paid current step.price liquidity = .ok step.amountIn
  amountOut_eq : amountBought paid current step.price liquidity = .ok step.amountOut
  spent_eq : step.amountIn + step.fee = input

/-- What a step does that buys all of an output on a part of the way. -/
structure OutputPart (paid : Token) (current target liquidity output fee : ℕ) (step : RangeStep) :
    Prop where
  lt_toTarget : ∃ toTarget, amountBought paid current target liquidity = .ok toTarget ∧
    output < toTarget
  price_eq : priceAfterOutput current liquidity output paid = .ok step.price
  amountIn_eq : amountPaid paid current step.price liquidity = .ok step.amountIn
  le_bought : ∃ bought, amountBought paid current step.price liquidity = .ok bought ∧
    output ≤ bought
  amountOut_eq : step.amountOut = output
  fee_eq : feeOn step.amountIn fee = .ok step.fee

/-- The steps towards a target: all the way where the amount that is left to swap covers it, or a
part of it for all of an input or for all of an output. -/
inductive Went (paid : Token) (current target liquidity : ℕ) (remaining : ℤ) (fee : ℕ)
    (step : RangeStep) : Prop
  | whole (taken : Whole paid current target liquidity fee step)
    (input : 0 ≤ remaining →
      ∃ budget, lessFee remaining.natAbs fee = .ok budget ∧ step.amountIn ≤ budget)
    (output : remaining < 0 → step.amountOut ≤ remaining.natAbs)
  | inputPart (input : 0 ≤ remaining)
    (part : InputPart paid current target liquidity remaining.natAbs fee step)
  | outputPart (output : remaining < 0)
    (part : OutputPart paid current target liquidity remaining.natAbs fee step)

theorem InputPart.between (htarget : 0 < target) (htoward : paid.Leads current target)
    (h : InputPart paid current target liquidity amount fee step) :
    paid.Leads current step.price ∧ paid.Past target step.price := by
  obtain ⟨budget, -, hless, hprice⟩ := h.price_eq
  exact priceAfterInput_between htarget htoward hless hprice

theorem OutputPart.between (htarget : 0 < target) (htoward : paid.Leads current target)
    (h : OutputPart paid current target liquidity amount fee step) :
    paid.Leads current step.price ∧ paid.Leads step.price target := by
  obtain ⟨toTarget, htoTarget, hless⟩ := h.lt_toTarget
  exact priceAfterOutput_between htarget htoward ((le_amount_down_iff htoTarget).mp hless.le)
    h.price_eq

theorem went_of_exactInput (htarget : 0 < target) (hinput : 0 ≤ remaining)
    (h : exactInput current target liquidity remaining.natAbs fee = .ok step) :
    Went (paidToward current target) current target liquidity remaining fee step := by
  have htoward := leads_paidToward current target
  unfold exactInput at h
  dsimp only at h
  obtain ⟨budget, hbudget, h⟩ := bind_eq_ok.mp h
  obtain ⟨toTarget, htoTarget, h⟩ := bind_eq_ok.mp h
  obtain ⟨price, hprice, h⟩ := ite_bind_eq_ok.mp h
  obtain ⟨amountIn, hamountIn, h⟩ := ite_bind_eq_ok.mp h
  obtain ⟨amountOut, hamountOut, h⟩ := bind_eq_ok.mp h
  obtain ⟨charged, hcharged, h⟩ := ite_bind_eq_ok.mp h
  obtain rfl := Except.ok.inj h
  split at hprice
  · rename_i hcovers
    obtain rfl := Except.ok.inj hprice
    rw [if_pos rfl] at hamountIn hcharged
    obtain rfl := Except.ok.inj hamountIn
    exact .whole ⟨rfl, htoTarget, hamountOut, hcharged⟩ (fun _ ↦ ⟨budget, hbudget, hcovers⟩)
      fun houtput ↦ absurd hinput (not_le.mpr houtput)
  · rename_i hcovers
    have hless : (budget : ℚ) < exactAmount (paidToward current target) current target
        liquidity := by
      rw [← not_le, ← amount_up_le_iff htoTarget]
      exact hcovers
    have hne : price ≠ target := (priceAfterInput_between htarget htoward hless hprice).2.ne
    rw [if_neg hne] at hamountIn hcharged
    obtain ⟨hle, rfl⟩ := remainder_eq_ok.mp hcharged
    exact .inputPart hinput
      ⟨⟨budget, hbudget, hless, hprice⟩, hamountIn, hamountOut, Nat.add_sub_cancel' hle⟩

theorem went_of_exactOutput (houtput : remaining < 0)
    (h : exactOutput current target liquidity remaining.natAbs fee = .ok step) :
    Went (paidToward current target) current target liquidity remaining fee step := by
  unfold exactOutput at h
  dsimp only at h
  obtain ⟨toTarget, htoTarget, h⟩ := bind_eq_ok.mp h
  obtain ⟨price, hprice, h⟩ := ite_bind_eq_ok.mp h
  obtain ⟨amountIn, hamountIn, h⟩ := bind_eq_ok.mp h
  obtain ⟨amountOut, hamountOut, h⟩ := ite_bind_eq_ok.mp h
  obtain ⟨charged, hcharged, h⟩ := bind_eq_ok.mp h
  obtain rfl := Except.ok.inj h
  have hbought : amountBought (paidToward current target) current price liquidity =
      .ok amountOut := by
    split at hamountOut
    · rename_i hreached
      rw [hreached, htoTarget, ← Except.ok.inj hamountOut]
    · exact hamountOut
  split at hprice
  · rename_i hcovers
    obtain rfl := Except.ok.inj hprice
    obtain rfl := Except.ok.inj (htoTarget.symm.trans hbought)
    refine .whole ⟨rfl, hamountIn, ?_, hcharged⟩
      (fun hinput ↦ absurd houtput (not_lt.mpr hinput)) fun _ ↦ min_le_right _ _
    rw [min_eq_left hcovers]
    exact htoTarget
  · rename_i hcovers
    have hle := (le_amount_down_iff hbought).mpr (le_exactAmount_priceAfterOutput hprice)
    exact .outputPart houtput ⟨⟨toTarget, htoTarget, not_le.mp hcovers⟩, hprice, hamountIn,
      ⟨amountOut, hbought, hle⟩, min_eq_right hle, hcharged⟩

/-- A step goes towards its target, for an input or for an output by the sign of the amount left to
swap. -/
theorem went_toward_of_compute (htarget : 0 < target)
    (h : compute current target liquidity remaining fee = .ok step) :
    fee < feeDenominator ∧
      Went (paidToward current target) current target liquidity remaining fee step := by
  unfold compute at h
  obtain ⟨_, hfee, h⟩ := bind_eq_ok.mp h
  refine ⟨require_eq_ok.mp hfee, ?_⟩
  split at h
  · rename_i hinput
    exact went_of_exactInput htarget hinput h
  · rename_i houtput
    exact went_of_exactOutput (not_le.mp houtput) h

/-- What a step of fixed input does: it reaches its target within what the fee leaves of the input,
or stops before it and spends all of the input. -/
structure InputStep (paid : Token) (current target liquidity input fee : ℕ) (step : RangeStep) :
    Prop where
  leads : paid.Leads current step.price
  amountIn_eq : amountPaid paid current step.price liquidity = .ok step.amountIn
  amountOut_eq : amountBought paid current step.price liquidity = .ok step.amountOut
  arrival : (step.price = target ∧ feeOn step.amountIn fee = .ok step.fee ∧
      ∃ budget, lessFee input fee = .ok budget ∧ step.amountIn ≤ budget) ∨
    (paid.Past target step.price ∧ step.amountIn + step.fee = input ∧
      ∃ budget, lessFee input fee = .ok budget ∧
        (budget : ℚ) < exactAmount paid current target liquidity)

theorem Went.inputStep (htarget : 0 < target) (htoward : paid.Leads current target)
    (hinput : 0 ≤ remaining) (h : Went paid current target liquidity remaining fee step) :
    InputStep paid current target liquidity remaining.natAbs fee step := by
  cases h with
  | whole htaken hcovers _ =>
    obtain ⟨hprice, hin, hout, hcharged⟩ := htaken
    rw [← hprice] at htoward hin hout
    exact ⟨htoward, hin, hout, .inl ⟨hprice, hcharged, hcovers hinput⟩⟩
  | inputPart _ hpart =>
    obtain ⟨hleads, hpast⟩ := hpart.between htarget htoward
    obtain ⟨budget, hbudget, hless, -⟩ := hpart.price_eq
    exact ⟨hleads, hpart.amountIn_eq, hpart.amountOut_eq,
      .inr ⟨hpast, hpart.spent_eq, budget, hbudget, hless⟩⟩
  | outputPart houtput _ => exact absurd hinput (not_le.mpr houtput)

/-- What a step of fixed output does: it stops at its target or before it, and gives out what the
curve holds up to there, but no more than the output. -/
structure OutputStep (paid : Token) (current target liquidity output fee : ℕ)
    (step : RangeStep) : Prop where
  leads : paid.Leads current step.price
  stays : paid.Leads step.price target
  amountIn_eq : amountPaid paid current step.price liquidity = .ok step.amountIn
  amountOut_eq : ∃ bought, amountBought paid current step.price liquidity = .ok bought ∧
    step.amountOut = min bought output
  fee_eq : feeOn step.amountIn fee = .ok step.fee

theorem Went.outputStep (htarget : 0 < target) (htoward : paid.Leads current target)
    (houtput : remaining < 0) (h : Went paid current target liquidity remaining fee step) :
    OutputStep paid current target liquidity remaining.natAbs fee step := by
  cases h with
  | whole htaken _ hcovers =>
    obtain ⟨hprice, hin, hout, hcharged⟩ := htaken
    rw [← hprice] at htoward hin hout
    refine ⟨htoward, ?_, hin, ⟨_, hout, (min_eq_left (hcovers houtput)).symm⟩, hcharged⟩
    rw [hprice]
    exact .refl _ _
  | inputPart hinput _ => exact absurd houtput (not_lt.mpr hinput)
  | outputPart _ hpart =>
    obtain ⟨hleads, hstays⟩ := hpart.between htarget htoward
    obtain ⟨bought, hbought, hle⟩ := hpart.le_bought
    refine ⟨hleads, hstays, hpart.amountIn_eq, ⟨bought, hbought, ?_⟩, hpart.fee_eq⟩
    rw [hpart.amountOut_eq, min_eq_right hle]

/-- A step is one of fixed input or of fixed output, by the sign of the amount left to swap. -/
theorem step_of_compute (htarget : 0 < target)
    (h : compute current target liquidity remaining fee = .ok step) :
    fee < feeDenominator ∧
      ((0 ≤ remaining ∧ InputStep (paidToward current target) current target liquidity
          remaining.natAbs fee step) ∨
        (remaining < 0 ∧ OutputStep (paidToward current target) current target liquidity
          remaining.natAbs fee step)) := by
  obtain ⟨hfee, hwent⟩ := went_toward_of_compute htarget h
  have htoward := leads_paidToward current target
  refine ⟨hfee, ?_⟩
  rcases le_or_gt 0 remaining with hinput | houtput
  · exact .inl ⟨hinput, hwent.inputStep htarget htoward hinput⟩
  · exact .inr ⟨houtput, hwent.outputStep htarget htoward houtput⟩

/-- A step along a range without liquidity charges no fee. -/
theorem Went.fee_eq_zero (h : Went paid current target 0 remaining fee step)
    (hfee : fee < feeDenominator) : step.fee = 0 := by
  have hnothing : ∀ token priceA priceB, exactAmount token priceA priceB 0 = 0 := by
    intro token priceA priceB
    rw [exactAmount, Nat.cast_zero, zero_mul]
  cases h with
  | whole htaken _ _ =>
    have hin : step.amountIn ≤ 0 := by
      rw [amount_up_le_iff htaken.amountIn_eq, hnothing, Nat.cast_zero]
    have hle := feeOn_le hfee htaken.fee_eq
    rw [Nat.le_zero.mp hin, Nat.zero_mul] at hle
    exact Nat.le_zero.mp hle
  | inputPart _ hpart =>
    obtain ⟨budget, -, hless, -⟩ := hpart.price_eq
    rw [hnothing] at hless
    exact absurd hless (not_lt.mpr (Nat.cast_nonneg _))
  | outputPart _ hpart =>
    obtain ⟨toTarget, htoTarget, hless⟩ := hpart.lt_toTarget
    have hbought := amount_down_le_exactAmount htoTarget
    rw [hnothing] at hbought
    have hzero : toTarget ≤ 0 := by exact_mod_cast hbought
    omega

/-! ### The amount left to swap -/

theorem InputStep.spent_le (h : InputStep paid current target liquidity amount fee step)
    (hfee : fee < feeDenominator) : step.amountIn + step.fee ≤ amount := by
  obtain ⟨-, hcharged, budget, hbudget, hle⟩ | ⟨-, hspent, -⟩ := h.arrival
  · exact add_feeOn_le hfee hbudget hle hcharged
  · exact hspent.le

/-- A step spends no more than an input that is left to swap, its fee included. -/
theorem spent_le_of_compute (htarget : 0 < target) (hinput : 0 ≤ remaining)
    (h : compute current target liquidity remaining fee = .ok step) :
    step.amountIn + step.fee ≤ remaining.natAbs := by
  obtain ⟨hfee, ⟨-, hstep⟩ | ⟨houtput, -⟩⟩ := step_of_compute htarget h
  · exact hstep.spent_le hfee
  · exact absurd hinput (not_le.mpr houtput)

/-- A step buys no more than an output that is left to swap. -/
theorem bought_le_of_compute (htarget : 0 < target) (houtput : remaining < 0)
    (h : compute current target liquidity remaining fee = .ok step) :
    step.amountOut ≤ remaining.natAbs := by
  obtain ⟨-, ⟨hinput, -⟩ | ⟨-, hstep⟩⟩ := step_of_compute htarget h
  · exact absurd hinput (not_le.mpr houtput)
  · obtain ⟨bought, -, hbought⟩ := hstep.amountOut_eq
    rw [hbought]
    exact min_le_right _ _

/-- A step that stops short of its target uses up the amount that is left to swap. -/
theorem reaches_of_compute (htarget : 0 < target)
    (h : compute current target liquidity remaining fee = .ok step) :
    step.price = target ∨ (0 ≤ remaining ∧ step.amountIn + step.fee = remaining.natAbs) ∨
      (remaining < 0 ∧ step.amountOut = remaining.natAbs) := by
  cases (went_toward_of_compute htarget h).2 with
  | whole htaken _ _ => exact .inl htaken.price_eq
  | inputPart hinput hpart => exact .inr (.inl ⟨hinput, hpart.spent_eq⟩)
  | outputPart houtput hpart => exact .inr (.inr ⟨houtput, hpart.amountOut_eq⟩)

/-! ### The exact curve -/

/-- Whether a step stays before its target and trades no worse for the pool than the exact curve. -/
structure Favourable (paid : Token) (current target liquidity : ℕ) (step : RangeStep) : Prop where
  leads : paid.Leads current step.price
  stays : paid.Leads step.price target
  exactAmount_le : exactAmount paid current step.price liquidity ≤ step.amountIn
  le_exactAmount : (step.amountOut : ℚ) ≤ exactAmount paid.other current step.price liquidity

theorem InputStep.favourable (h : InputStep paid current target liquidity amount fee step) :
    Favourable paid current target liquidity step := by
  refine ⟨h.leads, ?_, exactAmount_le_amount_up h.amountIn_eq,
    amount_down_le_exactAmount h.amountOut_eq⟩
  obtain ⟨htarget, -⟩ | ⟨hpast, -⟩ := h.arrival
  · rw [htarget]
    exact .refl _ _
  · exact .of_past hpast

theorem OutputStep.favourable (h : OutputStep paid current target liquidity amount fee step) :
    Favourable paid current target liquidity step := by
  refine ⟨h.leads, h.stays, exactAmount_le_amount_up h.amountIn_eq, ?_⟩
  obtain ⟨bought, hbought, hout⟩ := h.amountOut_eq
  rw [hout]
  exact le_trans (by exact_mod_cast min_le_left bought amount)
    (amount_down_le_exactAmount hbought)

/-- A step towards a target in the direction of a swap is favourable to the pool. A step that
starts at its target is taken to pay token zero, but then nothing moves. -/
theorem favourable_of_compute (htarget : 0 < target)
    (htoward : paid.Leads current target)
    (h : compute current target liquidity remaining fee = .ok step) :
    Favourable paid current target liquidity step := by
  have hstep : Favourable (paidToward current target) current target liquidity step := by
    obtain ⟨-, ⟨-, hstep⟩ | ⟨-, hstep⟩⟩ := step_of_compute htarget h
    · exact hstep.favourable
    · exact hstep.favourable
  by_cases hsame : current = target
  · subst hsame
    have hprice : step.price = current := by
      have hleads := hstep.leads
      have hstays := hstep.stays
      cases hpaid : paidToward current current <;> rw [hpaid] at hleads hstays
      · exact le_antisymm hleads hstays
      · exact le_antisymm hstays hleads
    have hout := hstep.le_exactAmount
    rw [hprice, exactAmount_self] at hout
    refine ⟨?_, ?_, ?_, ?_⟩
    · rw [hprice]
      exact .refl _ _
    · rw [hprice]
      exact .refl _ _
    · rw [hprice, exactAmount_self]
      exact Nat.cast_nonneg _
    · rw [hprice, exactAmount_self]
      exact hout
  · exact paidToward_eq htoward hsame ▸ hstep

end RangeBook.RangeStep
