import Mathlib
import RangeBook.Proofs.Swap.Course

/-!
# The fees along ranges and the part of the protocol

Each step along a range charges a fee, and the protocol is due one part in so many of it, rounded
down. Fills of orders leave nothing to the protocol. What a swap sets aside is summed up share by
share, each of which is cut to 128 bits first (`protocolFees_of_course`). That is what is due where
every share fits (`SharesFit.sharesKept_eq`).

A fee is part of what is paid, so every share fits where a swap is paid less than the denominator
times `2 ^ 128` (`sharesFit_of_brought_lt`).
-/

set_option autoImplicit false
set_option relaxedAutoImplicit false

namespace RangeBook

attribute [local irreducible] tickSqrtPrice tickAt

/-- The fee of a step along a range. -/
def SwapStep.rangeFee? : SwapStep → Option ℕ
  | .moved move => some move.step.fee
  | .usedUp _ _ => none
  | .filledInPart _ _ _ => none

/-- The fees of the steps along ranges, in their order. -/
def rangeFees (steps : List SwapStep) : List ℕ :=
  steps.filterMap SwapStep.rangeFee?

theorem rangeFees_append (steps steps' : List SwapStep) :
    rangeFees (steps ++ steps') = rangeFees steps ++ rangeFees steps' :=
  List.filterMap_append

theorem rangeFees_cons (step : SwapStep) (steps : List SwapStep) :
    rangeFees (step :: steps) = rangeFees [step] ++ rangeFees steps :=
  rangeFees_append [step] steps

/-! ### Sums of shares -/

section

variable (denominator : ℕ) (fees fees' : List ℕ)

/-- What is due to a protocol that takes one part in so many of each fee. -/
def sharesDue : ℕ :=
  (fees.map (· / denominator)).sum

/-- What is set aside for it: each share is cut to 128 bits. -/
def sharesKept : ℕ :=
  (fees.map fun fee ↦ wrap128 (fee / denominator)).sum

/-- Whether each share has 128 bits. -/
def SharesFit : Prop :=
  ∀ fee ∈ fees, fee / denominator < twoPow 128

instance : Decidable (SharesFit denominator fees) :=
  inferInstanceAs (Decidable (∀ fee ∈ fees, _))

theorem sharesKept_append :
    sharesKept denominator (fees ++ fees') =
      sharesKept denominator fees + sharesKept denominator fees' := by
  simp [sharesKept]

/-- A protocol that takes no part is due nothing. -/
theorem sharesKept_zero : sharesKept 0 fees = 0 := by
  simp [sharesKept, wrap128]

variable {denominator fees}

/-- Nothing is lost where each share fits. -/
theorem SharesFit.sharesKept_eq (h : SharesFit denominator fees) :
    sharesKept denominator fees = sharesDue denominator fees :=
  congrArg List.sum (List.map_congr_left fun fee hfee ↦ Nat.mod_eq_of_lt (h fee hfee))

end

namespace SwapState

variable {pool : Pool} {request : SwapRequest} {state next : SwapState} {step : SwapStep}
  {steps : List SwapStep}

/-- A protocol that takes no part of the fees is one with a denominator of zero. -/
theorem protocolShare_eq (pool : Pool) (request : SwapRequest) (fee : ℕ) :
    protocolShare pool request fee = fee / pool.protocolPart.get request.paid := by
  unfold protocolShare
  split
  · rename_i hnone
    rw [hnone, Nat.div_zero]
  · rfl

/-- What a step sets aside is the share of its fee along a range. -/
theorem Advanced.protocolFees_eq (h : Advanced pool request state step next) :
    next.protocolFees = state.protocolFees +
      sharesKept (pool.protocolPart.get request.paid) (rangeFees [step]) := by
  cases h with
  | moved _ hmoved =>
    rw [hmoved.protocolFees_eq, hmoved.protocolShare_eq, protocolShare_eq]
    rfl
  | usedUp _ hfilled =>
    rw [hfilled.state_eq]
    rfl
  | filledInPart _ hfilled =>
    rw [hfilled.state_eq]
    rfl

/-- What a swap has set aside are the shares of the fees of its steps along ranges. -/
theorem protocolFees_of_course (hcourse : Course pool request steps state) :
    state.protocolFees = sharesKept (pool.protocolPart.get request.paid) (rangeFees steps) := by
  induction hcourse with
  | start => rfl
  | advanced _ _ _ hadvanced ih =>
    rw [hadvanced.protocolFees_eq, rangeFees_append, sharesKept_append, ih]

/-- A step adds to what a swap has brought of the token paid, a fee along a range included. -/
theorem Advanced.brought_paid (h : Advanced pool request state step next) :
    ∃ amountIn fee : ℕ, (next.brought request).get request.paid =
      (state.brought request).get request.paid + (amountIn + fee) ∧
        ∀ charged ∈ rangeFees [step], charged = fee := by
  cases h with
  | @moved _ move _ _ hmoved =>
    refine ⟨move.step.amountIn, move.step.fee, ?_, by simp [rangeFees, SwapStep.rangeFee?]⟩
    rw [hmoved.brought_eq, TokenPair.get_paired_self]
  | @usedUp _ _ fill _ _ hfilled =>
    refine ⟨fill.amountIn, fill.fee, ?_, by simp [rangeFees, SwapStep.rangeFee?]⟩
    rw [hfilled.brought_eq, TokenPair.get_paired_self]
  | @filledInPart _ _ fill _ _ _ hfilled =>
    refine ⟨fill.amountIn, fill.fee, ?_, by simp [rangeFees, SwapStep.rangeFee?]⟩
    rw [hfilled.brought_eq, TokenPair.get_paired_self]

/-- Every fee is part of what a swap has brought of the token paid. -/
theorem rangeFee_le_brought (hcourse : Course pool request steps state) :
    0 ≤ (state.brought request).get request.paid ∧
      ∀ fee ∈ rangeFees steps, (fee : ℤ) ≤ (state.brought request).get request.paid := by
  induction hcourse with
  | start => exact ⟨(brought_start pool request request.paid).ge, by simp [rangeFees]⟩
  | advanced _ _ _ hadvanced ih =>
    obtain ⟨hpaid, hfees⟩ := ih
    obtain ⟨amountIn, fee, hbrought, hcharged⟩ := hadvanced.brought_paid
    constructor
    · omega
    · intro charged hmem
      rw [rangeFees_append, List.mem_append] at hmem
      rcases hmem with hmem | hmem
      · have hle := hfees charged hmem
        omega
      · have heq := hcharged charged hmem
        omega

/-- Every share fits where a swap brings less of the token paid than the denominator times
`2 ^ 128`. -/
theorem sharesFit_of_brought_lt (hcourse : Course pool request steps state) {denominator : ℕ}
    (hlt : (state.brought request).get request.paid < denominator * twoPow 128) :
    SharesFit denominator (rangeFees steps) := by
  intro fee hmem
  have hle := (rangeFee_le_brought hcourse).2 fee hmem
  refine Nat.div_lt_of_lt_mul ?_
  exact_mod_cast hle.trans_lt hlt

end SwapState

end RangeBook
