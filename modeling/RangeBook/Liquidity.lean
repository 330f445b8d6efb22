import RangeBook.Width

/-!
# Changes of liquidity

Liquidity is an unsigned amount of at most 128 bits that is changed by signed amounts. A change
below zero and a change above the range are told apart by their causes.
-/

set_option autoImplicit false
set_option relaxedAutoImplicit false

namespace RangeBook

/-- Adds a signed change to liquidity. -/
def addDelta (liquidity : Nat) (delta : Int) : Outcome Nat :=
  if (liquidity : Int) + delta < 0 then reject .liquidityUnderflow
  else if twoPow 128 ≤ (liquidity : Int) + delta then reject .liquidityOverflow
  else .ok ((liquidity : Int) + delta).toNat

/-- A change finishes exactly when the exact sum is an amount of at most 128 bits. -/
theorem addDelta_eq_ok {liquidity result : Nat} {delta : Int} :
    addDelta liquidity delta = .ok result ↔
      (result : Int) = liquidity + delta ∧ result < twoPow 128 := by
  unfold addDelta
  split
  · simp only [reject, reduceCtorEq, false_iff]
    omega
  · split
    · simp only [reject, reduceCtorEq, false_iff]
      omega
    · simp only [Except.ok.injEq]
      omega

end RangeBook
