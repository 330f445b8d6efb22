import RangeBook.Curve.Amount
import RangeBook.Curve.NextPrice
import RangeBook.Fee

/-!
# Swapping along a range

A range step trades against constant liquidity between the current price and a target price. It
stops at the target, or before it where the amount that is left to swap is used up. The sign of
that amount says whether the swap fixes its input or its output. In a step of fixed input that
stops before its target all that is left over goes to the fee.
-/

set_option autoImplicit false
set_option relaxedAutoImplicit false

namespace RangeBook

/-- The price that a step reached and the amounts that it moved. -/
structure RangeStep where
  price : Nat
  amountIn : Nat
  amountOut : Nat
  fee : Nat
  deriving DecidableEq, Repr

namespace RangeStep

/-- The token that is paid to move the price towards the target. -/
def paidToward (current target : Nat) : Token :=
  if target ≤ current then .zero else .one

/-- The amount paid to move the price, rounded up. -/
def amountPaid (paid : Token) (current next liquidity : Nat) : Outcome Nat :=
  Curve.amount paid .up current next liquidity

/-- The amount bought as the price moves, rounded down. -/
def amountBought (paid : Token) (current next liquidity : Nat) : Outcome Nat :=
  Curve.amount paid.other .down current next liquidity

/-- A step that spends at most the given input, its fee included. -/
def exactInput (current target liquidity input fee : Nat) : Outcome RangeStep := do
  let paid := paidToward current target
  let budget ← lessFee input fee
  let toTarget ← amountPaid paid current target liquidity
  let price ←
    if toTarget ≤ budget then pure target
    else Curve.priceAfterInput current liquidity budget paid
  let amountIn ←
    if price = target then pure toTarget else amountPaid paid current price liquidity
  let amountOut ← amountBought paid current price liquidity
  let charged ←
    if price = target then feeOn amountIn fee else remainder input amountIn
  return ⟨price, amountIn, amountOut, charged⟩

/-- A step that buys at most the given output. -/
def exactOutput (current target liquidity output fee : Nat) : Outcome RangeStep := do
  let paid := paidToward current target
  let toTarget ← amountBought paid current target liquidity
  let price ←
    if toTarget ≤ output then pure target
    else Curve.priceAfterOutput current liquidity output paid
  let amountIn ← amountPaid paid current price liquidity
  let amountOut ←
    if price = target then pure toTarget else amountBought paid current price liquidity
  let charged ← feeOn amountIn fee
  return ⟨price, amountIn, min amountOut output, charged⟩

/-- The step towards a target price with the amount that is left to swap: an input where it is
not negative, an output where it is. -/
def compute (current target liquidity : Nat) (remaining : Int) (fee : Nat) : Outcome RangeStep := do
  require (fee < feeDenominator) .feeLimit
  if 0 ≤ remaining then
    exactInput current target liquidity remaining.natAbs fee
  else
    exactOutput current target liquidity remaining.natAbs fee

end RangeStep

end RangeBook
