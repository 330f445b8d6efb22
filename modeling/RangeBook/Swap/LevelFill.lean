import RangeBook.Book.Price
import RangeBook.Fee
import RangeBook.Share

/-!
# Swapping against resting orders

A fill trades against all the orders that rest at one tick, at the price of the tick. It uses the
level up where the amount that is left to swap covers it. Otherwise it takes a part, and the share
of the level that stays unfilled is rounded up, so that it never understates what the owners are
still owed. The amount bought is then lowered to what the new share says was taken.
-/

set_option autoImplicit false
set_option relaxedAutoImplicit false

namespace RangeBook

/-- The amounts that a fill moved, and the share left unfilled unless the level was used up. -/
structure LevelFill where
  amountIn : Nat
  amountOut : Nat
  fee : Nat
  unfilled? : Option Share
  deriving DecidableEq, Repr

namespace LevelFill

/-- Takes a part of what is available out of a share of it: the share left, and the amount that it
says was taken. -/
def takePart (available taken : Nat) (unfilled : Share) : Outcome (Share × Nat) := do
  let left ← difference available taken
  let next ← unfilled.scale left available
  let (_, leftCeil) ← Share.portion available next unfilled
  let amountOut ← difference available leftCeil
  return (next, amountOut)

/-- A fill that buys the whole level. -/
def whole (available cost fee : Nat) : Outcome LevelFill := do
  let charged ← feeOn cost fee
  return ⟨cost, available, charged, none⟩

/-- A fill that spends at most the given input, its fee included. A part of a level takes all of
the input. -/
def exactInput (price available : Nat) (unfilled : Share) (input fee : Nat) (paid : Token) :
    Outcome LevelFill := do
  let cost ← Book.costCeil available price paid
  let budget ← lessFee input fee
  if cost ≤ budget then
    whole available cost fee
  else
    let bought ← Book.boughtFloor budget price paid
    let (next, amountOut) ← takePart available bought unfilled
    return ⟨budget, amountOut, input - budget, some next⟩

/-- A fill that buys at most the given output. -/
def exactOutput (price available : Nat) (unfilled : Share) (output fee : Nat) (paid : Token) :
    Outcome LevelFill := do
  let cost ← Book.costCeil available price paid
  if available ≤ output then
    whole available cost fee
  else
    let (next, amountOut) ← takePart available output unfilled
    let amountIn ← Book.costCeil amountOut price paid
    let charged ← feeOn amountIn fee
    return ⟨amountIn, amountOut, charged, some next⟩

/-- The fill with the amount that is left to swap: an input where it is not negative, an output
where it is. -/
def compute (price available : Nat) (unfilled : Share) (remaining : Int) (fee : Nat)
    (paid : Token) : Outcome LevelFill := do
  require (fee < feeDenominator) .feeLimit
  if 0 ≤ remaining then
    exactInput price available unfilled remaining.natAbs fee paid
  else
    exactOutput price available unfilled remaining.natAbs fee paid

end LevelFill

end RangeBook
