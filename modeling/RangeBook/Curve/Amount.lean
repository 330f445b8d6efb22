import RangeBook.Quotient
import RangeBook.Tick.SqrtPrice
import RangeBook.Token
import RangeBook.Width

/-!
# Amounts between two prices

Liquidity `L` between the square roots of price `a ≤ b` holds `L * (1 / a - 1 / b)` of token zero
and `L * (b - a)` of token one. Amounts that a pool takes in are rounded up and amounts that it
gives out are rounded down, so that it never gives out more than it took in.
-/

set_option autoImplicit false
set_option relaxedAutoImplicit false

namespace RangeBook.Curve

/-- How a quotient becomes an integer. -/
inductive Rounding
  | down
  | up
  deriving DecidableEq, Repr

/-- The quotient of a product, rounded as asked. -/
def mulDiv (rounding : Rounding) (a b c : Nat) : Outcome Nat :=
  match rounding with
  | .down => mulDivFloor a b c
  | .up => mulDivCeil a b c

/-- A quotient, rounded as asked. -/
def quotient (rounding : Rounding) (dividend divisor : Nat) : Nat :=
  match rounding with
  | .down => dividend / divisor
  | .up => divCeil dividend divisor

/-- The amount of token zero that liquidity holds between two prices, given in either order. -/
def amountZero (rounding : Rounding) (priceA priceB liquidity : Nat) : Outcome Nat := do
  let low := min priceA priceB
  let high := max priceA priceB
  require (0 < low) .zeroSqrtPrice
  let scaled ← mulDiv rounding (liquidity * q96) (high - low) high
  return quotient rounding scaled low

/-- The amount of token one that liquidity holds between two prices, given in either order. -/
def amountOne (rounding : Rounding) (priceA priceB liquidity : Nat) : Outcome Nat :=
  mulDiv rounding liquidity (max priceA priceB - min priceA priceB) q96

/-- The amount of a token that liquidity holds between two prices, given in either order. -/
def amount (token : Token) (rounding : Rounding) (priceA priceB liquidity : Nat) : Outcome Nat :=
  match token with
  | .zero => amountZero rounding priceA priceB liquidity
  | .one => amountOne rounding priceA priceB liquidity

/-- The amount of a token that a change of liquidity between two prices brings to the pool. It is
negative, and rounded towards zero, where liquidity is taken away. -/
def amountDelta (token : Token) (priceA priceB : Nat) (delta : Int) : Outcome Int := do
  if delta < 0 then
    let given ← amount token .down priceA priceB delta.natAbs
    let owed ← int256 given
    return -owed
  else
    let taken ← amount token .up priceA priceB delta.natAbs
    int256 taken

end RangeBook.Curve
