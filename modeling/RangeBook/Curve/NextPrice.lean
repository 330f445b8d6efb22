import RangeBook.Quotient
import RangeBook.Tick.SqrtPrice
import RangeBook.Token
import RangeBook.Width

/-!
# Prices after a trade

Where an amount of one token enters or leaves the liquidity at the current price, the price moves
along the curve. An amount `x` of token zero takes the square root of price `p` to
`L * p / (L ± x * p)`, and an amount `y` of token one takes it to `p ± y / L`. The results are
rounded so that the move never goes further than the amount pays for: up for token zero and down
for token one.
-/

set_option autoImplicit false
set_option relaxedAutoImplicit false

namespace RangeBook.Curve

/-- The price after an amount of token zero entered. Where the products leave 256 bits the
quotient is taken as `L / (L / p + x)`. -/
def priceAfterZeroIn (price liquidity amount : Nat) : Outcome Nat := do
  if amount = 0 then
    return price
  require (0 < liquidity) .zeroLiquidity
  let numerator := liquidity * q96
  if amount * price < twoPow 256 ∧ numerator + amount * price < twoPow 256 then
    mulDivCeil numerator price (numerator + amount * price)
  else
    let denominator ← uint256 (numerator / price + amount)
    return divCeil numerator denominator

/-- The price after an amount of token zero left. -/
def priceAfterZeroOut (price liquidity amount : Nat) : Outcome Nat := do
  if amount = 0 then
    return price
  require (0 < liquidity) .zeroLiquidity
  let numerator := liquidity * q96
  require (amount * price < twoPow 256) .priceOverflow
  require (amount * price < numerator) .priceOverflow
  let next ← mulDivCeil numerator price (numerator - amount * price)
  uint160 next

/-- The price after an amount of token one entered. Amounts of at most 160 bits can be shifted
within 256 bits, and others need the wide product. -/
def priceAfterOneIn (price liquidity amount : Nat) : Outcome Nat := do
  require (0 < liquidity) .zeroLiquidity
  let rise ←
    if amount < twoPow 160 then pure (amount * q96 / liquidity)
    else mulDivFloor amount q96 liquidity
  let next ← uint256 (price + rise)
  uint160 next

/-- The price after an amount of token one left. -/
def priceAfterOneOut (price liquidity amount : Nat) : Outcome Nat := do
  require (0 < liquidity) .zeroLiquidity
  let fall ←
    if amount < twoPow 160 then pure (divCeil (amount * q96) liquidity)
    else mulDivCeil amount q96 liquidity
  require (fall < price) .priceOverflow
  return price - fall

/-- The price after an amount of the given token entered. -/
def priceAfterInput (price liquidity amount : Nat) (paid : Token) : Outcome Nat := do
  require (price ≠ 0) .zeroSqrtPrice
  require (0 < liquidity) .zeroLiquidity
  match paid with
  | .zero => priceAfterZeroIn price liquidity amount
  | .one => priceAfterOneIn price liquidity amount

/-- The price after an amount left, where the given token is paid for it. -/
def priceAfterOutput (price liquidity amount : Nat) (paid : Token) : Outcome Nat := do
  require (price ≠ 0) .zeroSqrtPrice
  require (0 < liquidity) .zeroLiquidity
  match paid with
  | .zero => priceAfterOneOut price liquidity amount
  | .one => priceAfterZeroOut price liquidity amount

end RangeBook.Curve
