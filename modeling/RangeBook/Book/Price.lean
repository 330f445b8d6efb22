import RangeBook.Quotient
import RangeBook.Tick.SqrtPrice
import RangeBook.Token

/-!
# Trades at a fixed price

Resting orders trade at the price of their tick, a Q64.96 number of token one per token zero.
The conversions here are named for the token that the swap pays.
-/

set_option autoImplicit false
set_option relaxedAutoImplicit false

namespace RangeBook.Book

/-- The price whose square root is given, rounded down. -/
def priceOfSqrt (sqrtPrice : Nat) : Outcome Nat :=
  mulDivFloor sqrtPrice sqrtPrice q96

/-- The price at a tick. It is zero at the lowest ticks, where it falls below one unit. -/
def priceAt (tick : Int) : Outcome Nat := do
  let sqrtPrice ← sqrtPriceAt tick
  priceOfSqrt sqrtPrice

/-- What has to be paid for an amount bought, rounded up. -/
def costCeil (bought price : Nat) (paid : Token) : Outcome Nat :=
  match paid with
  | .zero => mulDivCeil bought q96 price
  | .one => mulDivCeil bought price q96

/-- What has to be paid for an amount bought, rounded down. -/
def costFloor (bought price : Nat) (paid : Token) : Outcome Nat :=
  match paid with
  | .zero => mulDivFloor bought q96 price
  | .one => mulDivFloor bought price q96

/-- What an amount paid buys, rounded down. -/
def boughtFloor (cost price : Nat) (paid : Token) : Outcome Nat :=
  match paid with
  | .zero => mulDivFloor cost price q96
  | .one => mulDivFloor cost q96 price

end RangeBook.Book
