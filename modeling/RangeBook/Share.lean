import RangeBook.Quotient
import RangeBook.Width

/-!
# Shares

A share is a binary fraction strictly between zero and one, `mantissa / 2 ^ 256 / 2 ^ exponent`,
whose mantissa has its top bit set. Resting orders keep the running product of the parts that
swaps left unfilled as a share. `scale` multiplies a share by a quotient of integers, rounding up,
and `portion` takes the ratio of two shares of an integer, exactly rounded both ways.
-/

set_option autoImplicit false
set_option relaxedAutoImplicit false

namespace RangeBook

/-- A binary fraction between zero and one, with the top bit of its mantissa set. -/
structure Share where
  mantissa : Nat
  exponent : Nat
  mantissa_ge : twoPow 255 ≤ mantissa
  mantissa_lt : mantissa < twoPow 256
  exponent_lt : exponent < twoPow 128
  deriving DecidableEq, Repr

namespace Share

@[ext] theorem ext_parts {left right : Share} (hmantissa : left.mantissa = right.mantissa)
    (hexponent : left.exponent = right.exponent) : left = right := by
  cases left
  cases right
  simp_all

/-- The share with the given mantissa and exponent, if they are in range. -/
def ofParts? (mantissa exponent : Nat) : Option Share :=
  if h : twoPow 255 ≤ mantissa ∧ mantissa < twoPow 256 ∧ exponent < twoPow 128 then
    some ⟨mantissa, exponent, h.1, h.2.1, h.2.2⟩
  else
    none

/-- The largest share, `1 - 2 ^ (-256)`: the share of an order that nothing was taken from. -/
def largest : Share where
  mantissa := twoPow 256 - 1
  exponent := 0
  mantissa_ge := by decide
  mantissa_lt := by decide
  exponent_lt := by decide

/-- The smallest share. -/
def smallest : Share where
  mantissa := twoPow 255
  exponent := twoPow 128 - 1
  mantissa_ge := by decide
  mantissa_lt := by decide
  exponent_lt := by decide

instance : Inhabited Share :=
  ⟨largest⟩

/-- Shares are normalised, so a larger exponent makes a smaller share, and equal exponents leave
the decision to the mantissa. -/
instance : Ord Share where
  compare left right :=
    (compare right.exponent left.exponent).then (compare left.mantissa right.mantissa)

instance : LE Share where
  le left right :=
    right.exponent < left.exponent ∨
      (left.exponent = right.exponent ∧ left.mantissa ≤ right.mantissa)

instance (left right : Share) : Decidable (left ≤ right) :=
  inferInstanceAs (Decidable (_ ∨ _))

/-- The number of binary digits of a positive integer. -/
def digits (value : Nat) : Nat :=
  value.log2 + 1

/-- Drops the lowest binary digits of a value, giving what is left and what was dropped. Values
have at most 512 digits, so larger shifts leave nothing. -/
def dropDigits (value shift : Nat) : Nat × Nat :=
  if 512 ≤ shift then (0, value) else (value / twoPow shift, value % twoPow shift)

/-- The 256 leading binary digits of a value that has at least as many, rounded up as far as 256
digits allow. -/
def leadingDigits (value : Nat) : Nat :=
  let (leading, dropped) := dropDigits value (digits value - 256)
  if dropped = 0 then leading else min (leading + 1) (twoPow 256 - 1)

/-- The product of a share and the quotient `numerator / denominator`, which has to lie in
`(0, 1]`, with the mantissa rounded up. Where the exponent leaves its range the result is the
smallest share. -/
def scale (share : Share) (numerator denominator : Nat) : Outcome Share := do
  require (0 < numerator ∧ numerator ≤ denominator) .fractionOutOfRange
  let product := share.mantissa * numerator
  let raised := product * twoPow (512 - digits product)
  let ratio := divCeil raised denominator
  let mantissa := leadingDigits ratio
  let lost := 768 - digits ratio
  require (digits product ≤ lost) .fractionOutOfRange
  let exponent := share.exponent + (lost - digits product)
  if exponent < twoPow 128 then
    orReject .quotientOverflow (ofParts? mantissa exponent)
  else
    return smallest

/-- The part `numerator / denominator` of an amount, rounded down and rounded up. -/
def portion (amount : Nat) (numerator denominator : Share) : Outcome (Nat × Nat) := do
  require (numerator ≤ denominator) .fractionOutOfRange
  let product := amount * numerator.mantissa
  let ratio := product / denominator.mantissa
  let (floor, dropped) := dropDigits ratio (numerator.exponent - denominator.exponent)
  let floor ← orReject .quotientOverflow (fit256? floor)
  if product % denominator.mantissa = 0 ∧ dropped = 0 then
    return (floor, floor)
  else
    let ceiling ← uint256 (floor + 1)
    return (floor, ceiling)

end Share

end RangeBook
