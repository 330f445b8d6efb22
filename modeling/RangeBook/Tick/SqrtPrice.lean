import RangeBook.Bits
import RangeBook.Quotient
import RangeBook.Tick.Bounds

/-!
# Ticks and square roots of prices

The square root of the price at a tick is `1.0001 ^ (tick / 2)`, kept as a Q64.96 number. It is
computed from the binary digits of the tick with one factor per digit, in Q128.128. The way back
takes a binary logarithm of 14 fractional digits, changes its base, and decides between the two
ticks that the error of the logarithm leaves by computing a price.
-/

set_option autoImplicit false
set_option relaxedAutoImplicit false

namespace RangeBook

/-- One in Q64.96. -/
def q96 : Nat := twoPow 96

/-- The square root of the price at the lowest tick. -/
def minSqrtPrice : Nat := 4295128739

/-- The square root of the price at the highest tick. A pool never reaches it. -/
def maxSqrtPrice : Nat := 1461446703485210103287273052203988822378723970342

/-! ### From a tick to its price -/

/-- `2 ^ 128 / 1.0001 ^ (2 ^ i / 2)`, for the binary digits `i` of a tick, the lowest first. -/
def decayFactors : List Nat :=
  [0xfffcb933bd6fad37aa2d162d1a594001,
   0xfff97272373d413259a46990580e213a,
   0xfff2e50f5f656932ef12357cf3c7fdcc,
   0xffe5caca7e10e4e61c3624eaa0941cd0,
   0xffcb9843d60f6159c9db58835c926644,
   0xff973b41fa98c081472e6896dfb254c0,
   0xff2ea16466c96a3843ec78b326b52861,
   0xfe5dee046a99a2a811c461f1969c3053,
   0xfcbe86c7900a88aedcffc83b479aa3a4,
   0xf987a7253ac413176f2b074cf7815e54,
   0xf3392b0822b70005940c7a398e4b70f3,
   0xe7159475a2c29b7443b29c7fa6e889d9,
   0xd097f3bdfd2022b8845ad8f792aa5825,
   0xa9f746462d870fdf8a65dc1f90e061e5,
   0x70d869a156d2a1b890bb3df62baf32f7,
   0x31be135f97d08fd981231505542fcfa6,
   0x9aa508b5b7a84e1c677de54f3e99bc9,
   0x5d6af8dedb81196699c329225ee604,
   0x2216e584f5fa1ea926041bedfe98,
   0x48a170391f7dc42444e8fa2]

/-- Multiplies a Q128.128 ratio by the factor of each binary digit that is set. -/
def decay : List Nat → Nat → Nat → Nat
  | [], _, ratio => ratio
  | factor :: factors, digits, ratio =>
    decay factors (digits / 2) (if digits % 2 = 1 then ratio * factor / twoPow 128 else ratio)

/-- `1.0001 ^ (tick / 2)` in Q128.128. A positive tick takes the inverse of the negative one. -/
def tickRatio (tick : Int) : Nat :=
  let ratio := decay decayFactors tick.natAbs (twoPow 128)
  if 0 < tick then (twoPow 256 - 1) / ratio else ratio

/-- The square root of the price at a tick in Q64.96, rounded up. -/
def tickSqrtPrice (tick : Int) : Nat :=
  divCeil (tickRatio tick) (twoPow 32)

/-- The square root of the price at a tick, for ticks within the bounds. -/
def sqrtPriceAt (tick : Int) : Outcome Nat := do
  require (minTick ≤ tick ∧ tick ≤ maxTick) .tickOutOfRange
  return tickSqrtPrice tick

theorem sqrtPriceAt_eq_ok {tick : Int} {price : Nat} :
    sqrtPriceAt tick = .ok price ↔
      (minTick ≤ tick ∧ tick ≤ maxTick) ∧ tickSqrtPrice tick = price := by
  simp [sqrtPriceAt, bind_eq_ok, pure, Except.pure]

/-! ### From a price to its tick -/

/-- One round of the logarithm: squares a number from `[1, 2)`, in Q1.127, and gives the binary
digit that says whether the square reached two, with the square brought back below two. -/
def logRound (mantissa : Nat) : Nat × Nat :=
  let square := mantissa * mantissa / twoPow 127
  let digit := square / twoPow 128
  (digit, square / twoPow digit)

/-- The first binary digits of the logarithm of a number from `[1, 2)`, read as an integer. -/
def logDigits : Nat → Nat → Nat
  | 0, _ => 0
  | rounds + 1, mantissa =>
    (logRound mantissa).1 * twoPow rounds + logDigits rounds (logRound mantissa).2

/-- Brings the highest set bit of a ratio, which is given, to the place of `2 ^ 127`. -/
def logMantissa (ratio top : Nat) : Nat :=
  if 128 ≤ top then ratio / twoPow (top - 127) else ratio * twoPow (127 - top)

/-- The binary logarithm of a Q128.128 ratio with 14 fractional digits, as a Q.64 number. -/
def logTwo (ratio : Nat) : Int :=
  ((topBit ratio : Int) - 128) * twoPow 64 +
    ((logDigits 14 (logMantissa ratio (topBit ratio)) * twoPow 50 : Nat) : Int)

/-- The logarithm to the base `√1.0001` as a Q.128 number. -/
def logTick (ratio : Nat) : Int :=
  logTwo ratio * 255738958999603826347141

/-- The greatest tick whose price does not exceed the given one. The truncated logarithm is low
by less than one tick, so at most two ticks are left to choose from. -/
def tickAt (price : Nat) : Outcome Int := do
  require (minSqrtPrice ≤ price ∧ price < maxSqrtPrice) .priceOutOfRange
  let log := logTick (price * twoPow 32)
  let low := (log - 3402992956809132418596140100660247210) / twoPow 128
  let high := (log + 291339464771989622907027621153398088495) / twoPow 128
  if low = high then
    return low
  else
    let priceAbove ← sqrtPriceAt high
    return if priceAbove ≤ price then high else low

end RangeBook
