import RangeBook.Bits

/-!
# Ticks

A tick is an integer that stands for the price `1.0001 ^ tick`. Ticks lie between `minTick` and
`maxTick`, and a pool uses those that are multiples of its tick spacing. The liquidity that may
rest at one tick is capped so that all ticks together stay within 128 bits.
-/

set_option autoImplicit false
set_option relaxedAutoImplicit false

namespace RangeBook

/-- The lowest tick. -/
def minTick : Int := -887272

/-- The highest tick. -/
def maxTick : Int := 887272

/-- A tick spacing has to stay below this one. -/
def maxTickSpacing : Nat := 16384

/-- Accepts a tick that lies within the bounds and on the spacing. -/
def checkTick (tick : Int) (spacing : Nat) : Outcome Unit := do
  require (minTick ≤ tick) .tickBelowMinimum
  require (tick ≤ maxTick) .tickAboveMaximum
  require (0 < spacing) .tickSpacingLimit
  require ((spacing : Int) ∣ tick) .tickOffSpacing

/-- Accepts two ticks that enclose a range within the bounds. -/
def checkRange (lower upper : Int) : Outcome Unit := do
  require (lower < upper) .ticksOutOfOrder
  require (minTick ≤ lower) .tickBelowMinimum
  require (upper ≤ maxTick) .tickAboveMaximum

/-- The multiple of the spacing that lies nearest to a tick on the side of zero. -/
def alignTick (tick spacing : Int) : Int :=
  tick.tdiv spacing * spacing

/-- The number of usable ticks above the lowest. For a negative spacing this is negative. -/
def tickSteps (spacing : Int) : Int :=
  (alignTick maxTick spacing - alignTick minTick spacing).tdiv spacing

/-- The most liquidity that may rest at one tick: an equal share of the 128-bit range for each
usable tick. The count of ticks is taken modulo `2 ^ 128`, and there is none for the spacing
zero. -/
def maxLiquidityPerTick (spacing : Int) : Outcome Nat :=
  if spacing = 0 then abort
  else .ok ((twoPow 128 - 1) / ((tickSteps spacing % twoPow 128).toNat + 1))

theorem checkTick_eq_ok {tick : Int} {spacing : Nat} {u : Unit} :
    checkTick tick spacing = .ok u ↔
      minTick ≤ tick ∧ tick ≤ maxTick ∧ 0 < spacing ∧ (spacing : Int) ∣ tick := by
  simp [checkTick, bind_eq_ok]

theorem checkRange_eq_ok {lower upper : Int} {u : Unit} :
    checkRange lower upper = .ok u ↔ lower < upper ∧ minTick ≤ lower ∧ upper ≤ maxTick := by
  simp [checkRange, bind_eq_ok]

end RangeBook
