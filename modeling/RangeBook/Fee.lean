import RangeBook.Quotient
import RangeBook.Tick.Bounds
import RangeBook.Width

/-!
# Fees

Fees are rates in millionths. The fee on an amount paid is charged on top of it, rounded up, so
that a rate `r` takes at least `r` millionths of the amount with its fee. A fee tier pairs a rate
with the tick spacing of the pools that charge it.
-/

set_option autoImplicit false
set_option relaxedAutoImplicit false

namespace RangeBook

/-- Fee rates count in this many parts. -/
def feeDenominator : Nat := 1000000

/-- The fee on top of an amount paid. -/
def feeOn (paid fee : Nat) : Outcome Nat :=
  mulDivCeil paid fee (feeDenominator - fee)

/-- What is left of an amount for a trade once room is made for its fee. -/
def lessFee (amount fee : Nat) : Outcome Nat :=
  mulDivFloor amount (feeDenominator - fee) feeDenominator

/-- A fee rate and the tick spacing of the pools that charge it. -/
structure FeeTier where
  fee : Nat
  tickSpacing : Nat
  deriving DecidableEq, Repr

namespace FeeTier

/-- Accepts a rate below the whole and a tick spacing within its bounds. -/
def create (fee tickSpacing : Nat) : Outcome FeeTier := do
  require (fee < feeDenominator) .feeLimit
  require (0 < tickSpacing ∧ tickSpacing < maxTickSpacing) .tickSpacingLimit
  return ⟨fee, tickSpacing⟩

/-- The tiers that are enabled from the start. -/
def initial : List FeeTier :=
  [⟨500, 10⟩, ⟨3000, 60⟩, ⟨10000, 200⟩]

theorem create_eq_ok {fee tickSpacing : Nat} {tier : FeeTier} :
    create fee tickSpacing = .ok tier ↔
      fee < feeDenominator ∧ (0 < tickSpacing ∧ tickSpacing < maxTickSpacing) ∧
        ⟨fee, tickSpacing⟩ = tier := by
  simp [create, bind_eq_ok, pure, Except.pure]

end FeeTier

end RangeBook
