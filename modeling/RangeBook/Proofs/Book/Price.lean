import Mathlib
import RangeBook.Book.Price
import RangeBook.Proofs.Failure
import RangeBook.Proofs.Tick.Floor

/-!
# Trades at the prices of ticks

The price of a tick has at most 224 bits (`priceAt_le`), so the cost of an amount of 128 bits always
fits (`costCeil_finishes`). Costs are rounded up and amounts bought are rounded down, and the two fit
together: what does not cover the cost of an amount buys less than that amount
(`exists_boughtFloor_lt`).
-/

set_option autoImplicit false
set_option relaxedAutoImplicit false

namespace RangeBook.Book

attribute [local irreducible] tickSqrtPrice tickAt

variable {allowed : Failure → Prop} {tick : ℤ} {price amount cost budget : ℕ} {paid : Token}

/-- The price of a tick has 224 bits. -/
theorem priceAt_le (h : priceAt tick = .ok price) : price ≤ twoPow 224 := by
  obtain ⟨sqrtPrice, hsqrtPrice, h⟩ := bind_eq_ok.mp h
  obtain ⟨⟨hmin, hmax⟩, rfl⟩ := sqrtPriceAt_eq_ok.mp hsqrtPrice
  obtain ⟨-, -, rfl⟩ := mulDivFloor_eq_ok.mp h
  have htop : tickSqrtPrice tick ≤ tickSqrtPrice maxTick :=
    (tickSqrtPrice_le_iff hmin hmax (by decide) le_rfl).mpr hmax
  rw [tickSqrtPrice_maxTick] at htop
  refine Nat.div_le_of_le_mul ?_
  calc tickSqrtPrice tick * tickSqrtPrice tick ≤ maxSqrtPrice * maxSqrtPrice :=
        Nat.mul_le_mul htop htop
    _ ≤ q96 * twoPow 224 := by decide

/-- At the prices of ticks the cost of 128 bits fits. -/
theorem costCeil_finishes (hpos : 0 < price) (hprice : price ≤ twoPow 224)
    (hamount : amount < twoPow 128) : FailsOnly allowed (costCeil amount price paid) := by
  have hfits : amount * twoPow 128 < twoPow 256 :=
    Nat.mul_lt_mul_of_pos_right hamount (twoPow_pos 128)
  cases paid with
  | zero =>
    refine .mulDivCeil_of_le hpos ?_ hfits
    calc amount * q96 ≤ amount * twoPow 128 := Nat.mul_le_mul_left amount (by decide)
      _ ≤ amount * twoPow 128 * price := Nat.le_mul_of_pos_right _ hpos
  | one =>
    refine .mulDivCeil_of_le (twoPow_pos 96) ?_ hfits
    calc amount * price ≤ amount * (twoPow 128 * q96) := Nat.mul_le_mul_left amount hprice
      _ = amount * twoPow 128 * q96 := (Nat.mul_assoc _ _ _).symm

/-- What does not cover the cost of an amount buys less than the amount. -/
theorem exists_boughtFloor_lt (hpos : 0 < price) (hamount : amount < twoPow 256)
    (hcost : costCeil amount price paid = .ok cost) (hlt : budget < cost) :
    ∃ bought, boughtFloor budget price paid = .ok bought ∧ bought < amount := by
  have hq : 0 < q96 := twoPow_pos 96
  cases paid with
  | zero =>
    obtain ⟨-, -, rfl⟩ := mulDivCeil_eq_ok.mp hcost
    have hless : budget * price / q96 < amount := by
      rw [Nat.div_lt_iff_lt_mul hq]
      exact not_le.mp (mt (divCeil_le_iff hpos).mpr (not_le.mpr hlt))
    exact ⟨_, mulDivFloor_eq_ok.mpr ⟨hq.ne', hless.trans hamount, rfl⟩, hless⟩
  | one =>
    obtain ⟨-, -, rfl⟩ := mulDivCeil_eq_ok.mp hcost
    have hless : budget * q96 / price < amount := by
      rw [Nat.div_lt_iff_lt_mul hpos]
      exact not_le.mp (mt (divCeil_le_iff hq).mpr (not_le.mpr hlt))
    exact ⟨_, mulDivFloor_eq_ok.mpr ⟨hpos.ne', hless.trans hamount, rfl⟩, hless⟩

end RangeBook.Book
