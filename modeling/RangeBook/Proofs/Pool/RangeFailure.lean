import Mathlib
import RangeBook.Proofs.Curve.Room
import RangeBook.Proofs.Pool.Failure
import RangeBook.Proofs.Pool.RangeSolvency

/-!
# How changes of liquidity fail

A change of liquidity goes through checks of its range, its two boundary ticks, the position and the
amounts at the present price. It fails where one of these does (`adjustPosition_failsOnly`), and the
boundary ticks are looked at as the pool has them, although the second is written after the first.

The fees of a position can always be worked out, and the amounts always fit as long as the
liquidity does (`adjust_failsOnly`, `rangeAmounts_finishes`). What is left to look at are the ticks
and the liquidity.
-/

set_option autoImplicit false
set_option relaxedAutoImplicit false

namespace RangeBook

attribute [local irreducible] tickSqrtPrice tickAt

variable {allowed : Failure → Prop} {delta : ℤ}

/-! ### Boundary ticks -/

/-- A tick that is in the table, or enters it with the change, is adjusted as `find` gives it. -/
theorem TickTable.adjust_eq {table : TickTable} {tick : ℤ} (current : ℤ)
    (growth : TokenPair Growth) (rangeEnd : RangeEnd) (cap : ℕ)
    (h : (table.get? tick).isSome ∨ 0 < delta) :
    table.adjust tick current delta growth rangeEnd cap = (do
      let (flipped, after) ←
        (BoundaryTick.adjust tick current delta growth rangeEnd cap).outcome (table.find tick)
      return (flipped, table.insert tick after)) := by
  unfold adjust find
  cases hget : table.get? tick with
  | some boundary => rfl
  | none =>
    have hpos : 0 < delta := h.resolve_left (by simp [hget])
    rw [require, if_pos hpos]
    rfl

namespace Pool

variable {pool : Pool} {key : PositionKey} {position : Position}

theorem adjustBoundary_failsOnly {tick : ℤ} {rangeEnd : RangeEnd}
    (hstored : delta ≠ 0 → (pool.ticks.get? tick).isSome ∨ 0 < delta)
    (hadjust : delta ≠ 0 → (BoundaryTick.adjust tick pool.tick delta pool.growth rangeEnd
      pool.liquidityCap).FailsOnly allowed (pool.ticks.find tick)) :
    (adjustBoundary tick delta rangeEnd).FailsOnly allowed pool := by
  unfold adjustBoundary
  split
  · exact .pure false
  rename_i hdelta
  refine .get_bind (.bind (.lift ?_) fun _ _ _ ↦ set_pure_failsOnly _ _)
  rw [TickTable.adjust_eq _ _ _ _ (hstored hdelta)]
  exact .bind (hadjust hdelta).outcome fun _ _ ↦ .pure _

/-! ### Whole changes -/

/-- Writing the boundary ticks fails where one of them, as the pool has it, cannot be adjusted. What
is worked out from them afterwards fails as the position and the amounts do. -/
theorem stageChange_failsOnly (horder : key.lower < key.upper)
    (hstored : delta ≠ 0 → ∀ rangeEnd,
      (pool.ticks.get? (key.tickAt rangeEnd)).isSome ∨ 0 < delta)
    (hadjust : delta ≠ 0 → ∀ rangeEnd,
      (BoundaryTick.adjust (key.tickAt rangeEnd) pool.tick delta pool.growth rangeEnd
        pool.liquidityCap).FailsOnly allowed (pool.ticks.find (key.tickAt rangeEnd)))
    (hposition : ∀ inside, FailsOnly allowed ((pool.position key).adjust delta inside))
    (hamounts : FailsOnly allowed (pool.rangeAmounts key.lower key.upper delta)) :
    (stageChange key delta).FailsOnly allowed pool := by
  unfold stageChange
  refine .bind (adjustBoundary_failsOnly (fun hdelta ↦ hstored hdelta .lower)
    fun hdelta ↦ hadjust hdelta .lower) fun lowerFlipped between hlower ↦ ?_
  have hupper : (adjustBoundary key.upper delta .upper).FailsOnly allowed between := by
    by_cases hdelta : delta = 0
    · rw [hdelta, adjustBoundary_zero]
      exact .pure false
    obtain ⟨written, rfl, -⟩ := adjusted_of_adjustBoundary hdelta hlower
    have hget : OrderedMap.get? (pool.ticks.insert key.lower written) key.upper =
        pool.ticks.get? key.upper := OrderedMap.get?_insert_of_ne _ _ horder.ne'
    refine adjustBoundary_failsOnly (fun hdelta ↦ ?_) fun hdelta ↦ ?_
    · change (OrderedMap.get? (pool.ticks.insert key.lower written) key.upper).isSome ∨ _
      rw [hget]
      exact hstored hdelta .upper
    · change Action.FailsOnly _ _ (TickTable.find (pool.ticks.insert key.lower written) key.upper)
      rw [TickTable.find, hget]
      exact hadjust hdelta .upper
  refine .bind hupper fun upperFlipped staged hstaged ↦ ?_
  obtain ⟨ticks, rfl, -⟩ := staged_of_adjustBoundary horder hlower hstaged
  exact .get_bind (.bind (.lift (hposition _)) fun _ _ _ ↦ .bind (.lift hamounts) fun _ _ _ ↦ .pure _)

/-- A change fails where its range does not fit, or where it cannot be staged. -/
theorem adjustPosition_failsOnly (hrange : FailsOnly allowed (checkRange key.lower key.upper))
    (hticks : ∀ rangeEnd, FailsOnly allowed (checkTick (key.tickAt rangeEnd) pool.tickSpacing))
    (hstage : key.FitsPool pool.tickSpacing → (stageChange key delta).FailsOnly allowed pool) :
    (adjustPosition key delta).FailsOnly allowed pool := by
  unfold adjustPosition
  refine .bind (.lift hrange) fun _ _ hchecked ↦ ?_
  obtain ⟨hrangeOk, rfl⟩ := Action.lift_eq_ok.mp hchecked
  refine .get_bind (.bind (.lift (hticks .lower)) fun _ _ hchecked ↦ ?_)
  obtain ⟨hlowerOk, rfl⟩ := Action.lift_eq_ok.mp hchecked
  refine .bind (.lift (hticks .upper)) fun _ _ hchecked ↦ ?_
  obtain ⟨hupperOk, rfl⟩ := Action.lift_eq_ok.mp hchecked
  obtain ⟨horder, hmin, hmax⟩ := checkRange_eq_ok.mp hrangeOk
  have hfits : key.FitsPool pool.tickSpacing := by
    refine ⟨horder, hmin, hmax, fun rangeEnd ↦ ?_⟩
    cases rangeEnd
    · exact (checkTick_eq_ok.mp hlowerOk).2.2.2
    · exact (checkTick_eq_ok.mp hupperOk).2.2.2
  exact .bind (hstage hfits).mendingWith fun _ _ _ ↦ .modify_bind (.pure _)

theorem checkRange_finishes (hfits : key.FitsPool pool.tickSpacing) :
    FailsOnly allowed (checkRange key.lower key.upper) := by
  have hchecked : checkRange key.lower key.upper = .ok () :=
    checkRange_eq_ok.mpr ⟨hfits.lower_lt_upper, hfits.minTick_le, hfits.le_maxTick⟩
  exact .of_eq_ok hchecked

theorem checkTick_finishes (hfits : key.FitsPool pool.tickSpacing) (hspacing : 0 < pool.tickSpacing)
    (rangeEnd : RangeEnd) :
    FailsOnly allowed (checkTick (key.tickAt rangeEnd) pool.tickSpacing) := by
  have horder := hfits.lower_lt_upper
  have hmin := hfits.minTick_le
  have hmax := hfits.le_maxTick
  have hbounds : minTick ≤ key.tickAt rangeEnd ∧ key.tickAt rangeEnd ≤ maxTick := by
    cases rangeEnd
    · exact ⟨hmin, by change key.lower ≤ _; omega⟩
    · exact ⟨by change _ ≤ key.upper; omega, hmax⟩
  have hchecked : checkTick (key.tickAt rangeEnd) pool.tickSpacing = .ok () :=
    checkTick_eq_ok.mpr ⟨hbounds.1, hbounds.2, hspacing, hfits.spacing_dvd rangeEnd⟩
  exact .of_eq_ok hchecked

/-! ### Positions -/

/-- The fees that a position earned can always be worked out. -/
theorem feesEarned_finishes (now last : Growth) {liquidity : ℕ} (h : liquidity ≤ twoPow 128) :
    FailsOnly allowed (Position.feesEarned now last liquidity) :=
  .bind (.mulDivFloor_of_le (twoPow_pos 128) (Nat.mul_le_mul_left _ h)
    (BitVec.isLt (now - last))) fun _ _ ↦ .pure _

/-- A position is adjusted unless its liquidity cannot be changed. -/
theorem adjust_failsOnly (hliquidity : FailsOnly allowed (position.liquidityAfter delta))
    (hfit : position.liquidity ≤ twoPow 128) (inside : TokenPair Growth) :
    FailsOnly allowed (position.adjust delta inside) :=
  .bind hliquidity fun _ _ ↦ .bind (feesEarned_finishes _ _ hfit) fun _ _ ↦
    .bind (feesEarned_finishes _ _ hfit) fun _ _ ↦ .pure _

/-! ### Amounts -/

/-- The amount that a change of liquidity brings between two prices of at most 160 bits fits. -/
theorem amountDelta_finishes {token : Token} {priceA priceB : ℕ} (hpos : 0 < min priceA priceB)
    (hlt : max priceA priceB < twoPow 160) (hsmall : delta.natAbs < twoPow 128) :
    FailsOnly allowed (Curve.amountDelta token priceA priceB delta) := by
  have hwidth : ∀ {rounding : Curve.Rounding} {amount : ℕ},
      Curve.amount token rounding priceA priceB delta.natAbs = .ok amount →
        amount < twoPow 255 := by
    intro rounding amount hamount
    calc amount ≤ delta.natAbs * q96 := Curve.amount_le_of_lt hlt hamount
      _ ≤ twoPow 128 * q96 := Nat.mul_le_mul_right _ hsmall.le
      _ < twoPow 255 := by decide
  refine .ite (fun _ ↦ ?_) fun _ ↦ ?_
  · refine .bind (Curve.amount_finishes_of_lt .down hpos hlt hsmall) fun given hgiven ↦ ?_
    have hgivenWidth := hwidth hgiven
    exact .bind (.within (absurd (by omega))) fun _ _ ↦ .pure _
  · refine .bind (Curve.amount_finishes_of_lt .up hpos hlt hsmall) fun taken htaken ↦ ?_
    have htakenWidth := hwidth htaken
    exact .within (absurd (by omega))

/-- The amounts that a change of the liquidity of a range brings fit, where the liquidity around the
tick does. -/
theorem rangeAmounts_finishes (hfits : key.FitsPool pool.tickSpacing)
    (hstands : StandsAt pool.tick pool.sqrtPrice) (hmaxPrice : pool.sqrtPrice < maxSqrtPrice)
    (hsmall : delta.natAbs < twoPow 128)
    (hinside : key.lower ≤ pool.tick → pool.tick < key.upper →
      0 ≤ (pool.liquidity : ℤ) + delta ∧ (pool.liquidity : ℤ) + delta < twoPow 128) :
    FailsOnly allowed (pool.rangeAmounts key.lower key.upper delta) := by
  have hmin := hfits.minTick_le
  have hmax := hfits.le_maxTick
  have horder := hfits.lower_lt_upper
  obtain ⟨hlowPos, hle⟩ := sqrtPrice_ends horder hmin hmax
  have hwide : maxSqrtPrice < twoPow 160 := by decide
  have hhigh : tickSqrtPrice key.upper < twoPow 160 := by
    have htop : tickSqrtPrice key.upper ≤ tickSqrtPrice maxTick :=
      (tickSqrtPrice_le_iff (by omega) hmax (by decide) le_rfl).mpr hmax
    rw [tickSqrtPrice_maxTick] at htop
    exact lt_of_le_of_lt htop hwide
  have hprice := lt_trans hmaxPrice hwide
  have hpricePos := hstands.price_pos
  have hhighPos := lt_of_lt_of_le hlowPos hle
  have hlow := lt_of_le_of_lt hle hhigh
  have hwhole : ∀ token, FailsOnly allowed
      (Curve.amountDelta token (tickSqrtPrice key.lower) (tickSqrtPrice key.upper) delta) :=
    fun _ ↦ amountDelta_finishes (lt_min hlowPos hhighPos) (max_lt hlow hhigh) hsmall
  refine .ite (fun _ ↦ .pure _) fun _ ↦ .ite (fun _ ↦ .bind (hwhole .zero) fun _ _ ↦ .pure _)
    fun hbelow ↦ .ite (fun habove ↦ ?_) fun _ ↦ .bind (hwhole .one) fun _ _ ↦ .pure _
  obtain ⟨hnonneg, hfit⟩ := hinside (not_lt.mp hbelow) habove
  refine .bind (amountDelta_finishes (lt_min hpricePos hhighPos) (max_lt hprice hhigh) hsmall)
    fun _ _ ↦ .bind (amountDelta_finishes (lt_min hlowPos hpricePos) (max_lt hlow hprice) hsmall)
    fun _ _ ↦ ?_
  obtain ⟨sum, hsum⟩ := Int.eq_ofNat_of_zero_le hnonneg
  have hadded : addDelta pool.liquidity delta = .ok sum :=
    addDelta_eq_ok.mpr ⟨hsum.symm, by omega⟩
  exact .bind (.of_eq_ok hadded) fun _ _ ↦ .pure _

end Pool

end RangeBook
