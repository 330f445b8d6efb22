import Mathlib
import RangeBook.Proofs.Pool.SwapFinishes
import RangeBook.Proofs.Pool.Withdrawal
import RangeBook.Proofs.Swap.Failure

/-!
# The cap of a tick rules out overflow

Liquidity is added and taken off in many places that check its width: at both boundary ticks of a
range, in the position, around the price, and where a swap crosses a tick. The cap on what may rest
at one tick leaves only itself to be checked. An addition fails by the cap exactly where one of its
ends would hold more, and finishes otherwise (`Reachable.addLiquidity_failsOnly`). A swap crosses
every tick that it comes to (`Reachable.advance_failsOnly`).
-/

set_option autoImplicit false
set_option relaxedAutoImplicit false

namespace RangeBook

attribute [local irreducible] tickSqrtPrice tickAt

/-- Whether an operation fails because liquidity, or a change of it, leaves its range. -/
def Failure.IsLiquidityOverflow (failure : Failure) : Prop :=
  failure = .rejected .liquidityUnderflow ∨ failure = .rejected .liquidityOverflow ∨
    failure = .rejected .int128Range

instance : DecidablePred Failure.IsLiquidityOverflow := fun _ ↦
  inferInstanceAs (Decidable (_ ∨ _ ∨ _))

namespace Pool

open SwapState

variable {pool after : Pool} {key : PositionKey} {amount : ℕ} {allowed : Failure → Prop}
  {request : SwapRequest} {steps : List SwapStep} {state : SwapState}

/-! ### Additions -/

/-- A boundary tick can be added to unless it would hold more than the cap. -/
theorem Bookkept.adjust_failsOnly (h : pool.Bookkept) (hcaps : pool.WithinCaps)
    (hamount : amount < twoPow 127) (tick : ℤ) (rangeEnd : RangeEnd)
    (hcap : pool.liquidityCap < pool.positions.grossAt tick + amount →
      allowed (.rejected .liquidityCap)) :
    (BoundaryTick.adjust tick pool.tick amount pool.growth rangeEnd pool.liquidityCap).FailsOnly
      allowed (pool.ticks.find tick) := by
  obtain ⟨hgross, hnet⟩ := h.find_eq tick
  have hcapLt := (cap_spec hcaps.spacing_pos hcaps.spacing_lt hcaps.cap_eq).2
  have hgrossLe := h.grossAt_le hcaps tick
  have hnetLe := pool.positions.abs_netAt_le_grossAt tick
  have hwidth : twoPow 128 = 2 * twoPow 127 := twoPow_succ 127
  by_cases hroom : pool.positions.grossAt tick + amount ≤ pool.liquidityCap
  · have hentering : |rangeEnd.entering amount| = amount := by
      cases rangeEnd <;> simp [RangeEnd.entering]
    have hsum := abs_add_le (pool.positions.netAt tick) (rangeEnd.entering amount)
    have hfits : (pool.ticks.find tick).HasRoom amount rangeEnd pool.liquidityCap := by
      constructor
      · omega
      · omega
      · rw [hnet]
        omega
    exact hfits.adjust_finishes (by omega)
  · have hadded : addDelta (pool.ticks.find tick).gross amount =
        .ok (pool.positions.grossAt tick + amount) :=
      addDelta_eq_ok.mpr ⟨by omega, by omega⟩
    unfold BoundaryTick.adjust
    refine .get_bind (.lift_bind hadded (.bind (.lift (.require fun _ ↦ ?_)) fun _ _ hrequired ↦ ?_))
    · exact hcap (not_le.mp hroom)
    · exact absurd (require_eq_ok.mp (Action.lift_eq_ok.mp hrequired).1) hroom

theorem Bookkept.position_liquidity_lt (h : pool.Bookkept) (hcaps : pool.WithinCaps)
    (key : PositionKey) : (pool.position key).liquidity < twoPow 127 := by
  unfold Pool.position PositionTable.find
  cases hget : pool.positions.get? key with
  | some position => exact h.liquidity_lt hcaps hget
  | none => exact twoPow_pos 127

/-- What an addition works out besides the boundary ticks always fits. -/
theorem Reachable.stageChange_failsOnly (h : pool.Reachable) (hopen : pool.IsOpen)
    (hfits : key.FitsPool pool.tickSpacing) (hpos : 0 < amount) (hamount : amount < twoPow 127)
    (hcap : ∀ rangeEnd, pool.liquidityCap < pool.positions.grossAt (key.tickAt rangeEnd) + amount →
      allowed (.rejected .liquidityCap)) :
    (stageChange key amount).FailsOnly allowed pool := by
  have hbooks := h.bookkept
  have hcaps := h.withinCaps
  have hwidth : twoPow 128 = 2 * twoPow 127 := twoPow_succ 127
  have hheld := hbooks.position_liquidity_lt hcaps key
  refine Pool.stageChange_failsOnly hfits.lower_lt_upper (fun _ _ ↦ .inr (by omega))
    (fun _ rangeEnd ↦ hbooks.adjust_failsOnly hcaps hamount _ _ (hcap rangeEnd))
    (fun inside ↦ Pool.adjust_failsOnly ?_ (by omega) inside)
    (rangeAmounts_finishes hfits (hbooks.stands hopen) h.sqrtPrice_lt (by omega) fun _ _ ↦ ?_)
  · have hadded : addDelta (pool.position key).liquidity amount =
        .ok ((pool.position key).liquidity + amount) := addDelta_eq_ok.mpr ⟨rfl, by omega⟩
    unfold Position.liquidityAfter
    rw [if_neg (by omega)]
    exact .of_eq_ok hadded
  · have hactive := activeAt_le_total pool.positions pool.tick
    have htotal := hbooks.total_liquidity_le hcaps
    have hliquidity := hbooks.liquidity
    rw [← PositionTable.activeAt_eq_weigh] at hliquidity
    omega

/-- An addition fails where it is turned down from the start, and where one of its ends would hold
more than the cap. -/
theorem Reachable.addLiquidity_failsOnly (h : pool.Reachable) (hamount : amount < twoPow 127)
    (hclosed : ¬pool.IsOpen → allowed (.rejected .notInitialized))
    (hzero : amount = 0 → allowed (.rejected .zeroMintAmount))
    (hrange : FailsOnly allowed (checkRange key.lower key.upper))
    (hticks : ∀ rangeEnd, FailsOnly allowed (checkTick (key.tickAt rangeEnd) pool.tickSpacing))
    (hcap : ∀ rangeEnd, pool.liquidityCap < pool.positions.grossAt (key.tickAt rangeEnd) + amount →
      allowed (.rejected .liquidityCap)) :
    (addLiquidity key amount).FailsOnly allowed pool := by
  have hdelta : int128 amount = .ok (amount : ℤ) := within_eq_ok.mpr ⟨by omega, rfl⟩
  unfold addLiquidity
  refine .bind (opened_failsOnly hclosed) fun _ _ hopened ↦ ?_
  obtain ⟨hopen, rfl, rfl⟩ := opened_eq_ok.mp hopened
  refine .bind (.lift (.require fun hnone ↦ hzero (Nat.eq_zero_of_not_pos hnone)))
    fun _ _ hrequired ↦ ?_
  obtain ⟨hpos, rfl⟩ := Action.lift_eq_ok.mp hrequired
  refine .lift_bind hdelta (.bind (adjustPosition_failsOnly hrange hticks fun hfits ↦ ?_)
    fun _ _ _ ↦ .pure _)
  exact h.stageChange_failsOnly hopen hfits (require_eq_ok.mp hpos) hamount hcap

/-- No addition fails because liquidity leaves its range, and neither does a check of its range. -/
theorem Reachable.addLiquidity_noOverflow (h : pool.Reachable) (hamount : amount < twoPow 127) :
    (addLiquidity key amount).FailsOnly (¬·.IsLiquidityOverflow) pool := by
  refine h.addLiquidity_failsOnly hamount (fun _ ↦ by decide) (fun _ ↦ by decide) ?_
    (fun rangeEnd ↦ ?_) fun _ _ ↦ by decide
  · refine .bind (.require fun _ ↦ by decide) fun _ _ ↦ ?_
    exact .bind (.require fun _ ↦ by decide) fun _ _ ↦ .require fun _ ↦ by decide
  · refine .bind (.require fun _ ↦ by decide) fun _ _ ↦ ?_
    refine .bind (.require fun _ ↦ by decide) fun _ _ ↦ ?_
    exact .bind (.require fun _ ↦ by decide) fun _ _ ↦ .require fun _ ↦ by decide

/-- After an addition neither end of its range holds more than the cap. -/
theorem Reachable.grossAt_add_le {brought : TokenPair ℕ} (h : pool.Reachable) (hpos : 0 < amount)
    (hadded : addLiquidity key amount pool = .ok brought after) (rangeEnd : RangeEnd) :
    pool.positions.grossAt (key.tickAt rangeEnd) + amount ≤ pool.liquidityCap := by
  obtain ⟨staged, position, amounts, -, -, hadjusted, -⟩ := added_of_addLiquidity hadded
  obtain ⟨written, -, hboundary⟩ := hadjusted.boundaries.adjusted (by omega) rangeEnd
  have hgross := hboundary.gross_eq
  have hle := hboundary.gross_le
  rw [(h.bookkept.find_eq _).1] at hgross
  omega

/-- Liquidity can be added to every range that fits the pool, as long as neither of its ends would
hold more than the cap. -/
theorem Reachable.addLiquidity_finishes_iff (h : pool.Reachable) :
    (∃ brought after, addLiquidity key amount pool = .ok brought after) ↔
      pool.IsOpen ∧ key.FitsPool pool.tickSpacing ∧ 0 < amount ∧
        ∀ rangeEnd, pool.positions.grossAt (key.tickAt rangeEnd) + amount ≤ pool.liquidityCap := by
  have hcaps := h.withinCaps
  constructor
  · rintro ⟨brought, after, hadded⟩
    obtain ⟨staged, position, amounts, hopen, hpos, hadjusted, -⟩ := added_of_addLiquidity hadded
    exact ⟨hopen, ⟨hadjusted.lower_lt_upper, hadjusted.minTick_le, hadjusted.le_maxTick,
      hadjusted.spacing_dvd⟩, hpos, h.grossAt_add_le hpos hadded⟩
  · rintro ⟨hopen, hfits, hpos, hroom⟩
    have hcap := (cap_spec hcaps.spacing_pos hcaps.spacing_lt hcaps.cap_eq).2
    have hlower := hroom .lower
    exact (h.addLiquidity_failsOnly (by omega) (absurd hopen) (absurd · hpos.ne')
      (checkRange_finishes hfits) (checkTick_finishes hfits hcaps.spacing_pos)
      fun rangeEnd ↦ absurd (hroom rangeEnd) ∘ not_le.mpr).exists_eq_ok

/-! ### Swaps -/

/-- Nothing in a pass of a swap can fail because liquidity leaves its range. -/
theorem Reachable.advance_failsOnly (h : pool.Reachable) (hadmits : pool.Admits request)
    (hmin : -(twoPow 255 : ℤ) ≤ request.amount) (hmax : request.amount < twoPow 255)
    (hcourse : Course pool request steps state) :
    FailsOnly (¬·.IsLiquidityOverflow) (state.advance pool request) := by
  have hbooks := h.bookkept
  have hunderway := hadmits.underway hbooks.inBounds (hbooks.stands hadmits.isOpen) hcourse
  have hwithin := (hbooks.withinAmount h.sound_book hadmits hcourse).1
  have hremaining : state.remaining.natAbs ≤ twoPow 255 := by
    rcases hwithin.remaining_between with hleft | hleft <;> omega
  have hmove : ∀ {nextLevel?}, (∀ level ∈ nextLevel?, request.paid.Past level state.sqrtPrice) →
      FailsOnly (¬·.IsLiquidityOverflow) (state.moveRange pool request nextLevel?) := by
    intro nextLevel? hlevel
    have hlimit := h.limit_inBounds hadmits
    have hprice := h.price_inBounds hadmits hcourse
    have haround := liquidity_of_course hbooks hadmits hcourse
    refine moveRange_failsOnly hunderway hlimit hprice haround hbooks h.withinCaps hlevel ?_
      (fun _ _ ↦ book_failsOnly (by decide) (by decide)) fun _ _ ↦ .within fun _ ↦ by decide
    exact stepAhead_finishes hunderway hlimit hprice haround hremaining hbooks h.withinCaps hlevel
  unfold advance
  cases hbest : pool.book.best? request.paid state.lastUsedUp with
  | none => exact hmove fun _ hlevel ↦ absurd hlevel (by simp)
  | some found =>
    obtain ⟨tick, level⟩ := found
    have hlevel := (OrderBook.best?_eq_some hbest).1
    refine .bind (.bind (.require fun _ ↦ by decide) fun _ _ ↦ .pure _) fun levelPrice _ ↦
      .ite (fun hpast ↦ hmove ?_) fun _ ↦ ?_
    · simpa using hpast
    · exact fillLevel_failsOnly (by decide) (by decide)
        ((h.sound_book request.paid.other).levels tick level hlevel).available_lt

theorem Reachable.planSwap_failsOnly (h : pool.Reachable)
    (hmin : -(twoPow 255 : ℤ) ≤ request.amount) (hmax : request.amount < twoPow 255) :
    FailsOnly (¬·.IsLiquidityOverflow) (pool.planSwap request) := by
  refine .bind (.require fun _ ↦ by decide) fun _ _ ↦
    .bind (.require fun _ ↦ by decide) fun _ hopen ↦
    .bind (.require fun _ ↦ by decide) fun _ hlimit ↦ ?_
  have hadmits : pool.Admits request := ⟨require_eq_ok.mp hopen, require_eq_ok.mp hlimit⟩
  refine .bind (h.travel_failsOnly hadmits fun _ _ hcourse _ _ ↦
    h.advance_failsOnly hadmits hmin hmax hcourse) fun _ _ ↦ ?_
  exact .bind (.within fun _ ↦ by decide) fun _ _ ↦ .bind (.within fun _ ↦ by decide) fun _ _ ↦
    .pure _

/-! ### What the cap rules out -/

/-- What the cap of each tick means for a pool. -/
structure LiquidityFits (pool : Pool) : Prop where
  total_le : (pool.positions.total fun _ position ↦ position.liquidity) ≤ (twoPow 128 - 1) / 2
  /-- An addition of at most 127 bits does not fail because liquidity leaves its range. -/
  addition : ∀ key amount failure after, amount < twoPow 127 →
    addLiquidity key amount pool = .error failure after → ¬failure.IsLiquidityOverflow
  /-- Where an end of the range would hold more than the cap, this is what is reported. -/
  capped : ∀ key amount, pool.IsOpen → key.FitsPool pool.tickSpacing → 0 < amount →
    amount < twoPow 127 →
    (∃ rangeEnd, pool.liquidityCap < pool.positions.grossAt (key.tickAt rangeEnd) + amount) →
      addLiquidity key amount pool = .error (.rejected .liquidityCap) pool
  /-- Where neither would, the liquidity is added. -/
  uncapped : ∀ key amount, pool.IsOpen → key.FitsPool pool.tickSpacing → 0 < amount →
    (∀ rangeEnd, pool.positions.grossAt (key.tickAt rangeEnd) + amount ≤ pool.liquidityCap) →
      ∃ brought after, addLiquidity key amount pool = .ok brought after
  /-- Wherever a swap stands, it crosses the tick that comes next. -/
  crossing : ∀ request steps state next isBoundary, pool.Admits request →
    Course pool request steps state → next.liquidity = state.liquidity →
      ∃ result, arrive pool request next (nextTick pool request state) isBoundary = .ok result
  /-- A swap of an amount of 256 bits with its sign does not fail because liquidity leaves its
  range. -/
  swap : ∀ (request : SwapRequest) failure after, -(twoPow 255 : ℤ) ≤ request.amount →
    request.amount < twoPow 255 → Pool.swap request pool = .error failure after →
      ¬failure.IsLiquidityOverflow

/-- In every pool that is reached, whatever its tick spacing, the cap of a tick keeps all liquidity
within its range. -/
theorem cap_rules_out_overflow (h : pool.Reachable) : pool.LiquidityFits := by
  have hbooks := h.bookkept
  have hcaps := h.withinCaps
  have hspacing := hcaps.spacing_pos
  constructor
  · have htotal := hbooks.total_liquidity_le hcaps
    omega
  · intro key amount failure after hamount hfails
    exact h.addLiquidity_noOverflow hamount failure after hfails
  · intro key amount hopen hfits hpos hamount hexceeds
    have hfailsOnly : (addLiquidity key amount).FailsOnly (· = .rejected .liquidityCap) pool :=
      h.addLiquidity_failsOnly hamount (absurd hopen) (absurd · hpos.ne')
        (checkRange_finishes hfits) (checkTick_finishes hfits hspacing) fun _ _ ↦ rfl
    cases hadd : addLiquidity key amount pool with
    | ok brought after =>
      obtain ⟨rangeEnd, hexceeds⟩ := hexceeds
      exact absurd hexceeds (not_lt.mpr (h.grossAt_add_le hpos hadd rangeEnd))
    | error failure after =>
      rw [hfailsOnly failure after hadd, addLiquidity_atomic key amount pool failure after hadd]
  · intro key amount hopen hfits hpos hroom
    exact h.addLiquidity_finishes_iff.mpr ⟨hopen, hfits, hpos, hroom⟩
  · intro request steps state next isBoundary hadmits hcourse hliquidity
    exact (arrive_finishes (hadmits.underway hbooks.inBounds (hbooks.stands hadmits.isOpen) hcourse)
      (liquidity_of_course hbooks hadmits hcourse) hbooks hcaps hliquidity).exists_eq_ok
  · intro request failure after hmin hmax hfails
    exact h.planSwap_failsOnly hmin hmax failure (planSwap_of_swap_eq_error hfails)

/-- One more unit at the end of a full range is too much, and the cap is what is reported. -/
theorem cap_rules_out_overflow_fullRange :
    fullRange.LiquidityFits ∧ fullRange.positions.grossAt 60 = fullRange.liquidityCap ∧
      addLiquidity ⟨2, -120, 60⟩ 1 fullRange = .error (.rejected .liquidityCap) fullRange := by
  have hfits : fullRange.LiquidityFits :=
    cap_rules_out_overflow (Ledger.reachable_enterAll _ (.created create_standard) _)
  have hfull : fullRange.positions.grossAt 60 = fullRange.liquidityCap := by decide +kernel
  have hspacing : fullRange.tickSpacing = 60 := by decide +kernel
  have hkey : PositionKey.FitsPool ⟨2, -120, 60⟩ fullRange.tickSpacing := by
    rw [hspacing]
    exact ⟨by decide, by decide, by decide, fun rangeEnd ↦ by cases rangeEnd <;> decide⟩
  refine ⟨hfits, hfull, hfits.capped _ _ (by decide +kernel) hkey (by decide) (by decide) ?_⟩
  exact ⟨.upper, by rw [PositionKey.tickAt, hfull]; omega⟩

end Pool

end RangeBook
