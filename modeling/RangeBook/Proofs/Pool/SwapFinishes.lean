import Mathlib
import RangeBook.Proofs.Pool.LiquidityRoom
import RangeBook.Proofs.Pool.PriceTick
import RangeBook.Proofs.Pool.SwapLength
import RangeBook.Proofs.Swap.StepRoom

/-!
# Swaps along ranges finish

A swap that no level of the book faces only moves along ranges, and no amount that it asks for makes
it fail. The bounds within which it stays wherever a pass begins (`InRoom`) leave room for all that
a pass works out (`moveRange_finishes`): the prices are within the bounds of all prices, the
liquidity is what the positions hold around a tick, and a swap makes so few passes that what it has
exchanged stays far below 256 bits.

The one amount that nothing bounds is what is set aside for the protocol. So a swap finishes where
the protocol takes no part of the fees, and can fail for no other cause where it does
(`swap_finishes`).
-/

set_option autoImplicit false
set_option relaxedAutoImplicit false

namespace RangeBook

attribute [local irreducible] tickSqrtPrice tickAt

namespace SwapState

variable {pool : Pool} {request : SwapRequest} {state next : SwapState} {steps : List SwapStep}
  {nextLevel? : Option ℕ} {move : RangeMove}

/-! ### The bounds of a swap -/

/-- The way in which a swap along ranges may fail: the protocol takes a part of the fees, and what
is set aside for it does not fit. -/
def ProtocolFeesOverflow (pool : Pool) (request : SwapRequest) (failure : Failure) : Prop :=
  pool.protocolPart.get request.paid ≠ 0 ∧ failure = .rejected .uint128Range

/-- The bounds within which a swap stays where one of its passes begins. -/
structure InRoom (pool : Pool) (request : SwapRequest) (state : SwapState) : Prop where
  underway : Underway pool request state
  within : WithinAmount request state
  limit : PriceInBounds request.limit
  price : PriceInBounds state.sqrtPrice
  liquidity_eq : (state.liquidity : ℤ) =
    pool.positions.weigh (PositionKey.rangeWeight state.tick)
  remaining_bounds : -(twoPow 255 : ℤ) ≤ state.remaining ∧ state.remaining < twoPow 255
  exchanged_lt : |state.exchanged| < twoPow 254
  protocolFees_eq : pool.protocolPart.get request.paid = 0 → state.protocolFees = 0

/-- The target of a move is within the bounds. -/
theorem targetPrice_inBounds (h : Underway pool request state)
    (hlimit : PriceInBounds request.limit) (hprice : PriceInBounds state.sqrtPrice)
    (hlevel : ∀ level ∈ nextLevel?, request.paid.Past level state.sqrtPrice) :
    PriceInBounds
      (targetPrice request (tickSqrtPrice (nextTick pool request state)) nextLevel?) := by
  obtain ⟨hleads, hstays, -⟩ := targetPrice_leads (leads_nextTick h) h.leads_limit hlevel
  exact hprice.of_leads hlimit hleads hstays

/-! ### A pass finishes -/

/-- The amounts of a step that stays within what is left can be booked. -/
theorem book_finishes {failures : Failure → Prop} {amountIn fee amountOut : ℕ}
    (h : InRoom pool request state) (hleft : state.remaining ≠ 0)
    (hpaid : amountIn + fee ≤ twoPow 254) (hbought : amountOut ≤ twoPow 254)
    (hspent : 0 ≤ state.remaining → amountIn + fee ≤ state.remaining.natAbs)
    (hout : state.remaining < 0 → amountOut ≤ state.remaining.natAbs) :
    FailsOnly failures (book request state amountIn fee amountOut) := by
  obtain ⟨hmin, hmax⟩ := h.remaining_bounds
  have hexchanged := abs_lt.mp h.exchanged_lt
  have hhalf : twoPow 255 = 2 * twoPow 254 := twoPow_succ 254
  have hwidth : amountIn + fee < twoPow 256 := lt_of_le_of_lt hpaid (by decide)
  refine .bind (.within (absurd hwidth)) fun paid heq ↦ ?_
  obtain ⟨-, rfl⟩ := within_eq_ok.mp heq
  refine .bind (.within (absurd (by omega))) fun paid heq ↦ ?_
  obtain ⟨-, rfl⟩ := within_eq_ok.mp heq
  refine .bind (.within (absurd (by omega))) fun bought heq ↦ ?_
  obtain ⟨-, rfl⟩ := within_eq_ok.mp heq
  refine .ite (fun hinput ↦ ?_) fun houtput ↦ ?_
  · have hsign := h.within.input hinput
    have hspent := hspent hsign
    exact .bind (.within (absurd (by omega))) fun _ _ ↦
      .bind (.within (absurd (by omega))) fun _ _ ↦ .pure _
  · have hsign := lt_of_le_of_ne (h.within.output houtput) hleft
    have hout := hout hsign
    exact .bind (.within (absurd (by omega))) fun _ _ ↦
      .bind (.within (absurd (by omega))) fun _ _ ↦ .pure _

/-- What a fee of a step adds to the growth fits. -/
theorem growthOf_finishes {failures : Failure → Prop} {fee liquidity : ℕ}
    (hfee : fee ≤ liquidity * twoPow 64 * feeDenominator) :
    FailsOnly failures (growthOf fee liquidity) := by
  refine .ite (fun _ ↦ .pure _) fun hne ↦ .bind ?_ fun _ _ ↦ .pure _
  have hle : fee * twoPow 128 ≤ twoPow 64 * feeDenominator * twoPow 128 * liquidity := by
    calc fee * twoPow 128 ≤ liquidity * twoPow 64 * feeDenominator * twoPow 128 :=
          Nat.mul_le_mul_right _ hfee
      _ = twoPow 64 * feeDenominator * twoPow 128 * liquidity := by ring
  exact .mulDivFloor_of_le (Nat.pos_of_ne_zero hne) hle (by decide)

/-- The liquidity past the next tick is that of the positions around it, so it fits. -/
theorem arrive_finishes {failures : Failure → Prop} {isBoundary : Bool}
    (hunderway : Underway pool request state)
    (haround : (state.liquidity : ℤ) =
      pool.positions.weigh (PositionKey.rangeWeight state.tick))
    (hbooks : pool.Bookkept) (hcaps : pool.WithinCaps)
    (hliquidity : next.liquidity = state.liquidity) :
    FailsOnly failures (arrive pool request next (nextTick pool request state) isBoundary) := by
  refine .ite (fun _ ↦ ?_) fun _ ↦ .pure _
  have hnet : ((pool.ticks.get? (nextTick pool request state)).getD .blank).net =
      pool.positions.netAt (nextTick pool request state) := (hbooks.find_eq _).2
  have hcount : ∀ tick, (pool.ticks.get? tick).isSome →
      (if tick ≤ tickPassed request (nextTick pool request state) then 1 else 0 : ℤ) =
        (if tick ≤ state.tick then 1 else 0) +
          (some (nextTick pool request state)).elim 0 fun passed ↦
            if passed = tick then request.paid.entering 1 else 0 :=
    fun tick hstored ↦ tickPassed_count hunderway hstored
  have hpassed := Pool.weigh_rangeWeight_of_count hbooks hcount
  rw [← haround, ← PositionTable.activeAt_eq_weigh, Option.elim_some] at hpassed
  have hfits := hbooks.activeAt_lt hcaps (tickPassed request (nextTick pool request state))
  have hentering : ∀ entering, enteringLiquidity pool request (nextTick pool request state) =
      .ok entering → FailsOnly failures (addDelta next.liquidity entering) := by
    intro entering heq
    refine .of_eq_ok (addDelta_eq_ok.mpr ⟨?_, hfits⟩)
    rw [hpassed, hliquidity, entering_of_enteringLiquidity heq, hnet]
  refine .bind ?_ fun entering heq ↦ .bind (hentering entering heq) fun _ _ ↦ .pure _
  obtain ⟨hmin, hmax⟩ := abs_lt.mp (hbooks.netAt_bounds hcaps (nextTick pool request state))
  unfold enteringLiquidity
  rw [hnet]
  cases request.paid with
  | zero => exact .within (absurd (by omega))
  | one => exact .pure _

/-- The step along a range that a swap takes, up to a level where one lies ahead. -/
def stepAhead (pool : Pool) (request : SwapRequest) (state : SwapState) (nextLevel? : Option ℕ) :
    Outcome RangeStep :=
  RangeStep.compute state.sqrtPrice
    (targetPrice request (tickSqrtPrice (nextTick pool request state)) nextLevel?)
    state.liquidity state.remaining pool.fee

/-- Where the liquidity is that of the positions, a step of at most 256 bits can be worked out. -/
theorem stepAhead_finishes {failures : Failure → Prop} (hunderway : Underway pool request state)
    (hlimit : PriceInBounds request.limit) (hprice : PriceInBounds state.sqrtPrice)
    (haround : (state.liquidity : ℤ) =
      pool.positions.weigh (PositionKey.rangeWeight state.tick))
    (hremaining : state.remaining.natAbs ≤ twoPow 255)
    (hbooks : pool.Bookkept) (hcaps : pool.WithinCaps)
    (hlevel : ∀ level ∈ nextLevel?, request.paid.Past level state.sqrtPrice) :
    FailsOnly failures (stepAhead pool request state nextLevel?) :=
  RangeStep.compute_finishes hcaps.fee_lt hprice.fits
    (targetPrice_inBounds hunderway hlimit hprice hlevel).fits
    (hbooks.lt_of_eq_weigh hcaps haround) hremaining

/-- A move along a range fails where its step cannot be worked out or booked, or the fees set aside
for the protocol do not fit, and nowhere else. -/
theorem moveRange_failsOnly {failures : Failure → Prop} (hunderway : Underway pool request state)
    (hlimit : PriceInBounds request.limit) (hprice : PriceInBounds state.sqrtPrice)
    (haround : (state.liquidity : ℤ) =
      pool.positions.weigh (PositionKey.rangeWeight state.tick))
    (hbooks : pool.Bookkept) (hcaps : pool.WithinCaps)
    (hlevel : ∀ level ∈ nextLevel?, request.paid.Past level state.sqrtPrice)
    (hstep : FailsOnly failures (stepAhead pool request state nextLevel?))
    (hbook : ∀ step, stepAhead pool request state nextLevel? = .ok step →
      FailsOnly failures (book request state step.amountIn step.fee step.amountOut))
    (hprotocol : ∀ step, stepAhead pool request state nextLevel? = .ok step →
      FailsOnly failures
        (uint128 (state.protocolFees + wrap128 (protocolShare pool request step.fee)))) :
    FailsOnly failures (moveRange pool request state nextLevel?) := by
  have htarget := targetPrice_inBounds hunderway hlimit hprice hlevel
  have htoward := (targetPrice_leads (leads_nextTick hunderway) hunderway.leads_limit hlevel).1
  unfold moveRange
  refine .bind hstep fun step hcompute ↦ ?_
  have hroom := RangeStep.withinRoom_of_compute hprice.fits htarget.fits hcompute
  refine .bind (hbook step hcompute) fun moved hmoved ↦ ?_
  have hkept : moved.liquidity = state.liquidity := by
    rw [(booked_of_book hmoved).state_eq]
  refine .bind (hprotocol step hcompute) fun protocolFees _ ↦
    .bind (growthOf_finishes (le_trans (Nat.sub_le _ _) hroom.fee_le)) fun added _ ↦ ?_
  have hstays := RangeStep.favourable_of_compute htarget.pos htoward hcompute
  have hreached := hprice.of_leads htarget hstays.leads hstays.stays
  obtain ⟨tick, htick, -⟩ := tickAt_spec hreached.minSqrtPrice_le hreached.lt_maxSqrtPrice
  refine .ite (fun _ ↦ ?_) fun _ ↦ .ite (fun _ ↦ .pure _) fun _ ↦
    .bind (.of_eq_ok htick) fun _ _ ↦ .pure _
  exact .bind (arrive_finishes hunderway haround hbooks hcaps hkept) fun _ _ ↦ .pure _

/-- A swap that stays within its bounds moves along a range unless the fees set aside for the
protocol do not fit. -/
theorem moveRange_finishes (h : InRoom pool request state) (hbooks : pool.Bookkept)
    (hcaps : pool.WithinCaps) (hleft : state.remaining ≠ 0)
    (hlevel : ∀ level ∈ nextLevel?, request.paid.Past level state.sqrtPrice) :
    FailsOnly (ProtocolFeesOverflow pool request) (moveRange pool request state nextLevel?) := by
  have htarget := targetPrice_inBounds h.underway h.limit h.price hlevel
  have hliquidity := hbooks.lt_of_eq_weigh hcaps h.liquidity_eq
  have hwide : twoPow 213 ≤ twoPow 254 := by decide
  obtain ⟨hmin, hmax⟩ := h.remaining_bounds
  have hahead : FailsOnly (ProtocolFeesOverflow pool request)
      (stepAhead pool request state nextLevel?) :=
    stepAhead_finishes h.underway h.limit h.price h.liquidity_eq (by omega) hbooks hcaps hlevel
  refine moveRange_failsOnly h.underway h.limit h.price h.liquidity_eq hbooks hcaps hlevel hahead
    (fun step hstep ↦ ?_) fun step _ ↦ .within fun hfull ↦ ⟨fun hpart ↦ hfull ?_, rfl⟩
  · have hroom := RangeStep.withinRoom_of_compute h.price.fits htarget.fits hstep
    obtain ⟨hpaid, hbought⟩ := hroom.amounts_lt hliquidity
    exact book_finishes h hleft (le_trans hpaid.le hwide) (le_trans hbought.le hwide)
      (fun hinput ↦ RangeStep.spent_le_of_compute htarget.pos hinput hstep)
      fun houtput ↦ RangeStep.bought_le_of_compute htarget.pos houtput hstep
  · rw [h.protocolFees_eq hpart, protocolShare, if_pos hpart]
    decide

/-- A swap that no level faces fails in a pass only where the fees set aside for the protocol do not
fit. -/
theorem advance_finishes (h : InRoom pool request state) (hbooks : pool.Bookkept)
    (hcaps : pool.WithinCaps) (hleft : state.remaining ≠ 0)
    (hnone : (pool.book.side request.paid.other).levels = .empty) :
    FailsOnly (ProtocolFeesOverflow pool request) (advance pool request state) := by
  unfold advance
  rw [OrderBook.best?_eq_none hnone]
  exact moveRange_finishes h hbooks hcaps hleft fun _ hlevel ↦ absurd hlevel (by simp)

/-! ### What a swap has moved -/

theorem brought_exchanged (state : SwapState) :
    (state.brought request).get
      (if request.IsExactInput then request.paid.other else request.paid) = state.exchanged := by
  unfold brought Pool.swapAmounts
  split_ifs
  · exact TokenPair.get_paired_other _ _ _
  · exact TokenPair.get_paired_self _ _ _

/-- A move adds no more to what was exchanged than a step can move. -/
theorem RangeMoved.abs_exchanged_le (hmoved : RangeMoved pool request state nextLevel? move next)
    (hpaid : move.step.amountIn + move.step.fee ≤ twoPow 213)
    (hbought : move.step.amountOut ≤ twoPow 213) :
    |next.exchanged| ≤ |state.exchanged| + twoPow 213 := by
  have hbrought := hmoved.brought_eq
    (if request.IsExactInput then request.paid.other else request.paid)
  rw [brought_exchanged, brought_exchanged] at hbrought
  rw [hbrought]
  refine le_trans (abs_add_le _ _) (add_le_add_right ?_ _)
  split_ifs
  · rw [TokenPair.get_paired_other, abs_neg, Nat.abs_cast]
    exact_mod_cast hbought
  · rw [TokenPair.get_paired_self, ← Nat.cast_add, Nat.abs_cast]
    exact_mod_cast hpaid

end SwapState

open SwapState

namespace Pool

variable {pool after : Pool} {request : SwapRequest} {steps : List SwapStep} {state : SwapState}

/-! ### The whole course -/

/-- The limit of a swap is within the bounds, like the price that it lies ahead of. -/
theorem Reachable.limit_inBounds (h : pool.Reachable) (hadmits : pool.Admits request) :
    PriceInBounds request.limit := by
  obtain ⟨hpast, hlimit⟩ := hadmits.limitAllowed
  have hmin := (h.bookkept.stands hadmits.isOpen).minSqrtPrice_le
  have hmax := h.sqrtPrice_lt
  cases hpaid : request.paid with
  | zero =>
    simp only [hpaid] at hpast hlimit
    exact ⟨hlimit.le, lt_trans hpast hmax⟩
  | one =>
    simp only [hpaid] at hpast hlimit
    exact ⟨le_trans hmin (le_of_lt hpast), hlimit⟩

theorem Reachable.price_inBounds (h : pool.Reachable) (hadmits : pool.Admits request)
    (hcourse : Course pool request steps state) : PriceInBounds state.sqrtPrice := by
  have hunderway := hadmits.underway h.bookkept.inBounds (h.bookkept.stands hadmits.isOpen) hcourse
  exact ⟨hunderway.stands.minSqrtPrice_le,
    hadmits.sqrtPrice_lt h.bookkept h.sound_book h.sqrtPrice_lt hcourse⟩

/-- Along ranges a swap exchanges no more in each of its steps than a step can move, and sets
nothing aside for a protocol that takes no part. -/
theorem Reachable.exchanged_le (h : pool.Reachable) (hadmits : pool.Admits request)
    (hnone : (pool.book.side request.paid.other).levels = .empty)
    (hcourse : Course pool request steps state) :
    |state.exchanged| ≤ steps.length * twoPow 213 ∧
      (pool.protocolPart.get request.paid = 0 → state.protocolFees = 0) := by
  induction hcourse with
  | start => exact ⟨by simp [SwapState.start], fun _ ↦ rfl⟩
  | @advanced steps state next step hbefore _ _ hadvanced ih =>
    cases hadvanced with
    | moved hlevel hmoved =>
      have hunderway :=
        hadmits.underway h.bookkept.inBounds (h.bookkept.stands hadmits.isOpen) hbefore
      have hprice := h.price_inBounds hadmits hbefore
      have htarget := targetPrice_inBounds hunderway (h.limit_inBounds hadmits) hprice hlevel.past
      have hroom := RangeStep.withinRoom_of_compute hprice.fits htarget.fits hmoved.compute_eq
      have hliquidity := h.bookkept.lt_of_eq_weigh h.withinCaps
        (liquidity_of_course h.bookkept hadmits hbefore)
      obtain ⟨hpaid, hbought⟩ := hroom.amounts_lt hliquidity
      have hexchanged := hmoved.abs_exchanged_le hpaid.le hbought.le
      constructor
      · rw [List.length_append, List.length_singleton]
        push_cast
        linarith [ih.1]
      · intro hpart
        rw [hmoved.protocolFees_eq, ih.2 hpart, hmoved.protocolShare_eq, protocolShare,
          if_pos hpart]
        rfl
    | usedUp hbest => exact absurd hbest (by rw [OrderBook.best?_eq_none hnone]; simp)
    | filledInPart hbest => exact absurd hbest (by rw [OrderBook.best?_eq_none hnone]; simp)

/-- Whether a swap asks for an amount, of 256 bits with its sign. -/
def AmountAllowed (request : SwapRequest) : Prop :=
  request.amount ≠ 0 ∧ -(twoPow 255 : ℤ) ≤ request.amount ∧ request.amount < twoPow 255

/-- Along ranges a swap stays within its bounds wherever a pass begins. -/
theorem Reachable.inRoom (h : pool.Reachable) (hadmits : pool.Admits request)
    (hamount : AmountAllowed request)
    (hnone : (pool.book.side request.paid.other).levels = .empty)
    (hcourse : Course pool request steps state) (hgoing : ∀ step ∈ steps, ¬step.IsLast) :
    InRoom pool request state := by
  have hbooks := h.bookkept
  obtain ⟨-, hmin, hmax⟩ := hamount
  have hwithin := (hbooks.withinAmount h.sound_book hadmits hcourse).1
  obtain ⟨hexchanged, hprotocol⟩ := h.exchanged_le hadmits hnone hcourse
  refine ⟨hadmits.underway hbooks.inBounds (hbooks.stands hadmits.isOpen) hcourse, hwithin,
    h.limit_inBounds hadmits, h.price_inBounds hadmits hcourse,
    liquidity_of_course hbooks hadmits hcourse, ?_, ?_, hprotocol⟩
  · rcases hwithin.remaining_between with hleft | hleft <;> constructor <;> omega
  · have hlength := length_le_of_course hbooks h.sound_book hadmits hcourse hgoing
    have hticks := hbooks.ticks_size_le h.withinCaps
    have hsteps : maxTick.toNat / pool.tickSpacing ≤ maxTick.toNat := Nat.div_le_self _ _
    have hlevels : (pool.book.side request.paid.other).levels.size = 0 := by
      rw [hnone]
      rfl
    have hfew : steps.length ≤ twoPow 21 := by
      have hwidth : 2 * maxTick.toNat + 2 ≤ twoPow 21 := by decide
      omega
    calc |state.exchanged| ≤ steps.length * twoPow 213 := hexchanged
      _ ≤ (twoPow 21 * twoPow 213 : ℕ) := by exact_mod_cast Nat.mul_le_mul_right _ hfew
      _ < twoPow 254 := by exact_mod_cast (by decide : twoPow 21 * twoPow 213 < twoPow 254)

/-- A swap takes fewer passes than it is allowed, so it fails as one of its passes does. -/
theorem Reachable.travel_failsOnly {failures : Failure → Prop} (h : pool.Reachable)
    (hadmits : pool.Admits request)
    (hadvance : ∀ steps state, Course pool request steps state → (∀ step ∈ steps, ¬step.IsLast) →
      ¬state.IsDone request → FailsOnly failures (state.advance pool request)) :
    FailsOnly failures (travel pool request (stepBudget pool request) (.start pool request)) := by
  refine failsOnly_travel (fun _ _ hcourse hgoing ↦
    length_le_of_course h.bookkept h.sound_book hadmits hcourse hgoing) hadvance .start (by simp) ?_
  unfold stepBudget
  omega

/-- A swap that no level faces can be worked out unless the fees set aside for the protocol do not
fit. -/
theorem Reachable.planSwap_finishes (h : pool.Reachable) (hadmits : pool.Admits request)
    (hamount : AmountAllowed request)
    (hnone : (pool.book.side request.paid.other).levels = .empty) :
    FailsOnly (ProtocolFeesOverflow pool request) (pool.planSwap request) := by
  have hbooks := h.bookkept
  have htravel : FailsOnly (ProtocolFeesOverflow pool request)
      (travel pool request (stepBudget pool request) (.start pool request)) :=
    h.travel_failsOnly hadmits fun _ _ hcourse hgoing hdone ↦
      advance_finishes (h.inRoom hadmits hamount hnone hcourse hgoing) hbooks h.withinCaps
        (fun hzero ↦ hdone (.inl hzero)) hnone
  refine .bind (.require (absurd hamount.1)) fun _ _ ↦
    .bind (.require (absurd hadmits.isOpen)) fun _ _ ↦
    .bind (.require (absurd hadmits.limitAllowed)) fun _ _ ↦
    .bind htravel fun ⟨steps, last⟩ hlast ↦ ?_
  have hcourse : Course pool request steps last := by
    exact course_of_travel .start (by simp) hlast
  have hwithin := (hbooks.withinAmount h.sound_book hadmits hcourse).1
  have hprotocol := (h.exchanged_le hadmits hnone hcourse).2
  obtain ⟨-, hmin, hmax⟩ := hamount
  refine .bind (.within (absurd ?_)) fun _ _ ↦
    .bind (.within fun hfull ↦ ⟨fun hpart ↦ hfull ?_, rfl⟩) fun _ _ ↦ .pure _
  · rcases hwithin.remaining_between with hleft | hleft <;> constructor <;> omega
  · rw [hprotocol hpart, Nat.add_zero]
    exact h.withinCaps.protocolFees_lt request.paid

theorem planSwap_of_swap_eq_error {failure : Failure}
    (h : swap request pool = .error failure after) : pool.planSwap request = .error failure := by
  unfold swap at h
  simp only [Action.bind_eq_error, Action.get_eq_ok, Action.get_ne_error, Action.lift_eq_ok,
    Action.lift_eq_error, Action.set_ne_error, Action.set_eq_ok, Action.pure_ne_error, false_or,
    and_false, exists_false, or_false] at h
  obtain ⟨_, _, ⟨rfl, rfl⟩, hplan, -⟩ := h
  exact hplan

/-- A swap that no level of the book faces finishes, whatever the amount and the limit, if the
protocol takes no part of its fees. If it does, then the swap fails for no other cause than that an
amount set aside for the protocol leaves 128 bits. -/
theorem swap_finishes (h : pool.Reachable) (hadmits : pool.Admits request)
    (hamount : AmountAllowed request)
    (hnone : (pool.book.side request.paid.other).levels = .empty) :
    (pool.protocolPart.get request.paid = 0 →
      ∃ amounts after, swap request pool = .ok amounts after) ∧
    ∀ failure after, swap request pool = .error failure after →
      failure = .rejected .uint128Range := by
  have hplan := h.planSwap_finishes hadmits hamount hnone
  refine ⟨fun hpart ↦ ?_, fun failure after hfails ↦ ?_⟩
  · have hnever : FailsOnly (fun _ ↦ False) (pool.planSwap request) :=
      fun failure hfails ↦ (hplan failure hfails).1 hpart
    obtain ⟨plan, hplan⟩ := hnever.exists_eq_ok
    exact ⟨_, _, swap_of_planSwap hplan⟩
  · exact (hplan failure (planSwap_of_swap_eq_error hfails)).2

/-- The greatest output that can be asked for is far more than two ranges hold, and the swap
finishes all the same. -/
theorem swap_finishes_greatestOutput :
    let request : SwapRequest := ⟨.zero, -twoPow 255, minSqrtPrice + 1⟩
    twoRanges.protocolPart.get request.paid = 0 ∧
      ∃ amounts after, swap request twoRanges = .ok amounts after := by
  have hopen : twoRanges.IsOpen := by decide +kernel
  have hlimit : twoRanges.LimitAllowed ⟨.zero, -twoPow 255, minSqrtPrice + 1⟩ := by decide +kernel
  have hamount : AmountAllowed ⟨.zero, -twoPow 255, minSqrtPrice + 1⟩ := by
    refine ⟨by decide, le_rfl, by decide⟩
  have hnone : (twoRanges.book.side .one).levels = .empty := by decide +kernel
  have hpart : twoRanges.protocolPart.get .zero = 0 := by decide +kernel
  exact ⟨hpart, (swap_finishes twoRanges_reachable ⟨hopen, hlimit⟩ hamount hnone).1 hpart⟩

end Pool

end RangeBook
