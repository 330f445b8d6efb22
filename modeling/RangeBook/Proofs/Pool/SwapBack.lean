import Mathlib
import RangeBook.Proofs.Pool.PricePriority
import RangeBook.Proofs.Pool.RangeSolvency

/-!
# Swapping back

As long as no liquidity is added or removed, the exact amounts that the positions of a pool hold
depend on nothing but the price (`Pool.reserveAt`). A price that holds less of one token holds more
of the other. So prices trade off one reserve against the other (`Bookkept.reserveAt_le`): where the
reserve of one token has not risen the other one has not fallen, also across gaps without
liquidity, in which the price moves and the reserves stay.

A swap without orders to fill brings at least what it adds to either reserve
(`reserveAt_of_swap_le`). If a swap back pays in no more of the token that was bought than the first
swap paid out, the reserve of that token ends where it started or lower. The other reserve then ends
no lower than it started, so the swap back has paid out no more of it than was paid in
(`swap_back_never_profits`).
-/

set_option autoImplicit false
set_option relaxedAutoImplicit false

namespace RangeBook

attribute [local irreducible] tickSqrtPrice tickAt

open Curve

/-! ### Reserves of one unit of liquidity -/

theorem Token.Leads.reverse {paid : Token} {first last : ℕ} (h : paid.Leads first last) :
    paid.other.Leads last first := by
  cases paid <;> exact h

theorem Token.leads_total (paid : Token) (first last : ℕ) :
    paid.Leads first last ∨ paid.Leads last first := by
  cases paid
  · exact le_total last first
  · exact le_total first last

variable {token : Token} {low high price price' : ℕ}

theorem Curve.height_injective (hprice : 0 < price) (hprice' : 0 < price')
    (h : height token price = height token price') : price = price' := by
  have hpriceCast : (price : ℚ) ≠ 0 := by exact_mod_cast hprice.ne'
  have hpriceCast' : (price' : ℚ) ≠ 0 := by exact_mod_cast hprice'.ne'
  cases token with
  | zero =>
    rw [height, height, neg_inj, div_eq_div_iff hpriceCast hpriceCast'] at h
    have heq : (price' : ℚ) = price := mul_left_cancel₀ (by positivity) h
    exact_mod_cast heq.symm
  | one =>
    rw [height, height, div_left_inj' (by positivity)] at h
    exact_mod_cast h

/-- A price that moves in the direction of a swap paying a token takes in some of that token. -/
theorem unitReserve_le_of_leads (hlow : 0 < low) (h : token.Leads price price') :
    unitReserve token low high price ≤ unitReserve token low high price' := by
  have hclamp : ∀ {left right : ℕ}, left ≤ right →
      0 < max low (min left high) ∧ max low (min left high) ≤ max low (min right high) :=
    fun hle ↦ ⟨lt_of_lt_of_le hlow (le_max_left _ _), max_le_max_left _ (min_le_min_right _ hle)⟩
  cases token with
  | zero =>
    obtain ⟨hpos, hle⟩ := hclamp h
    exact sub_le_sub_left (height_le_height hpos hle) _
  | one =>
    obtain ⟨hpos, hle⟩ := hclamp h
    exact sub_le_sub_right (height_le_height hpos hle) _

/-- Where one reserve is the same the other one is, because both come from the same part of the
range. -/
theorem unitReserve_other_eq (hlow : 0 < low)
    (h : unitReserve token low high price = unitReserve token low high price') :
    unitReserve token.other low high price = unitReserve token.other low high price' := by
  have hpos : ∀ price : ℕ, 0 < max low (min price high) :=
    fun _ ↦ lt_of_lt_of_le hlow (le_max_left _ _)
  have hclamp : max low (min price high) = max low (min price' high) := by
    cases token with
    | zero => exact height_injective (hpos _) (hpos _) (sub_right_injective h)
    | one => exact height_injective (hpos _) (hpos _) (sub_left_injective h)
  cases token <;> simp only [Token.other, unitReserve, hclamp]

namespace Pool

variable {pool after : Pool} {request : SwapRequest} {steps : List SwapStep}
  {state next : SwapState}

/-! ### Reserves of a pool -/

/-- The exact amount of a token that the positions of a pool hold at a price. -/
def reserveAt (pool : Pool) (token : Token) (price : ℕ) : ℚ :=
  pool.positions.total fun key position ↦ position.liquidity *
    unitReserve token (tickSqrtPrice key.lower) (tickSqrtPrice key.upper) price

theorem Bookkept.lower_pos (h : pool.Bookkept) {key : PositionKey} {position : Position}
    (hget : pool.positions.get? key = some position) : 0 < tickSqrtPrice key.lower := by
  have hfits := h.ranges key (by rw [hget]; rfl)
  exact (sqrtPrice_ends hfits.lower_lt_upper hfits.minTick_le hfits.le_maxTick).1

theorem Bookkept.reserveAt_le_of_leads (h : pool.Bookkept) (hleads : token.Leads price price') :
    pool.reserveAt token price ≤ pool.reserveAt token price' :=
  OrderedMap.total_le_total fun _ _ hget ↦ mul_le_mul_of_nonneg_left
    (unitReserve_le_of_leads (h.lower_pos hget) hleads) (Nat.cast_nonneg _)

/-- Where the one reserve of a pool is the same at two prices the other one is: no position with
liquidity lies between them. -/
theorem Bookkept.reserveAt_other_eq (h : pool.Bookkept) (hleads : token.Leads price price')
    (heq : pool.reserveAt token price = pool.reserveAt token price') :
    pool.reserveAt token.other price = pool.reserveAt token.other price' := by
  refine OrderedMap.total_congr fun key position hget ↦ ?_
  have hnonneg : ∀ key position, pool.positions.get? key = some position →
      0 ≤ position.liquidity *
          unitReserve token (tickSqrtPrice key.lower) (tickSqrtPrice key.upper) price' -
        position.liquidity *
          unitReserve token (tickSqrtPrice key.lower) (tickSqrtPrice key.upper) price :=
    fun _ _ hget ↦ sub_nonneg.mpr (mul_le_mul_of_nonneg_left
      (unitReserve_le_of_leads (h.lower_pos hget) hleads) (Nat.cast_nonneg _))
  have hle := OrderedMap.le_total hnonneg hget
  have htotal : pool.reserveAt token price' - pool.reserveAt token price = 0 :=
    sub_eq_zero.mpr heq.symm
  rw [OrderedMap.total_sub] at hle
  have hsame := le_antisymm (le_trans hle htotal.le) (hnonneg key position hget)
  by_cases hzero : position.liquidity = 0
  · rw [hzero, Nat.cast_zero, zero_mul, zero_mul]
  · have hne : (position.liquidity : ℚ) ≠ 0 := by exact_mod_cast hzero
    rw [unitReserve_other_eq (h.lower_pos hget) (mul_left_cancel₀ hne (sub_eq_zero.mp hsame)).symm]

/-- Prices trade off one reserve against the other. -/
theorem Bookkept.reserveAt_le (h : pool.Bookkept)
    (hother : pool.reserveAt token.other price' ≤ pool.reserveAt token.other price) :
    pool.reserveAt token price ≤ pool.reserveAt token price' := by
  obtain hleads | hleads := token.leads_total price price'
  · exact h.reserveAt_le_of_leads hleads
  · have heq := le_antisymm (h.reserveAt_le_of_leads hleads.reverse) hother
    have hback := h.reserveAt_other_eq hleads.reverse heq
    rw [Token.other_other] at hback
    exact hback.le

/-! ### Swaps without orders to fill -/

/-- A move brings at least what it adds to either reserve. -/
theorem reserveAt_of_moved_le (h : pool.Bookkept) (hadmits : pool.Admits request)
    (hbefore : SwapState.Course pool request steps state) {nextLevel? : Option ℕ}
    {move : RangeMove} (hlevel : SwapState.NextLevel pool request state nextLevel?)
    (hmoved : SwapState.RangeMoved pool request state nextLevel? move next) (token : Token) :
    pool.reserveAt token next.sqrtPrice ≤ pool.reserveAt token state.sqrtPrice +
      ((TokenPair.paired request.paid ((move.step.amountIn : ℤ) + move.step.fee)
        (-(move.step.amountOut : ℤ))).get token : ℤ) := by
  have hunderway := hadmits.underway h.inBounds (h.stands hadmits.isOpen) hbefore
  have hactive := activeAt_of_course h hadmits hbefore
  have hshifted : pool.reserveAt token next.sqrtPrice = pool.reserveAt token state.sqrtPrice +
      state.liquidity * unitShift token state.sqrtPrice move.step.price := by
    rw [hactive, PositionTable.activeAt, OrderedMap.total_cast, mul_comm, ← OrderedMap.total_mul_left,
      reserveAt, reserveAt, ← OrderedMap.total_add]
    refine OrderedMap.total_congr fun key position hget ↦ ?_
    by_cases hzero : position.liquidity = 0
    · simp only [hzero, Nat.cast_zero, zero_mul, ite_self, mul_zero, add_zero]
    · have hreserve : unitReserve token _ _ next.sqrtPrice = unitReserve token _ _ state.sqrtPrice + _ :=
        rangeReserve_of_moved h hmoved hunderway hlevel.past steps hget hzero token
      rw [hreserve, Nat.cast_ite, Nat.cast_zero]
      split_ifs <;> ring
  have hstep := (hmoved.favourable hunderway hlevel.past).1
  obtain ⟨hpaid, hother⟩ := mul_unitShift state.liquidity hstep.leads
  rw [hshifted]
  by_cases htoken : token = request.paid
  · subst htoken
    have hin := hstep.exactAmount_le
    rw [hpaid, TokenPair.get_paired_self]
    push_cast
    linarith [(Nat.cast_nonneg move.step.fee : (0 : ℚ) ≤ move.step.fee)]
  · obtain rfl := Token.eq_other_of_ne htoken
    have hout := hstep.le_exactAmount
    rw [hother, TokenPair.get_paired_other]
    push_cast
    linarith

/-- Wherever a swap without orders to fill stands, it has brought at least what it added to either
reserve. -/
theorem reserveAt_of_course_le (h : pool.Bookkept) (hadmits : pool.Admits request)
    (hempty : (pool.book.side request.paid.other).levels = .empty)
    (hcourse : SwapState.Course pool request steps state) (token : Token) :
    pool.reserveAt token state.sqrtPrice ≤
      pool.reserveAt token pool.sqrtPrice + ((state.brought request).get token : ℤ) := by
  induction hcourse with
  | start =>
    rw [SwapState.brought_start, Int.cast_zero, add_zero]
    exact le_rfl
  | @advanced steps state next step hbefore _ _ hadvanced ih =>
    have hnone := OrderBook.best?_eq_none hempty state.lastUsedUp
    cases hadvanced with
    | moved hlevel hmoved =>
      have hmove := reserveAt_of_moved_le h hadmits hbefore hlevel hmoved token
      rw [hmoved.brought_eq token]
      push_cast at hmove ⊢
      linarith
    | usedUp hsome => exact absurd (hsome.symm.trans hnone) (Option.some_ne_none _)
    | filledInPart hsome => exact absurd (hsome.symm.trans hnone) (Option.some_ne_none _)

/-- What a swap without orders to fill leaves behind: the positions and the levels on the other side
are the same, and either reserve has risen by no more than what the swap brought. -/
theorem reserveAt_of_swap_le (hreachable : pool.Reachable)
    (hempty : (pool.book.side request.paid.other).levels = .empty) {amounts : TokenPair ℤ}
    (h : swap request pool = .ok amounts after) :
    after.Reachable ∧ after.book.side request.paid = pool.book.side request.paid ∧
      (∀ token price, after.reserveAt token price = pool.reserveAt token price) ∧
      ∀ token, pool.reserveAt token after.sqrtPrice ≤
        pool.reserveAt token pool.sqrtPrice + (amounts.get token : ℤ) := by
  have hrun : (Call.swap request).run pool = .ok amounts after := h
  have hkept := (price_priority hreachable h).kept
  refine ⟨hreachable.of_run hrun, hkept.side_eq, ?_⟩
  obtain ⟨plan, hplan, rfl, rfl⟩ := swap_eq_ok h
  have hplanned := planned_of_planSwap hplan
  constructor
  · intro token price
    rw [reserveAt, reserveAt, applySwap_eq hplanned, positions_midSwap]
  · intro token
    rw [hplanned.amounts_eq]
    exact reserveAt_of_course_le hreachable.bookkept hplanned.admits hempty hplanned.course token

/-- Of two swaps without orders to fill, one after the other and in opposite directions, the second
one pays out no more of the token that was paid in first than was paid in, if it pays in no more of
the other token than was paid out. -/
theorem swap_back_never_profits (hreachable : pool.Reachable)
    (hempty : ∀ sold, (pool.book.side sold).levels = .empty) {there back : SwapRequest}
    (hpaid : back.paid = there.paid.other) {first second : TokenPair ℤ} {between : Pool}
    (hthere : swap there pool = .ok first between) (hback : swap back between = .ok second after)
    (hspent : second.get there.paid.other ≤ -first.get there.paid.other) :
    -second.get there.paid ≤ first.get there.paid := by
  obtain ⟨hbetween, hside, hreserve, hfirst⟩ := reserveAt_of_swap_le hreachable (hempty _) hthere
  have hemptyBack : (between.book.side back.paid.other).levels = .empty := by
    rw [hpaid, Token.other_other, hside]
    exact hempty _
  obtain ⟨-, -, -, hsecond⟩ := reserveAt_of_swap_le hbetween hemptyBack hback
  simp only [hreserve] at hsecond
  -- the reserve of the token that was bought ends where it started, or lower
  have hbought : pool.reserveAt there.paid.other after.sqrtPrice ≤
      pool.reserveAt there.paid.other pool.sqrtPrice := by
    have hspentCast : (second.get there.paid.other : ℚ) ≤ -first.get there.paid.other := by
      exact_mod_cast hspent
    linarith [hfirst there.paid.other, hsecond there.paid.other]
  have hpaidBack := hreachable.bookkept.reserveAt_le hbought
  have hcast : -(second.get there.paid : ℚ) ≤ first.get there.paid := by
    linarith [hfirst there.paid, hsecond there.paid]
  exact_mod_cast hcast

/-- A swap past the end of a range, and one back with all that it bought. -/
theorem swap_back_never_profits_pastFirstRange :
    let between := (Call.swap .pastFirstRange).leaves twoRanges
    ∃ after, swap .pastFirstRange twoRanges = .ok ⟨-5955, 6002⟩ between ∧
      swap ⟨.zero, 5955, minSqrtPrice + 1⟩ between = .ok ⟨5955, -5961⟩ after ∧
      (5961 : ℤ) ≤ 6002 := by
  intro between
  have hempty : ∀ sold, (twoRanges.book.side sold).levels = .empty := by
    intro sold
    cases sold <;> decide +kernel
  have hthere : swap .pastFirstRange twoRanges = .ok ⟨-5955, 6002⟩ between :=
    swap_of_amounts (by decide +kernel)
  have hback := swap_of_amounts
    (by decide +kernel : SwapPlan.amounts <$>
      between.planSwap ⟨.zero, 5955, minSqrtPrice + 1⟩ = .ok ⟨5955, -5961⟩)
  exact ⟨_, hthere, hback,
    swap_back_never_profits twoRanges_reachable hempty rfl hthere hback (by decide)⟩

end Pool

end RangeBook
