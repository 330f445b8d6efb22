import Mathlib
import RangeBook.Proofs.Pool.OrderLiabilities
import RangeBook.Proofs.Swap.LevelFill

/-!
# What a swap owes to what was asked for

A swap takes the price towards its limit and not past it, takes in one token and gives out the
other, and moves no more than the amount asked for. Wherever it stands, what it has moved and what
is left add up to that amount, and what is left has not changed its sign (`WithinAmount`). Each
step keeps this because it stays within what is left (`Advanced.withinAmount`).

A swap stops short of its limit only where nothing is left, or where it filled a level in part. In
that case an input is still spent in full, and of an output at most one unit is missing: the amount
bought is what the new share of the level says was taken, which is rounded (`swap_terms`).
-/

set_option autoImplicit false
set_option relaxedAutoImplicit false

namespace RangeBook

attribute [local irreducible] tickSqrtPrice tickAt

namespace SwapState

variable {pool : Pool} {request : SwapRequest} {state next : SwapState}

/-! ### What is left to swap -/

theorem brought_paid (state : SwapState) (hinput : request.IsExactInput) :
    (state.brought request).get request.paid = request.amount - state.remaining := by
  rw [brought, Pool.swapAmounts, if_pos hinput, TokenPair.get_paired_self]

theorem brought_bought (state : SwapState) (houtput : ¬request.IsExactInput) :
    (state.brought request).get request.paid.other = request.amount - state.remaining := by
  rw [brought, Pool.swapAmounts, if_neg houtput, TokenPair.get_paired_other]

/-- Whether a swap has only taken in the one token and given out the other, and not more than was
asked for. -/
structure WithinAmount (request : SwapRequest) (state : SwapState) : Prop where
  paid_nonneg : 0 ≤ (state.brought request).get request.paid
  bought_nonpos : (state.brought request).get request.paid.other ≤ 0
  input : request.IsExactInput → 0 ≤ state.remaining
  output : ¬request.IsExactInput → state.remaining ≤ 0

/-- What is left lies between nothing and the amount asked for. -/
theorem WithinAmount.remaining_between (h : WithinAmount request state) :
    (0 ≤ state.remaining ∧ state.remaining ≤ request.amount) ∨
      (request.amount ≤ state.remaining ∧ state.remaining ≤ 0) := by
  by_cases hinput : request.IsExactInput
  · have hpaid := h.paid_nonneg
    rw [brought_paid _ hinput] at hpaid
    exact .inl ⟨h.input hinput, sub_nonneg.mp hpaid⟩
  · have hbought := h.bought_nonpos
    rw [brought_bought _ hinput] at hbought
    exact .inr ⟨sub_nonpos.mp hbought, h.output hinput⟩

theorem withinAmount_start (pool : Pool) (request : SwapRequest) :
    WithinAmount request (.start pool request) := by
  exact ⟨(brought_start pool request _).ge, (brought_start pool request _).le, id,
    fun houtput ↦ (not_le.mp houtput).le⟩

/-- A step that stays within what is left keeps a swap within the amount asked for. -/
theorem WithinAmount.booked (h : WithinAmount request state) (hleft : state.remaining ≠ 0)
    {amountIn fee amountOut : ℕ}
    (hbrought : ∀ token, (next.brought request).get token = (state.brought request).get token +
      (TokenPair.paired request.paid ((amountIn : ℤ) + fee) (-(amountOut : ℤ))).get token)
    (hspent : 0 ≤ state.remaining → amountIn + fee ≤ state.remaining.natAbs)
    (hbought : state.remaining < 0 → amountOut ≤ state.remaining.natAbs) :
    WithinAmount request next := by
  have hpaid := hbrought request.paid
  have hother := hbrought request.paid.other
  rw [TokenPair.get_paired_self] at hpaid
  rw [TokenPair.get_paired_other] at hother
  have hpaidNonneg := h.paid_nonneg
  have hboughtNonpos := h.bought_nonpos
  refine ⟨by omega, by omega, fun hinput ↦ ?_, fun houtput ↦ ?_⟩
  · rw [brought_paid next hinput, brought_paid state hinput] at hpaid
    have hsign := h.input hinput
    have hspent := hspent hsign
    omega
  · rw [brought_bought next houtput, brought_bought state houtput] at hother
    have hsign := h.output houtput
    have hbought := hbought (lt_of_le_of_ne hsign hleft)
    omega

theorem LevelFilled.withinAmount (h : pool.book.Sound) {tick : ℤ} {level : Level}
    {fill : LevelFill}
    (hbest : pool.book.best? request.paid state.lastUsedUp = some (tick, level))
    (hfilled : LevelFilled pool request state tick level fill next)
    (hwithin : WithinAmount request state) (hleft : state.remaining ≠ 0) :
    WithinAmount request next := by
  have hwidth := (Pool.bounded_of_filled h hbest hfilled).1
  obtain ⟨price, -, hcompute⟩ := hfilled.compute_eq
  exact hwithin.booked hleft hfilled.brought_eq
    (fun hinput ↦ LevelFill.spent_le_of_compute hinput hcompute)
    fun houtput ↦ LevelFill.bought_le_of_compute hwidth houtput hcompute

theorem Advanced.withinAmount {step : SwapStep} (hadvanced : Advanced pool request state step next)
    (h : pool.book.Sound) (hunderway : Underway pool request state)
    (hwithin : WithinAmount request state) (hleft : state.remaining ≠ 0) :
    WithinAmount request next := by
  cases hadvanced with
  | moved hlevel hmoved =>
    have hpos := targetPrice_pos hunderway hlevel.past
    exact hwithin.booked hleft hmoved.brought_eq
      (fun hinput ↦ RangeStep.spent_le_of_compute hpos hinput hmoved.compute_eq)
      fun houtput ↦ RangeStep.bought_le_of_compute hpos houtput hmoved.compute_eq
  | usedUp hbest hfilled _ _ => exact hfilled.withinAmount h hbest hwithin hleft
  | filledInPart hbest hfilled _ _ _ => exact hfilled.withinAmount h hbest hwithin hleft

/-- No step takes the price back. -/
theorem Advanced.leads {step : SwapStep} (hadvanced : Advanced pool request state step next)
    (hunderway : Underway pool request state) :
    request.paid.Leads state.sqrtPrice next.sqrtPrice := by
  cases hadvanced with
  | moved hlevel hmoved =>
    rw [hmoved.sqrtPrice_eq]
    exact (hmoved.favourable hunderway hlevel.past).1.leads
  | usedUp _ hfilled _ _ =>
    rw [hfilled.state_eq]
    exact .refl _ _
  | filledInPart _ hfilled _ _ _ =>
    rw [hfilled.state_eq]
    exact .refl _ _

end SwapState

open SwapState

namespace Pool

variable {pool after : Pool} {request : SwapRequest} {plan : SwapPlan} {steps : List SwapStep}
  {state : SwapState}

/-- Wherever a swap stands it is within the amount asked for, and past its starting price. -/
theorem Bookkept.withinAmount (h : pool.Bookkept) (hbook : pool.book.Sound)
    (hadmits : pool.Admits request) (hcourse : Course pool request steps state) :
    WithinAmount request state ∧ request.paid.Leads pool.sqrtPrice state.sqrtPrice := by
  induction hcourse with
  | start => exact ⟨withinAmount_start pool request, .refl _ _⟩
  | advanced hbefore _ hdone hadvanced ih =>
    have hunderway := hadmits.underway h.inBounds (h.stands hadmits.isOpen) hbefore
    have hleft := fun hnone ↦ hdone (.inl hnone)
    exact ⟨hadvanced.withinAmount hbook hunderway ih.1 hleft,
      ih.2.trans (hadvanced.leads hunderway)⟩

/-- Whether a swap ends by filling the level at a tick in part. -/
def EndsInPart (pool : Pool) (request : SwapRequest) (tick : ℤ) (level : Level) : Prop :=
  ∃ plan fill left, pool.planSwap request = .ok plan ∧
    plan.steps.getLast? = some (.filledInPart tick fill left) ∧
    pool.book.level? request.paid.other tick = some level

/-- What holds of the price where a swap ends and of the amounts that it moves: the price has gone
in the direction of the swap and not past the limit, one token is paid and the other is bought, and
neither is more than what was asked for. -/
structure SwapTerms (pool : Pool) (request : SwapRequest) (amounts : TokenPair ℤ)
    (after : Pool) : Prop where
  leads : request.paid.Leads pool.sqrtPrice after.sqrtPrice
  leads_limit : request.paid.Leads after.sqrtPrice request.limit
  paid_nonneg : 0 ≤ amounts.get request.paid
  bought_nonpos : amounts.get request.paid.other ≤ 0
  input_le : request.IsExactInput → amounts.get request.paid ≤ request.amount
  /-- Short of the limit all of an input is spent. -/
  input_eq : request.IsExactInput → after.sqrtPrice ≠ request.limit →
    amounts.get request.paid = request.amount
  output_le : ¬request.IsExactInput → -amounts.get request.paid.other ≤ |request.amount|
  /-- Short of the limit all of an output is bought, or all but one unit where the swap filled a
  level in part, as long as the exponent of its share has room to grow. -/
  output_eq : ¬request.IsExactInput → after.sqrtPrice ≠ request.limit →
    -amounts.get request.paid.other = |request.amount| ∨
      ∃ tick level, pool.EndsInPart request tick level ∧
        (level.unfilled.exponent ≤ twoPow 128 - 1 - 256 →
          -amounts.get request.paid.other + 1 = |request.amount|)

/-- A fill in part leaves nothing of an input, and of an output at most one unit. -/
theorem remaining_of_filledInPart (h : pool.Bookkept) (hbook : pool.book.Sound)
    (hplan : pool.planSwap request = .ok plan) {step : SwapStep}
    (hstep : plan.steps.getLast? = some step) (hlast : step.IsLast) :
    (request.IsExactInput → plan.last.remaining = 0) ∧
      ∃ tick level, pool.EndsInPart request tick level ∧
        (¬request.IsExactInput → level.unfilled.exponent + 256 < twoPow 128 →
          -1 ≤ plan.last.remaining) := by
  have hplanned := planned_of_planSwap hplan
  obtain ⟨front, state, tick, level, fill, unfilled, hbefore, hdone, rfl, hbest, hfilled,
    hunfilled⟩ := hplanned.course.last_filledInPart hstep hlast
  obtain ⟨price, -, hcompute⟩ := hfilled.compute_eq
  have hwithin := (h.withinAmount hbook hplanned.admits hbefore).1
  refine ⟨fun hinput ↦ ?_, tick, level,
    ⟨plan, fill, _, hplan, hstep, (OrderBook.best?_eq_some hbest).1⟩, fun houtput hroom ↦ ?_⟩
  · have hbrought := hfilled.brought_eq request.paid
    rw [brought_paid _ hinput, brought_paid _ hinput, TokenPair.get_paired_self] at hbrought
    have hsign := hwithin.input hinput
    have hspent := LevelFill.spent_eq_of_inPart hsign hcompute hunfilled
    omega
  · have hbrought := hfilled.brought_eq request.paid.other
    rw [brought_bought _ houtput, brought_bought _ houtput, TokenPair.get_paired_other] at hbrought
    have hleft : state.remaining ≠ 0 := fun hnone ↦ hdone (.inl hnone)
    have hsign := lt_of_le_of_ne (hwithin.output houtput) hleft
    have hwidth := (bounded_of_filled hbook hbest hfilled).1
    have hbought := LevelFill.bought_near_of_inPart hwidth hsign hroom hcompute hunfilled
    omega

/-- What a swap moves and where it ends keeps to what was asked for. -/
theorem swap_terms (hreachable : pool.Reachable) {amounts : TokenPair ℤ}
    (h : swap request pool = .ok amounts after) : SwapTerms pool request amounts after := by
  have hbookkept := hreachable.bookkept
  have hbook := hreachable.sound_book
  obtain ⟨plan, hplan, rfl, rfl⟩ := swap_eq_ok h
  have hplanned := planned_of_planSwap hplan
  have hunderway := hplanned.underway hbookkept.inBounds (hbookkept.stands hplanned.isOpen)
    hplanned.course
  obtain ⟨hwithin, hleads⟩ := hbookkept.withinAmount hbook hplanned.admits hplanned.course
  have hprice : (pool.applySwap request.paid plan).sqrtPrice = plan.last.sqrtPrice := rfl
  have hend : plan.last.sqrtPrice ≠ request.limit → plan.last.remaining = 0 ∨
      ∃ step, plan.steps.getLast? = some step ∧ step.IsLast := by
    intro hshort
    exact hplanned.done.imp_left fun hdone ↦ hdone.resolve_right hshort
  rw [← hprice] at hleads hend
  refine ⟨hleads, hunderway.leads_limit, ?_, ?_, fun hinput ↦ ?_, fun hinput hshort ↦ ?_,
    fun houtput ↦ ?_, fun houtput hshort ↦ ?_⟩ <;> rw [hplanned.amounts_eq]
  · exact hwithin.paid_nonneg
  · exact hwithin.bought_nonpos
  · have hsign := hwithin.input hinput
    rw [brought_paid _ hinput]
    omega
  · rw [brought_paid _ hinput]
    obtain hnone | ⟨step, hstep, hlast⟩ := hend hshort
    · rw [hnone, sub_zero]
    · rw [(remaining_of_filledInPart hbookkept hbook hplan hstep hlast).1 hinput, sub_zero]
  · have hsign := hwithin.output houtput
    have hamount : request.amount < 0 := not_le.mp houtput
    rw [brought_bought _ houtput, abs_of_neg hamount]
    omega
  · have hsign := hwithin.output houtput
    have hamount : request.amount < 0 := not_le.mp houtput
    rw [brought_bought _ houtput, abs_of_neg hamount]
    obtain hnone | ⟨step, hstep, hlast⟩ := hend hshort
    · exact .inl (by omega)
    · obtain ⟨-, tick, level, hends, hnear⟩ :=
        remaining_of_filledInPart hbookkept hbook hplan hstep hlast
      by_cases hnone : plan.last.remaining = 0
      · exact .inl (by omega)
      · refine .inr ⟨tick, level, hends, fun hroom ↦ ?_⟩
        have hnear := hnear houtput (by
          have hwidth : 257 ≤ twoPow 128 := by decide
          omega)
        omega

/-- A pool with an order for seven units, as the only thing to trade with. -/
def smallOrder : Pool :=
  ((Ledger.start standard).enterAll [.setFirstPrice q96, .placeOrder .one ⟨1, 0⟩ 7]).pool

/-- One unit of the order is asked for. The swap ends where it started, short of its limit, with a
fill in part, and the unit is missing. -/
theorem swap_terms_smallOrder :
    let request : SwapRequest := ⟨.zero, -1, minSqrtPrice + 1⟩
    ∃ after, swap request smallOrder = .ok ⟨0, 0⟩ after ∧ after.sqrtPrice ≠ request.limit ∧
      SwapTerms smallOrder request ⟨0, 0⟩ after := by
  intro request
  have hreachable : smallOrder.Reachable :=
    Ledger.reachable_enterAll _ (.created create_standard) _
  have hrun : (fun plan : SwapPlan ↦ (plan.amounts, plan.last.sqrtPrice)) <$>
      smallOrder.planSwap request = .ok (⟨0, 0⟩, q96) := by decide +kernel
  cases hplan : smallOrder.planSwap request with
  | error failure =>
    rw [hplan] at hrun
    exact absurd hrun (by simp [Functor.map, Except.map])
  | ok plan =>
    rw [hplan] at hrun
    obtain ⟨hamounts, hprice⟩ := Prod.mk.inj (Except.ok.inj hrun)
    have hswap := swap_of_planSwap hplan
    rw [hamounts] at hswap
    have hshort : plan.last.sqrtPrice ≠ request.limit := by
      rw [hprice]
      decide
    exact ⟨_, hswap, hshort, swap_terms hreachable hswap⟩

end Pool

end RangeBook
