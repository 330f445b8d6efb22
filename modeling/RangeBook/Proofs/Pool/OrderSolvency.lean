import Mathlib
import RangeBook.Proofs.Pool.SwapTerms
import RangeBook.Proofs.Swap.PartFill

/-!
# When a pool with orders pays out no more than it took in

Levels that are used up are paid for in full, and so are the parts of levels that a swap of fixed
input takes, as long as their shares have room to be rounded up. What may stay unpaid is a part of
a unit for each fill in part of a fixed output (`SwapStep.shortfall`), at the price of its tick with
the fee on top. The surplus of a fill never falls below that (`surplus_add_shortfall_nonneg`).

So whatever is called, a pool has paid out no more than it took in and the shortfall of all fills.
Amounts are whole, so a run is solvent while its fills have fallen less than one unit short, as runs
of fixed inputs do while shares have room (`order_solvency`). Fixed outputs may fall further short
(`unpaidFills_paid`).
-/

set_option autoImplicit false
set_option relaxedAutoImplicit false

namespace RangeBook

attribute [local irreducible] tickSqrtPrice tickAt

/-- What a step may pay less than the exact worth of what it takes of the orders. -/
def SwapStep.shortfall (pool : Pool) (request : SwapRequest) : SwapStep → ℚ
  | moved _ => 0
  | usedUp _ _ => 0
  | filledInPart tick _ left =>
    left.unfilled.unpaidPart request.amount *
      Book.charge (Book.tickPrice tick) pool.fee request.paid

/-- The shortfall of all fills of a call. -/
def Call.shortfall (pool : Pool) (token : Token) : Call → ℚ
  | swap request =>
    match pool.planSwap request with
    | .ok plan =>
      if token = request.paid then (plan.steps.map (SwapStep.shortfall pool request)).sum else 0
    | .error _ => 0
  | _ => 0

/-- The shortfall of all fills of a run. -/
def Pool.shortfall (token : Token) : Pool → List Call → ℚ
  | _, [] => 0
  | pool, call :: calls => call.shortfall pool token + Pool.shortfall token (call.leaves pool) calls

open SwapState

namespace Pool

variable {pool : Pool} {request : SwapRequest} {plan : SwapPlan} {steps : List SwapStep}
  {state next : SwapState} {tick : ℤ} {level : Level} {fill : LevelFill}

/-! ### Steps -/

/-- No more rests at the tick of the best level than the level offers. -/
theorem restingAt_le_available (h : pool.book.Sound)
    (hbest : pool.book.best? request.paid state.lastUsedUp = some (tick, level)) :
    (pool.book.side request.paid.other).restingAt tick ≤ level.available := by
  have hlevel : (pool.book.side request.paid.other).levels.get? tick = some level :=
    (OrderBook.best?_eq_some hbest).1
  rw [← Side.availableAt_of_get? hlevel]
  exact (h request.paid.other).resting_le tick

/-- Levels that are used up are paid for in full. -/
theorem surplus_usedUp_nonneg (h : pool.book.Sound)
    (hbest : pool.book.best? request.paid state.lastUsedUp = some (tick, level))
    (hfilled : LevelFilled pool request state tick level fill next)
    (hunfilled : fill.unfilled? = none) :
    0 ≤ (SwapStep.usedUp tick fill).surplus pool request.paid := by
  have hcharge := Book.charge_nonneg (Book.tickPrice tick) pool.fee request.paid
  have hpaid := ((bounded_of_filled h hbest hfilled).2.whole hunfilled).2
  have hworth := mul_le_mul_of_nonneg_right (restingAt_le_available h hbest) hcharge
  rw [SwapStep.surplus]
  linarith

/-- A fill in part pays for what it takes of the orders, but for its shortfall. -/
theorem surplus_add_shortfall_filledInPart_nonneg (h : pool.book.Sound)
    (hbest : pool.book.best? request.paid state.lastUsedUp = some (tick, level))
    (hfilled : LevelFilled pool request state tick level fill next) {unfilled : Share}
    (hunfilled : fill.unfilled? = some unfilled)
    (hsign : state.remaining < 0 ↔ request.amount < 0) {step : SwapStep}
    (hstep : step = .filledInPart tick fill (leftOf level fill unfilled)) :
    0 ≤ step.surplus pool request.paid + step.shortfall pool request := by
  have hcharge := Book.charge_nonneg (Book.tickPrice tick) pool.fee request.paid
  obtain ⟨hwidth, hbounded⟩ := bounded_of_filled h hbest hfilled
  obtain ⟨price, hprice, hcompute⟩ := hfilled.compute_eq
  have hpaid := LevelFill.worth_le_of_inPart hwidth hcompute hunfilled
  have hunpaid : unfilled.unpaidPart state.remaining = unfilled.unpaidPart request.amount := by
    simp only [Share.unpaidPart, hsign]
  rw [Book.priceAt_eq hprice, hunpaid] at hpaid
  have htaken : 0 ≤ Level.partTaken level (leftOf level fill unfilled) :=
    sub_nonneg.mpr ((div_le_one level.unfilled.value_pos).mpr (hbounded.part unfilled hunfilled).1)
  have hworth := mul_le_mul_of_nonneg_right
    (mul_le_mul_of_nonneg_right (restingAt_le_available h hbest) htaken) hcharge
  have hsold : level.available * Level.partTaken level (leftOf level fill unfilled) =
      Share.soldInPart level.available level.unfilled unfilled := rfl
  rw [hsold] at hworth
  rw [hstep, SwapStep.surplus, SwapStep.shortfall, (OrderBook.best?_eq_some hbest).1,
    Option.elim_some, leftOf]
  rw [leftOf] at hworth
  linarith

/-- Wherever a swap stands, each of its steps has paid for what it took of the orders, but for its
shortfall. -/
theorem surplus_add_shortfall_step_nonneg (h : pool.Bookkept) (hbook : pool.book.Sound)
    (hadmits : pool.Admits request) (hcourse : Course pool request steps state) :
    ∀ step ∈ steps, 0 ≤ step.surplus pool request.paid + step.shortfall pool request := by
  induction hcourse with
  | start => exact fun step hstep ↦ absurd hstep List.not_mem_nil
  | @advanced steps state next step hbefore hgoing hdone hadvanced ih =>
    intro other hother
    obtain hearlier | hnew := List.mem_append.mp hother
    · exact ih other hearlier
    obtain rfl := List.mem_singleton.mp hnew
    cases hadvanced with
    | moved => exact (add_zero (0 : ℚ)).ge
    | usedUp hbest hfilled hunfilled _ =>
      exact add_nonneg (surplus_usedUp_nonneg hbook hbest hfilled hunfilled) le_rfl
    | filledInPart hbest hfilled hunfilled _ _ =>
      have hwithin := (h.withinAmount hbook hadmits hbefore).1.remaining_between
      have hleft : state.remaining ≠ 0 := fun hnone ↦ hdone (.inl hnone)
      exact surplus_add_shortfall_filledInPart_nonneg hbook hbest hfilled hunfilled (by omega) rfl

/-! ### Runs -/

theorem surplus_add_shortfall_call_nonneg (hreachable : pool.Reachable) (call : Call)
    (token : Token) : 0 ≤ call.surplus pool token + call.shortfall pool token := by
  cases call with
  | swap request =>
    rw [Call.shortfall, Call.surplus]
    cases hplan : pool.planSwap request with
    | error => exact (add_zero (0 : ℚ)).ge
    | ok plan =>
      have hplanned := planned_of_planSwap hplan
      have hsteps := surplus_add_shortfall_step_nonneg hreachable.bookkept hreachable.sound_book
        hplanned.admits hplanned.course
      dsimp only
      split
      · rw [← List.sum_map_add]
        exact List.sum_nonneg (List.forall_mem_map.mpr hsteps)
      · exact (add_zero (0 : ℚ)).ge
  | _ => exact (add_zero (0 : ℚ)).ge

/-- What the fills of a run pay too little is never more than its shortfall. -/
theorem surplus_add_shortfall_nonneg (hreachable : pool.Reachable) (calls : List Call)
    (token : Token) : 0 ≤ pool.surplus token calls + pool.shortfall token calls := by
  induction calls generalizing pool with
  | nil => exact (add_zero (0 : ℚ)).ge
  | cons call calls ih =>
    have hnext : (call.leaves pool).Reachable := by
      have hentered := (Ledger.start pool).reachable_enter hreachable call
      rwa [Ledger.pool_enter] at hentered
    have hfirst := surplus_add_shortfall_call_nonneg hreachable call token
    have hrest := ih hnext
    rw [shortfall, surplus]
    linarith

/-- A fixed input that fills a part of an order has no shortfall, and a fixed output that does has
that of one unit at the price of the order. -/
example :
    standard.shortfall .zero [.setFirstPrice q96, .placeOrder .one ⟨1, 0⟩ 7000,
      .swap ⟨.zero, 1000, minSqrtPrice + 1⟩] = 0 ∧
    standard.shortfall .zero [.setFirstPrice q96, .placeOrder .one ⟨1, 0⟩ 7000,
      .swap ⟨.zero, -1000, minSqrtPrice + 1⟩] = Book.charge (Book.tickPrice 0) 3000 .zero := by
  decide +kernel

/-- At every point of a run a pool has paid out no more of a token than it took in and what the
fills in part may have left unpaid. It has paid out no more than it took in as long as swaps have
paid less than one unit too little for the shares of levels that they took, and so as long as less
than one unit may have been left unpaid. -/
theorem order_solvency {fee tickSpacing : ℕ} (hcreate : Pool.create fee tickSpacing = .ok pool)
    (calls : List Call) (token : Token) :
    let ledger := (Ledger.start pool).enterAll calls
    (ledger.paidOut.get token : ℚ) ≤ ledger.takenIn.get token + pool.shortfall token calls ∧
    (-1 < pool.surplus token calls → ledger.paidOut.get token ≤ ledger.takenIn.get token) ∧
    (pool.shortfall token calls < 1 → ledger.paidOut.get token ≤ ledger.takenIn.get token) := by
  intro ledger
  have hcovered := paidOut_add_surplus_le hcreate calls token
  have hunpaid := surplus_add_shortfall_nonneg (.created hcreate) calls token
  -- amounts are whole, so less than one unit does not count
  have hwhole (hlt : (ledger.paidOut.get token : ℚ) < ledger.takenIn.get token + 1) :
      ledger.paidOut.get token ≤ ledger.takenIn.get token :=
    Nat.lt_succ_iff.mp (by exact_mod_cast hlt)
  refine ⟨by linarith, fun hsurplus ↦ hwhole ?_, fun hshortfall ↦ hwhole ?_⟩
  · linarith
  · linarith

/-- A run in which an order is filled in part twice, once for a fixed input and once for a fixed
output, and its owner collects the proceeds. -/
def paidFills : List Call := [
  .setFirstPrice q96,
  .placeOrder .one ⟨1, 0⟩ 7000,
  .swap ⟨.zero, 1000, minSqrtPrice + 1⟩,
  .swap ⟨.zero, -1000, minSqrtPrice + 1⟩,
  .collectOrder .one ⟨1, 0⟩ ⟨10000, 10000⟩]

/-- A run in which an order is filled in part by a fixed input, and its owner collects the
proceeds. -/
def paidInput : List Call := [
  .setFirstPrice q96,
  .placeOrder .one ⟨1, 0⟩ 7000,
  .swap ⟨.zero, 1000, minSqrtPrice + 1⟩,
  .collectOrder .one ⟨1, 0⟩ ⟨10000, 10000⟩]

theorem order_solvency_paidFills :
    (-1 < standard.surplus .zero paidFills ∧
      let ledger := (Ledger.start standard).enterAll paidFills
      ledger.paidOut.zero ≤ ledger.takenIn.zero ∧ 0 < ledger.paidOut.zero) ∧
    standard.shortfall .zero paidInput < 1 ∧
      let ledger := (Ledger.start standard).enterAll paidInput
      ledger.paidOut.zero ≤ ledger.takenIn.zero ∧ 0 < ledger.paidOut.zero := by
  have hsurplus : -1 < standard.surplus .zero paidFills := by decide +kernel
  have hshortfall : standard.shortfall .zero paidInput < 1 := by decide +kernel
  obtain ⟨-, hfills, -⟩ := order_solvency create_standard paidFills .zero
  obtain ⟨-, -, hinput⟩ := order_solvency create_standard paidInput .zero
  exact ⟨⟨hsurplus, hfills hsurplus, by decide +kernel⟩, hshortfall, hinput hshortfall,
    by decide +kernel⟩

/-- A run in which two swaps each ask for one unit of an order of seven. The share of the order
falls by a seventh each time, but the amount is rounded to nothing, and so is what is paid. -/
def unpaidFills : List Call := [
  .setFirstPrice q96,
  .placeOrder .one ⟨1, 0⟩ 7,
  .swap ⟨.zero, -1, minSqrtPrice + 1⟩,
  .swap ⟨.zero, -1, minSqrtPrice + 1⟩,
  .collectOrder .one ⟨1, 0⟩ ⟨100, 100⟩]

/-- The owner is paid for a fill that nobody paid for. -/
theorem unpaidFills_paid :
    let ledger := (Ledger.start standard).enterAll unpaidFills
    ¬ledger.paidOut.zero ≤ ledger.takenIn.zero ∧ ledger.takenIn.zero = 0 ∧
      standard.surplus .zero unpaidFills ≤ -1 := by
  decide +kernel

end Pool

end RangeBook
