import Mathlib
import RangeBook.Proofs.Book.Fill
import RangeBook.Proofs.Book.Owners
import RangeBook.Proofs.Book.Queue
import RangeBook.Proofs.Pool.RangeSolvency
import RangeBook.Proofs.Swap.LevelFill

/-!
# What a pool has to hold for its ranges and orders

A swap that fills a level in part pays for the amount that it takes out, but the owners of the
orders earn by the share that it takes. The two need not agree: the share may fall where the amount
is rounded to nothing. The surplus of a fill is what it pays beyond the exact worth of the share
that it takes (`SwapStep.surplus`), and it can be negative.

Apart from that everything errs on the side of the pool. What it has to hold for ranges, for orders
and for the protocol together (`liabilities`) never grows by more than what a call brings less its
surplus (`covered_of_finished`). So over a run what was paid out and the surplus of all fills are
covered by what was taken in (`paidOut_add_surplus_le`).
-/

set_option autoImplicit false
set_option relaxedAutoImplicit false

namespace RangeBook

attribute [local irreducible] tickSqrtPrice tickAt

/-! ### The surplus of fills -/

/-- The exact part of what rests in a level that a fill takes when it leaves the given share. -/
def Level.partTaken (level left : Level) : ℚ :=
  1 - left.unfilled.value / level.unfilled.value

/-- What a fill pays, its fee included, beyond the exact worth of what it fills of the orders at its
tick. -/
def SwapStep.surplus (pool : Pool) (paid : Token) : SwapStep → ℚ
  | moved _ => 0
  | usedUp tick fill =>
    fill.amountIn + fill.fee - (pool.book.side paid.other).restingAt tick *
      Book.charge (Book.tickPrice tick) pool.fee paid
  | filledInPart tick fill left =>
    fill.amountIn + fill.fee - (pool.book.side paid.other).restingAt tick *
      (pool.book.level? paid.other tick).elim 0 (Level.partTaken · left) *
        Book.charge (Book.tickPrice tick) pool.fee paid

/-- The surplus of all fills of a call. -/
def Call.surplus (pool : Pool) (token : Token) : Call → ℚ
  | swap request =>
    match pool.planSwap request with
    | .ok plan =>
      if token = request.paid then (plan.steps.map (SwapStep.surplus pool request.paid)).sum else 0
    | .error _ => 0
  | _ => 0

/-- The surplus of all fills of a run. -/
def Pool.surplus (token : Token) : Pool → List Call → ℚ
  | _, [] => 0
  | pool, call :: calls => call.surplus pool token + Pool.surplus token (call.leaves pool) calls

namespace Pool

variable {pool after : Pool} {request : SwapRequest} {plan : SwapPlan} {steps : List SwapStep}
  {state next : SwapState} {tick : ℤ} {level : Level} {fill : LevelFill} {token : Token}

/-- All that a pool has to hold of a token: for its ranges, for the protocol and for its orders. -/
def liabilities (pool : Pool) (token : Token) : ℚ :=
  pool.claims token + pool.book.claims token pool.fee

/-- A pool with another book. -/
def withBook (pool : Pool) (book : OrderBook) : Pool :=
  { pool with book }

theorem liabilities_withBook (pool : Pool) (book : OrderBook) (token : Token) :
    (pool.withBook book).liabilities token = pool.claims token + book.claims token pool.fee :=
  rfl

/-! ### The course of a swap -/

theorem fee_midSwap (pool : Pool) (request : SwapRequest) (steps : List SwapStep)
    (state : SwapState) : (pool.midSwap request steps state).fee = pool.fee := by
  rw [midSwap, foldl_applyStep_eq]

/-- A fill of a level writes the book of a pool and nothing else. -/
theorem midSwap_of_filled (steps : List SwapStep) (step : SwapStep)
    (hfilled : SwapState.LevelFilled pool request state tick level fill next) {book : OrderBook}
    (hstep : applyStep request.paid (pool.midSwap request steps state) step =
      (pool.midSwap request steps state).withBook book) :
    pool.midSwap request (steps ++ [step]) next =
      (pool.midSwap request steps state).withBook book := by
  rw [midSwap_append pool request steps step state next, hstep, hfilled.state_eq]
  rfl

/-- What holds wherever a swap stands: the levels ahead of it are those of the pool, and what it
has brought, less its surplus, covers what it added to the liabilities. -/
structure Covered (pool : Pool) (request : SwapRequest) (steps : List SwapStep)
    (state : SwapState) : Prop where
  sound : (pool.midSwap request steps state).book.Sound
  orders_eq : ((pool.midSwap request steps state).book.side request.paid.other).orders =
    (pool.book.side request.paid.other).orders
  ahead : (∀ step ∈ steps, ¬step.IsLast) →
    ∀ tick, (∀ mark ∈ state.lastUsedUp, request.paid.Ahead mark tick) →
      (pool.midSwap request steps state).book.level? request.paid.other tick =
        pool.book.level? request.paid.other tick
  covers : ∀ token, (pool.midSwap request steps state).liabilities token +
      (if token = request.paid then (steps.map (SwapStep.surplus pool request.paid)).sum else 0) ≤
    pool.liabilities token + ((state.brought request).get token : ℤ)

/-- A move brings what it adds to the liabilities, and has no surplus. -/
theorem Covered.moved (hcovered : Covered pool request steps state) (h : pool.Bookkept)
    (hplanned : pool.Planned request plan) (hbefore : SwapState.Course pool request steps state)
    {nextLevel? : Option ℕ} {move : RangeMove}
    (hlevel : SwapState.NextLevel pool request state nextLevel?)
    (hmoved : SwapState.RangeMoved pool request state nextLevel? move next) :
    Covered pool request (steps ++ [.moved move]) next := by
  have hbook := pool.book_of_moved request steps state next move
  refine ⟨by rw [hbook]; exact hcovered.sound, by rw [hbook]; exact hcovered.orders_eq,
    fun hgoing tick hahead ↦ ?_, fun token ↦ ?_⟩
  · rw [hbook]
    rw [hmoved.lastUsedUp_eq] at hahead
    exact hcovered.ahead (fun step hstep ↦ hgoing step (List.mem_append_left _ hstep)) tick hahead
  · have hclaims := claims_of_moved_le h hplanned hbefore hlevel hmoved token
    have hcovers := hcovered.covers token
    have hbrought := hmoved.brought_eq token
    rw [liabilities, fee_midSwap] at hcovers ⊢
    rw [hbook, List.map_append, List.sum_append, List.map_singleton, List.sum_singleton,
      SwapStep.surplus, add_zero, hbrought]
    push_cast at hclaims ⊢
    linarith

/-- A fill brings what it adds to the liabilities and its surplus. -/
theorem Covered.covers_filled (hcovered : Covered pool request steps state)
    (hfilled : SwapState.LevelFilled pool request state tick level fill next)
    {step : SwapStep} {book : OrderBook} {worth : ℚ}
    (hmid : pool.midSwap request (steps ++ [step]) next =
      (pool.midSwap request steps state).withBook book)
    (hpaid : book.claims request.paid pool.fee ≤
      (pool.midSwap request steps state).book.claims request.paid pool.fee + worth)
    (hother : book.claims request.paid.other pool.fee ≤
      (pool.midSwap request steps state).book.claims request.paid.other pool.fee +
        -(fill.amountOut : ℚ))
    (hsurplus : step.surplus pool request.paid = fill.amountIn + fill.fee - worth)
    (token : Token) :
    (pool.midSwap request (steps ++ [step]) next).liabilities token +
        (if token = request.paid then
          ((steps ++ [step]).map (SwapStep.surplus pool request.paid)).sum else 0) ≤
      pool.liabilities token + ((next.brought request).get token : ℤ) := by
  have hcovers := hcovered.covers token
  rw [hmid, hfilled.brought_eq token, liabilities_withBook, fee_midSwap]
  rw [liabilities, fee_midSwap] at hcovers
  by_cases htoken : token = request.paid
  · subst htoken
    rw [if_pos rfl] at hcovers ⊢
    rw [List.map_append, List.sum_append, List.map_singleton, List.sum_singleton, hsurplus,
      TokenPair.get_paired_self]
    push_cast
    linarith
  · obtain rfl := Token.eq_other_of_ne htoken
    rw [if_neg htoken] at hcovers ⊢
    rw [TokenPair.get_paired_other]
    push_cast
    linarith

/-- The level that a swap fills is still in the book as it was before the swap. -/
theorem Covered.level_eq (hcovered : Covered pool request steps state)
    (hgoing : ∀ step ∈ steps, ¬step.IsLast)
    (hbest : pool.book.best? request.paid state.lastUsedUp = some (tick, level)) :
    (pool.midSwap request steps state).book.level? request.paid.other tick = some level := by
  obtain ⟨hlevel, hahead⟩ := OrderBook.best?_eq_some hbest
  rw [hcovered.ahead hgoing tick hahead, hlevel]

/-- So are the orders, and what rests of them at its tick. -/
theorem Covered.restingAt_eq (hcovered : Covered pool request steps state)
    (hgoing : ∀ step ∈ steps, ¬step.IsLast)
    (hbest : pool.book.best? request.paid state.lastUsedUp = some (tick, level)) :
    ((pool.midSwap request steps state).book.side request.paid.other).restingAt tick =
      (pool.book.side request.paid.other).restingAt tick := by
  have hlevel : ((pool.midSwap request steps state).book.side request.paid.other).levels.get? tick =
      (pool.book.side request.paid.other).levels.get? tick :=
    (hcovered.level_eq hgoing hbest).trans (OrderBook.best?_eq_some hbest).1.symm
  unfold Side.restingAt
  rw [hcovered.orders_eq]
  refine OrderedMap.total_congr fun key order _ ↦ ?_
  by_cases hkey : key.tick = tick
  · rw [if_pos hkey, if_pos hkey, Side.restingOf, Side.restingOf, hkey, hlevel]
  · rw [if_neg hkey, if_neg hkey]

theorem bounded_of_filled (h : pool.book.Sound)
    (hbest : pool.book.best? request.paid state.lastUsedUp = some (tick, level))
    (hfilled : SwapState.LevelFilled pool request state tick level fill next) :
    level.available < twoPow 128 ∧
      LevelFill.Bounded (Book.tickPrice tick) level.available level.unfilled pool.fee request.paid
        fill := by
  obtain ⟨price, hprice, hcompute⟩ := hfilled.compute_eq
  have hlevel := (OrderBook.best?_eq_some hbest).1
  have havailable := ((h request.paid.other).levels tick level hlevel).available_lt
  rw [Book.priceAt_eq hprice] at hcompute
  exact ⟨havailable, LevelFill.bounded_of_compute (lt_trans havailable (by decide)) hcompute⟩

theorem available_leftOf (hwidth : level.available < twoPow 128)
    (hle : fill.amountOut ≤ level.available) (unfilled : Share) :
    (SwapState.leftOf level fill unfilled).available = level.available - fill.amountOut := by
  have hwrap : wrap128 fill.amountOut = fill.amountOut :=
    Nat.mod_eq_of_lt (lt_of_le_of_lt hle hwidth)
  rw [SwapState.leftOf, hwrap]

theorem Covered.usedUp (hcovered : Covered pool request steps state) (h : pool.book.Sound)
    (hgoing : ∀ step ∈ steps, ¬step.IsLast)
    (hbest : pool.book.best? request.paid state.lastUsedUp = some (tick, level))
    (hfilled : SwapState.LevelFilled pool request state tick level fill next)
    (hunfilled : fill.unfilled? = none) (hlast : next.lastUsedUp = some tick) :
    Covered pool request (steps ++ [.usedUp tick fill]) next := by
  have hlevel := hcovered.level_eq hgoing hbest
  obtain ⟨hsound, hother, hpaid⟩ := OrderBook.claims_removeLevel hcovered.sound hlevel pool.fee
  have hmid := midSwap_of_filled steps (.usedUp tick fill) hfilled rfl
  have hout := ((bounded_of_filled h hbest hfilled).2.whole hunfilled).1
  rw [Token.other_other, hcovered.restingAt_eq hgoing hbest] at hpaid
  rw [← hout] at hother
  refine ⟨by rw [hmid]; exact hsound, ?_, fun _ other hahead ↦ ?_,
    hcovered.covers_filled hfilled hmid hpaid hother rfl⟩
  · rw [hmid, ← hcovered.orders_eq]
    exact (congrArg Side.orders (OrderBook.side_removeLevel _ _ _)).trans rfl
  have hpast : request.paid.Ahead tick other := hahead tick (by rw [hlast]; rfl)
  have hsame : (pool.midSwap request (steps ++ [.usedUp tick fill]) next).book.level?
      request.paid.other other =
        (pool.midSwap request steps state).book.level? request.paid.other other := by
    rw [hmid]
    change (((pool.midSwap request steps state).book.removeLevel request.paid.other tick).side
      request.paid.other).levels.get? other = _
    rw [OrderBook.side_removeLevel]
    exact OrderedMap.get?_erase_of_ne _ hpast.ne
  rw [hsame]
  refine hcovered.ahead hgoing other fun mark hmark ↦ ?_
  exact ((OrderBook.best?_eq_some hbest).2 mark hmark).trans hpast

theorem Covered.filledInPart (hcovered : Covered pool request steps state) (h : pool.book.Sound)
    (hgoing : ∀ step ∈ steps, ¬step.IsLast)
    (hbest : pool.book.best? request.paid state.lastUsedUp = some (tick, level))
    (hfilled : SwapState.LevelFilled pool request state tick level fill next) {unfilled : Share}
    (hunfilled : fill.unfilled? = some unfilled) :
    Covered pool request
      (steps ++ [.filledInPart tick fill (SwapState.leftOf level fill unfilled)]) next := by
  have hlevel := hcovered.level_eq hgoing hbest
  obtain ⟨hwidth, hbounded⟩ := bounded_of_filled h hbest hfilled
  obtain ⟨hvalue, -, hleft⟩ := hbounded.part unfilled hunfilled
  have havailable : ((SwapState.leftOf level fill unfilled).available : ℚ) =
      level.available - fill.amountOut := by
    rw [available_leftOf hwidth hbounded.amountOut_le, Nat.cast_sub hbounded.amountOut_le]
  obtain ⟨hsound, hother, hpaid⟩ := OrderBook.claims_replaceLevel hcovered.sound
    (SwapState.leftOf level fill unfilled) hlevel rfl hvalue (by rw [havailable]; exact hleft)
    (Nat.sub_le _ _) pool.fee
  have hmid := midSwap_of_filled steps
    (.filledInPart tick fill (SwapState.leftOf level fill unfilled)) hfilled rfl
  rw [Token.other_other, hcovered.restingAt_eq hgoing hbest] at hpaid
  rw [havailable, sub_sub_cancel_left] at hother
  refine ⟨by rw [hmid]; exact hsound, ?_, fun hnone ↦ ?_,
    hcovered.covers_filled hfilled hmid hpaid hother ?_⟩
  · rw [hmid, ← hcovered.orders_eq]
    exact (congrArg Side.orders (OrderBook.side_replaceLevel _ _ _ _)).trans rfl
  · exact absurd trivial (hnone _ (List.mem_append_right _ (List.mem_singleton_self _)))
  · rw [SwapStep.surplus, (OrderBook.best?_eq_some hbest).1, Option.elim_some, Level.partTaken]

theorem covered_of_course (h : pool.Bookkept) (hbook : pool.book.Sound)
    (hplanned : pool.Planned request plan) (hcourse : SwapState.Course pool request steps state) :
    Covered pool request steps state := by
  induction hcourse with
  | start =>
    refine ⟨by rw [midSwap_start]; exact hbook, by rw [midSwap_start],
      fun _ _ _ ↦ by rw [midSwap_start], fun token ↦ ?_⟩
    rw [midSwap_start, SwapState.brought_start, List.map_nil, List.sum_nil, ite_self,
      Int.cast_zero]
  | advanced hbefore hgoing _ hadvanced ih =>
    cases hadvanced with
    | moved hlevel hmoved => exact ih.moved h hplanned hbefore hlevel hmoved
    | usedUp hbest hfilled hunfilled hlast =>
      exact ih.usedUp hbook hgoing hbest hfilled hunfilled hlast
    | filledInPart hbest hfilled hunfilled _ _ =>
      exact ih.filledInPart hbook hgoing hbest hfilled hunfilled

/-! ### All calls -/

theorem orderPrice_eq {price : ℕ} (h : pool.orderPrice tick = .ok price) :
    price = Book.tickPrice tick := by
  unfold orderPrice at h
  obtain ⟨_, -, h⟩ := bind_eq_ok.mp h
  obtain ⟨found, hfound, h⟩ := bind_eq_ok.mp h
  obtain ⟨_, -, h⟩ := bind_eq_ok.mp h
  obtain rfl := Except.ok.inj h
  exact Book.priceAt_eq hfound

/-- Only swaps have a surplus. -/
theorem surplus_eq_zero {call : Call} (h : ∀ request, call ≠ .swap request) (token : Token) :
    call.surplus pool token = 0 := by
  cases call with
  | swap request => exact absurd rfl (h request)
  | _ => rfl

/-- A call that writes the book and nothing else adds to the liabilities what it adds to the claims
of the orders. -/
theorem liabilities_withBook_le {book : OrderBook} {call : Call} {added : ℤ}
    (hsurplus : call.surplus pool token = 0)
    (hclaims : book.claims token pool.fee ≤ pool.book.claims token pool.fee + added) :
    (pool.withBook book).liabilities token + call.surplus pool token ≤
      pool.liabilities token + added := by
  rw [hsurplus, liabilities_withBook, liabilities]
  linarith

theorem get_paired_paidIn (sold : Token) (amount : ℕ) (token : Token) :
    (TokenPair.paired sold amount 0).paidIn.get token = if token = sold then (amount : ℤ) else 0 := by
  cases token <;> cases sold <;> rfl

/-- Every call keeps the book sound, and brings at least what it adds to the liabilities and its
surplus. -/
theorem covered_of_finished (h : pool.Bookkept) (hbook : pool.book.Sound) {call : Call}
    {brought : TokenPair ℤ} (hfinished : Finished pool call brought after) :
    after.book.Sound ∧ ∀ token, after.liabilities token + call.surplus pool token ≤
      pool.liabilities token + (brought.get token : ℤ) := by
  by_cases htouches : call.TouchesBook
  · cases hfinished with
    | @swapped request plan hplan =>
      have hplanned := planned_of_planSwap hplan
      have hcovered := covered_of_course h hbook hplanned hplanned.course
      rw [applySwap_eq hplanned, hplanned.amounts_eq]
      refine ⟨hcovered.sound, fun token ↦ ?_⟩
      rw [Call.surplus, hplan]
      exact hcovered.covers token
    | @orderPlaced sold key amount price book _ _ hprice hplace =>
      obtain rfl := orderPrice_eq hprice
      obtain ⟨hsound, hclaims⟩ := OrderBook.sound_of_place hbook hplace
      refine ⟨hsound, fun token ↦ liabilities_withBook_le rfl ?_⟩
      rw [get_paired_paidIn]
      exact_mod_cast hclaims token
    | @orderCancelled sold key amount price taken book _ hprice hcancel =>
      obtain rfl := orderPrice_eq hprice
      obtain ⟨hsound, hclaims⟩ := OrderBook.sound_of_cancel hbook hcancel
      refine ⟨hsound, fun token ↦ liabilities_withBook_le rfl ?_⟩
      rw [get_both, Int.cast_zero, add_zero]
      exact hclaims token
    | @orderCollected sold key requested paid price book _ hprice hcollect =>
      obtain rfl := orderPrice_eq hprice
      obtain ⟨hsound, hclaims⟩ := OrderBook.sound_of_collect hbook hcollect
      refine ⟨hsound, fun token ↦ liabilities_withBook_le rfl ?_⟩
      rw [get_givenOut, Int.cast_neg, Int.cast_natCast, ← sub_eq_add_neg]
      exact le_sub_iff_add_le.mpr (hclaims token)
    | _ => exact absurd htouches id
  · obtain ⟨hsame, hclaims⟩ := claims_le_of_untouched h htouches hfinished
    refine ⟨by rw [hsame]; exact hbook, fun token ↦ ?_⟩
    have htoken := hclaims token
    have hother : ∀ request, call ≠ .swap request :=
      fun request heq ↦ htouches (by rw [heq]; trivial)
    rw [surplus_eq_zero hother, liabilities, liabilities, hsame, (settings_of_finished hfinished).1]
    linarith

theorem sound_empty : OrderBook.empty.Sound := by
  intro sold
  rw [OrderBook.side_empty]
  exact ⟨fun tick level hget ↦ absurd hget (Option.some_ne_none level).symm,
    fun key order hget ↦ absurd hget (Option.some_ne_none order).symm, fun _ ↦ le_rfl⟩

theorem create_eq_ok {fee tickSpacing : ℕ} (h : Pool.create fee tickSpacing = .ok pool) :
    pool.positions = .empty ∧ pool.protocolFees = .both 0 ∧ pool.book = .empty := by
  obtain ⟨-, -, _, -, rfl⟩ := created_of_create h
  exact ⟨rfl, rfl, rfl⟩

theorem Reachable.sound_book (hreachable : pool.Reachable) : pool.book.Sound := by
  refine hreachable.of_kept (fun hcreate ↦ ?_)
    fun hbefore hbook hfinished ↦ (covered_of_finished hbefore.bookkept hbook hfinished).1
  rw [(create_eq_ok hcreate).2.2]
  exact sound_empty

/-! ### Runs -/

theorem surplus_of_error {call : Call} {failure : Failure}
    (hrun : call.run pool = .error failure after) (token : Token) :
    call.surplus pool token = 0 := by
  cases call with
  | swap request =>
    cases hplan : pool.planSwap request with
    | ok plan =>
      have hswap : (Call.swap request).run pool = .ok plan.amounts _ := swap_of_planSwap hplan
      rw [hrun] at hswap
      exact absurd hswap (by simp)
    | error => rw [Call.surplus, hplan]
  | _ => rfl

/-- Over a run, the balance grows by at least what the liabilities grow by and the surplus. -/
theorem liabilities_enterAll_le (ledger : Ledger) (hreachable : ledger.pool.Reachable)
    (calls : List Call) (token : Token) :
    (ledger.enterAll calls).pool.liabilities token + ledger.pool.surplus token calls -
        (ledger.enterAll calls).balance token ≤
      ledger.pool.liabilities token - ledger.balance token := by
  induction calls generalizing ledger with
  | nil => exact le_of_eq (by rw [surplus, add_zero]; rfl)
  | cons call calls ih =>
    have hnext := ledger.reachable_enter hreachable call
    have hrest := ih (ledger.enter call) hnext
    have hfirst : (ledger.enter call).pool.liabilities token + call.surplus ledger.pool token -
        (ledger.enter call).balance token ≤
          ledger.pool.liabilities token - ledger.balance token := by
      cases hrun : call.run ledger.pool with
      | ok brought after =>
        obtain ⟨hafter, hbalance⟩ := Ledger.enter_of_ok hrun
        have hcovers := (covered_of_finished hreachable.bookkept hreachable.sound_book
          (Call.finished_of_run hrun)).2 token
        rw [hafter, hbalance token]
        push_cast
        linarith
      | error failure after =>
        rw [Ledger.enter_of_error hrun, surplus_of_error hrun, add_zero]
    rw [surplus, ← Ledger.pool_enter]
    change ((ledger.enter call).enterAll calls).pool.liabilities token + _ -
      ((ledger.enter call).enterAll calls).balance token ≤ _
    linarith

theorem liabilities_nonneg (hreachable : pool.Reachable) (token : Token) :
    0 ≤ pool.liabilities token :=
  add_nonneg (le_trans (Nat.cast_nonneg _) (owed_le_claims hreachable.bookkept token))
    (OrderBook.claims_nonneg hreachable.sound_book token pool.fee)

theorem liabilities_of_create {fee tickSpacing : ℕ}
    (hcreate : Pool.create fee tickSpacing = .ok pool) (token : Token) :
    pool.liabilities token = 0 := by
  obtain ⟨hpositions, hfees, hbook⟩ := create_eq_ok hcreate
  have hclaims : OrderBook.empty.claims token pool.fee = 0 := by
    cases token <;> simp [OrderBook.claims, OrderBook.side, OrderBook.empty, TokenPair.get,
      TokenPair.both, Side.claims, Side.empty]
  rw [liabilities, claims, hpositions, hfees, hbook, hclaims, OrderedMap.total_empty, get_both,
    Nat.cast_zero, add_zero, add_zero]

/-- Over a run, what was paid out and the surplus of all fills are covered by what was taken in. -/
theorem paidOut_add_surplus_le {fee tickSpacing : ℕ}
    (hcreate : Pool.create fee tickSpacing = .ok pool) (calls : List Call) (token : Token) :
    ((Ledger.start pool).enterAll calls).paidOut.get token + pool.surplus token calls ≤
      ((Ledger.start pool).enterAll calls).takenIn.get token := by
  have hreachable : (Ledger.start pool).pool.Reachable := .created hcreate
  have hrun := liabilities_enterAll_le (Ledger.start pool) hreachable calls token
  have hend := liabilities_nonneg (Ledger.reachable_enterAll _ hreachable calls) token
  have hstart : (Ledger.start pool).pool.liabilities token = 0 := liabilities_of_create hcreate token
  have hbalance : (Ledger.start pool).balance token = 0 := by cases token <;> rfl
  rw [hstart, hbalance] at hrun
  unfold Ledger.balance at hrun
  push_cast at hrun
  change _ + (Ledger.start pool).pool.surplus token calls ≤ _
  linarith

end Pool

end RangeBook
