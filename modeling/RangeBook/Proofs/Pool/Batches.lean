import Mathlib
import RangeBook.Proofs.Book.Batches
import RangeBook.Proofs.Pool.OrderBacking

/-!
# An order without its level was filled by a swap

An order learns that all of it was filled from its batch: where the level at its tick is of another
batch, or is gone, the order takes itself for filled (`LimitOrder.advance`). But cancelling takes
levels out of the book as well.

Each call keeps the levels and orders at the homes of their batches (`Reachable.housed`), and a call
that detaches an order is a swap that uses its level up (`detached_of_finished`). So along a run
each detached order rested in a level that a swap took whole (`usedUp_of_detached`), and the batches
of levels and orders are what they are taken for (`batches_sound`).
-/

set_option autoImplicit false
set_option relaxedAutoImplicit false

namespace RangeBook

attribute [local irreducible] tickSqrtPrice tickAt

/-! ### Calls on levels and orders -/

/-- Whether a step of a swap takes all that the level at a tick offers, which is of a given batch. -/
def SwapStep.UsesUp (pool : Pool) (sold : Token) (tick : ℤ) (batch : ℕ) : SwapStep → Prop
  | usedUp mark fill => mark = tick ∧ ∃ level, pool.book.level? sold tick = some level ∧
      level.batch = batch ∧ fill.amountOut = level.available
  | _ => False

namespace Call

/-- Whether a call is a swap that takes all that the level at a tick offers, which is of a given
batch. -/
def UsesUp (pool : Pool) (sold : Token) (tick : ℤ) (batch : ℕ) : Call → Prop
  | swap request => request.paid.other = sold ∧ ∃ plan, pool.planSwap request = .ok plan ∧
      ∃ step ∈ plan.steps, step.UsesUp pool sold tick batch
  | _ => False

/-- Whether a call settles an order. -/
def Settles : Call → Prop
  | placeOrder _ _ _ => True
  | cancelOrder _ _ _ => True
  | collectOrder _ _ _ => True
  | _ => False

end Call

namespace Pool

variable {pool after : Pool} {request : SwapRequest} {plan : SwapPlan} {steps : List SwapStep}
  {state : SwapState} {home : ℕ → Token × ℤ} {sold : Token} {key : OrderKey} {order : LimitOrder}
  {call : Call} {brought : TokenPair ℤ}

/-! ### Swaps -/

/-- A swap leaves the levels and orders where they are. -/
theorem housed_of_course (hhome : pool.book.Housed home)
    (hcourse : SwapState.Course pool request steps state) :
    (pool.midSwap request steps state).book.Housed home := by
  induction hcourse with
  | start =>
    rw [midSwap_start]
    exact hhome
  | @advanced steps state next step _ _ _ hadvanced ih =>
    cases hadvanced with
    | moved =>
      rw [book_of_moved pool request steps state]
      exact ih
    | @usedUp tick level fill _ hbest hfilled _ _ =>
      rw [midSwap_of_filled steps (.usedUp tick fill) hfilled rfl]
      exact ih.setSide ((ih request.paid.other).withoutLevel tick)
    | @filledInPart tick level fill unfilled _ hbest hfilled _ _ _ =>
      rw [midSwap_of_filled steps
        (.filledInPart tick fill (SwapState.leftOf level fill unfilled)) hfilled rfl]
      have hlevel := (hhome request.paid.other).levels tick level (OrderBook.best?_eq_some hbest).1
      exact ih.setSide ((ih request.paid.other).withLevel hlevel)

/-- A step of a swap detaches the orders that rest in the level that it uses up, and no others. -/
theorem detached_of_advanced (hbook : pool.book.Sound)
    (hcovered : Covered pool request steps state) (hgoing : ∀ step ∈ steps, ¬step.IsLast)
    {step : SwapStep} {next : SwapState} (hadvanced : SwapState.Advanced pool request state step next)
    (hdetached : ((pool.midSwap request (steps ++ [step]) next).book.side sold).Detached key order) :
    ((pool.midSwap request steps state).book.side sold).Detached key order ∨
      (pool.book.order? sold key = some order ∧ request.paid.other = sold ∧
        step.UsesUp pool sold key.tick order.batch) := by
  cases hadvanced with
  | moved =>
    rw [book_of_moved pool request steps state] at hdetached
    exact .inl hdetached
  | @usedUp tick level fill _ hbest hfilled hunfilled _ =>
    rw [midSwap_of_filled steps (.usedUp tick fill) hfilled rfl] at hdetached
    rcases OrderBook.detached_of_setSide hdetached with ⟨rfl, hside⟩ | hbefore
    · rcases hside.of_withoutLevel with hbefore | ⟨htick, horder, found, hfound, hbatch⟩
      · exact .inl hbefore
      · obtain rfl := Option.some.inj ((hcovered.level_eq hgoing hbest).symm.trans hfound)
        have hlevel := (OrderBook.best?_eq_some hbest).1
        have hout := ((bounded_of_filled hbook hbest hfilled).2.whole hunfilled).1
        rw [hcovered.orders_eq] at horder
        exact .inr ⟨horder, rfl, htick.symm, level, htick ▸ hlevel, hbatch, hout⟩
    · exact .inl hbefore
  | @filledInPart tick level fill unfilled _ hbest hfilled _ _ _ =>
    rw [midSwap_of_filled steps
      (.filledInPart tick fill (SwapState.leftOf level fill unfilled)) hfilled rfl] at hdetached
    rcases OrderBook.detached_of_setSide hdetached with ⟨rfl, hside⟩ | hbefore
    · have hbatch : (SwapState.leftOf level fill unfilled).batch = level.batch := rfl
      exact .inl (Side.Detached.of_withLevel (hcovered.level_eq hgoing hbest) hbatch hside)
    · exact .inl hbefore

/-- Wherever a swap stands, the orders that it has detached rested in levels that it used up. -/
theorem detached_of_course (h : pool.Bookkept) (hbook : pool.book.Sound)
    (hplanned : pool.Planned request plan) (hcourse : SwapState.Course pool request steps state)
    (hdetached : ((pool.midSwap request steps state).book.side sold).Detached key order) :
    (pool.book.side sold).Detached key order ∨ (pool.book.order? sold key = some order ∧
      request.paid.other = sold ∧ ∃ step ∈ steps, step.UsesUp pool sold key.tick order.batch) := by
  induction hcourse with
  | start =>
    rw [midSwap_start] at hdetached
    exact .inl hdetached
  | @advanced steps state next step hbefore hgoing _ hadvanced ih =>
    have hcovered := covered_of_course h hbook hplanned hbefore
    have hsteps : ∀ taken ∈ steps, taken ∈ steps ++ [step] :=
      fun taken ↦ List.mem_append_left [step]
    rcases detached_of_advanced hbook hcovered hgoing hadvanced hdetached with
      hearlier | ⟨horder, hpaid, hused⟩
    · refine (ih hearlier).imp_right fun ⟨horder, hpaid, taken, htaken, hused⟩ ↦ ?_
      exact ⟨horder, hpaid, taken, hsteps taken htaken, hused⟩
    · exact .inr ⟨horder, hpaid, step, List.mem_append_right _ (List.mem_singleton_self _), hused⟩

/-! ### All calls -/

/-- A call that finishes keeps the levels and orders at the homes of their batches. -/
theorem housed_of_finished (hbook : pool.book.Sound) (hhome : pool.book.Housed home)
    (hfinished : Finished pool call brought after) : ∃ home', after.book.Housed home' := by
  cases hfinished with
  | liquidityAdded _ hadjusted =>
    rw [hadjusted.pool_eq]
    exact ⟨home, hhome⟩
  | @liquidityRemoved _ _ _ _ _ between _ hadjusted =>
    change ∃ home', between.book.Housed home'
    rw [hadjusted.pool_eq]
    exact ⟨home, hhome⟩
  | @swapped request plan hplan =>
    have hplanned := planned_of_planSwap hplan
    rw [applySwap_eq hplanned]
    exact ⟨home, housed_of_course hhome hplanned.course⟩
  | orderPlaced _ _ hprice hplace =>
    obtain rfl := orderPrice_eq hprice
    exact OrderBook.housed_of_place hbook hhome hplace
  | orderCancelled _ hprice hcancel =>
    obtain rfl := orderPrice_eq hprice
    exact ⟨home, OrderBook.housed_of_cancel hbook hhome hcancel⟩
  | orderCollected _ hprice hcollect =>
    obtain rfl := orderPrice_eq hprice
    exact ⟨home, OrderBook.housed_of_collect hbook hhome hcollect⟩
  | _ => exact ⟨home, hhome⟩

theorem Reachable.housed (hreachable : pool.Reachable) : ∃ home, pool.book.Housed home := by
  refine @Reachable.of_kept (fun pool ↦ ∃ home, pool.book.Housed home)
    (fun hcreate ↦ ⟨fun _ ↦ (.zero, 0), ?_⟩)
    (fun hbefore ⟨_, hhome⟩ hfinished ↦ housed_of_finished hbefore.sound_book hhome hfinished)
    pool hreachable
  rw [(create_eq_ok hcreate).2.2]
  intro sold
  rw [OrderBook.side_empty]
  exact ⟨fun tick level hget ↦ absurd hget (Option.some_ne_none level).symm,
    fun key order hget ↦ absurd hget (Option.some_ne_none order).symm⟩

/-- A call that detaches an order is a swap that uses up the level in which the order rests. -/
theorem detached_of_finished (h : pool.Bookkept) (hbook : pool.book.Sound)
    (hfinished : Finished pool call brought after)
    (hdetached : (after.book.side sold).Detached key order) :
    (pool.book.side sold).Detached key order ∨
      (pool.book.order? sold key = some order ∧ call.UsesUp pool sold key.tick order.batch) := by
  cases hfinished with
  | liquidityAdded _ hadjusted =>
    rw [hadjusted.pool_eq] at hdetached
    exact .inl hdetached
  | @liquidityRemoved _ _ _ _ _ between _ hadjusted =>
    change (between.book.side sold).Detached key order at hdetached
    rw [hadjusted.pool_eq] at hdetached
    exact .inl hdetached
  | @swapped request plan hplan =>
    have hplanned := planned_of_planSwap hplan
    rw [applySwap_eq hplanned] at hdetached
    refine (detached_of_course h hbook hplanned hplanned.course hdetached).imp_right ?_
    exact fun ⟨horder, hpaid, hsteps⟩ ↦ ⟨horder, hpaid, plan, hplan, hsteps⟩
  | orderPlaced _ _ hprice hplace =>
    obtain rfl := orderPrice_eq hprice
    exact .inl ((OrderBook.tended_of_place hbook hplace).detached_of hdetached)
  | orderCancelled _ hprice hcancel =>
    obtain rfl := orderPrice_eq hprice
    exact .inl ((OrderBook.tended_of_cancel hbook hcancel).detached_of hdetached)
  | orderCollected _ hprice hcollect =>
    obtain rfl := orderPrice_eq hprice
    exact .inl ((OrderBook.tended_of_collect hbook hcollect).detached_of hdetached)
  | _ => exact .inl hdetached

/-- A call that settles an order never finds that its level is less filled than the order saw. -/
theorem settles_inRange (hbook : pool.book.Sound) (hsettles : call.Settles) :
    call.run.FailsOnly (· ≠ .rejected .fractionOutOfRange) pool := by
  have hallowed : ∀ failure ∈ orderPriceFailures, failure ≠ .rejected .fractionOutOfRange := by
    decide
  have hprice := fun tick ↦ (orderPrice_failsOnly pool tick).mono hallowed
  cases call with
  | placeOrder sold key amount =>
    refine .bind (placeOrder_failsOnly (by decide) (by decide) (hprice _) fun price ↦ ?_)
      fun _ _ _ ↦ .pure _
    exact OrderBook.place_inRange hbook sold key amount price _ _
  | cancelOrder sold key amount =>
    refine .bind (cancelOrder_failsOnly (by decide) (hprice _) fun price ↦ ?_)
      fun _ _ _ ↦ .pure _
    exact OrderBook.cancel_inRange hbook sold key amount price _
  | collectOrder sold key requested =>
    refine .bind (collectOrder_failsOnly (by decide) (hprice _) fun price ↦ ?_)
      fun _ _ _ ↦ .pure _
    exact OrderBook.collect_inRange hbook sold key requested price _
  | _ => exact hsettles.elim

/-! ### Runs -/

/-- Along a run that starts without detached orders, each order that is detached rested in a level
that a swap used up. -/
theorem usedUp_of_detached {ledger : Ledger} (hreachable : ledger.pool.Reachable)
    (hnone : ∀ key order, ¬(ledger.pool.book.side sold).Detached key order) {calls : List Call}
    (hdetached : ((ledger.enterAll calls).pool.book.side sold).Detached key order) :
    ∃ earlier call later, calls = earlier ++ call :: later ∧
      (ledger.enterAll earlier).pool.book.order? sold key = some order ∧
      call.UsesUp (ledger.enterAll earlier).pool sold key.tick order.batch := by
  induction calls using List.reverseRecOn with
  | nil => exact absurd hdetached (hnone key order)
  | append_singleton calls call ih =>
    have henter : ledger.enterAll (calls ++ [call]) = (ledger.enterAll calls).enter call :=
      List.foldl_append
    have hearlier : ((ledger.enterAll calls).pool.book.side sold).Detached key order →
        ∃ earlier found later, calls ++ [call] = earlier ++ found :: later ∧
          (ledger.enterAll earlier).pool.book.order? sold key = some order ∧
          found.UsesUp (ledger.enterAll earlier).pool sold key.tick order.batch := by
      intro hbefore
      obtain ⟨earlier, found, later, rfl, hused⟩ := ih hbefore
      exact ⟨earlier, found, later ++ [call], by rw [List.append_assoc, List.cons_append], hused⟩
    rw [henter] at hdetached
    cases hrun : call.run (ledger.enterAll calls).pool with
    | ok brought after =>
      have hbefore := ledger.reachable_enterAll hreachable calls
      rw [(Ledger.enter_of_ok hrun).1] at hdetached
      rcases detached_of_finished hbefore.bookkept hbefore.sound_book (Call.finished_of_run hrun)
        hdetached with hbefore | hused
      · exact hearlier hbefore
      · exact ⟨calls, call, [], rfl, hused⟩
    | error failure after =>
      rw [Ledger.enter_of_error hrun] at hdetached
      exact hearlier hdetached

/-- What the batches of levels and orders are taken for, in a pool that a run of calls has
reached. -/
structure BatchesSound (pool : Pool) (calls : List Call) (reached : Pool) : Prop where
  /-- No two levels are of the same batch, whichever token they sell. -/
  levels_distinct : ∀ sold tick level sold' tick' level',
    reached.book.level? sold tick = some level → reached.book.level? sold' tick' = some level' →
      level.batch = level'.batch → sold = sold' ∧ tick = tick'
  /-- The batches of all levels were given out. -/
  levels_below : ∀ sold tick level, reached.book.level? sold tick = some level →
    level.batch < reached.book.nextBatch
  /-- An order has seen no less of its level unfilled than is unfilled now. -/
  unfilled_le : ∀ sold key order level, reached.book.order? sold key = some order →
    reached.book.level? sold key.tick = some level → level.batch = order.batch →
      level.unfilled ≤ order.lastUnfilled
  /-- So no order asks for more than the whole of it when it is settled. -/
  settle_inRange : ∀ sold key order, reached.book.order? sold key = some order → ∀ price fee,
    order.settle (reached.book.level? sold key.tick) sold price fee ≠
      .error (.rejected .fractionOutOfRange)
  /-- Neither does any call that settles an order. -/
  calls_inRange : ∀ (call : Call) after, call.Settles →
    call.run reached ≠ .error (.rejected .fractionOutOfRange) after
  /-- An order with an amount rests in the level at its tick, or it rested in one that a swap of the
  run took whole. -/
  usedUp : ∀ sold key order, reached.book.order? sold key = some order → 0 < order.amount →
    (∃ level, reached.book.level? sold key.tick = some level ∧ level.batch = order.batch) ∨
      ∃ earlier call later, calls = earlier ++ call :: later ∧
        let before := ((Ledger.start pool).enterAll earlier).pool
        before.book.order? sold key = some order ∧
          call.UsesUp before sold key.tick order.batch
  /-- Cancelling takes a level out only where nothing is left of the other orders of its batch. -/
  cancel_last : ∀ sold key amount returned after, cancelOrder sold key amount reached =
    .ok returned after → ∀ token tick level, reached.book.level? token tick = some level →
      after.book.level? token tick = none → ∀ token' other order,
        (token', other) ≠ (sold, key) → reached.book.order? token' other = some order →
          order.batch = level.batch → order.amount = 0

theorem cancelOrder_tended (hbook : pool.book.Sound) {amount : ℕ} {returned : TokenPair ℕ}
    (h : cancelOrder sold key amount pool = .ok returned after) :
    pool.book.Tended sold key after.book := by
  have hrun : (Call.cancelOrder sold key amount).run pool = .ok (.both 0) after := by
    rw [Call.run, Action.bind_eq_ok]
    exact ⟨returned, after, h, rfl⟩
  cases Call.finished_of_run hrun with
  | orderCancelled _ hprice hcancel =>
    obtain rfl := orderPrice_eq hprice
    exact OrderBook.tended_of_cancel hbook hcancel

/-- After any calls on a new pool batches tell levels apart, orders that rest in their level can be
settled, and an order whose level is gone was filled by a swap that took the whole level. -/
theorem batches_sound {fee tickSpacing : ℕ} (hcreate : Pool.create fee tickSpacing = .ok pool)
    (calls : List Call) :
    BatchesSound pool calls ((Ledger.start pool).enterAll calls).pool := by
  have hstart : (Ledger.start pool).pool.Reachable := .created hcreate
  have hreachable := Ledger.reachable_enterAll (Ledger.start pool) hstart calls
  have hbook := hreachable.sound_book
  obtain ⟨home, hhome⟩ := hreachable.housed
  refine ⟨fun sold tick level sold' tick' level' ↦ hhome.levels_distinct,
    fun sold tick level hlevel ↦ ((hbook sold).levels tick level hlevel).batch_lt,
    fun sold key order level horder hlevel hbatch ↦ ?_,
    fun sold key order horder price fee hfails ↦ ?_,
    fun call after hsettles hfails ↦ settles_inRange hbook hsettles _ after hfails rfl,
    fun sold key order horder hamount ↦ ?_,
    fun sold key amount returned after hcancel token tick level hlevel hgone token' other order
      hother horder hbatch ↦ ?_⟩
  · have hfits := (hbook sold).orders key order horder
    exact Share.value_le_value_iff.mp (hfits.unfilled_le level hlevel hbatch)
  · have hfits := (hbook sold).orders key order horder
    exact hfits.settle_inRange sold price fee _ hfails rfl
  · by_cases hrests : ∃ level, ((Ledger.start pool).enterAll calls).pool.book.level? sold key.tick =
      some level ∧ level.batch = order.batch
    · exact .inl hrests
    refine .inr (usedUp_of_detached hstart (fun key order hdetached ↦ ?_)
      ⟨horder, hamount, fun level hlevel hbatch ↦ hrests ⟨level, hlevel, hbatch⟩⟩)
    have hempty : (Ledger.start pool).pool.book.order? sold key = none := by
      change pool.book.order? sold key = none
      rw [(create_eq_ok hcreate).2.2]
      cases sold <;> rfl
    exact Option.some_ne_none order (hdetached.order_eq.symm.trans hempty)
  · exact (cancelOrder_tended hbook hcancel).amount_eq_zero hhome hlevel hgone hother horder hbatch

/-- A run in which a swap uses up a level, and another order opens a new one at the same tick. -/
def reopenedLevel : List Call := [
  .setFirstPrice q96,
  .placeOrder .one ⟨1, 0⟩ 7000,
  .swap ⟨.zero, 8000, minSqrtPrice + 1⟩,
  .placeOrder .one ⟨2, 0⟩ 500]

theorem batches_sound_reopenedLevel :
    let reached := ((Ledger.start standard).enterAll reopenedLevel).pool
    BatchesSound standard reopenedLevel reached ∧
      (reached.book.order? .one ⟨1, 0⟩).map (fun order ↦ (order.batch, order.amount)) =
        some (0, 7000) ∧
      (reached.book.level? .one 0).map Level.batch = some 1 :=
  ⟨batches_sound create_standard reopenedLevel, by decide +kernel, by decide +kernel⟩

end Pool

end RangeBook
