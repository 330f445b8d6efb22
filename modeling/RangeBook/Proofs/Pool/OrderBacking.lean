import Mathlib
import RangeBook.Proofs.Book.Stock
import RangeBook.Proofs.Pool.Failure
import RangeBook.Proofs.Pool.OrderLiabilities

/-!
# Orders stay backed

Swaps fill levels without looking at the orders that rest there, and owners change orders one at a
time. All the same the levels of a pool offer exactly what was placed, less what was cancelled and
what swaps filled (`offered_add_taken`), and no level offers less than the exact unfilled amounts
of the orders that rest in it. So an order that is in the book can be cancelled as far as it is
unfilled (`orders_backed`).
-/

set_option autoImplicit false
set_option relaxedAutoImplicit false

namespace RangeBook

attribute [local irreducible] tickSqrtPrice tickAt

/-! ### What calls put into levels and take out of them -/

/-- What a step of a swap takes out of a level. -/
def SwapStep.filled : SwapStep → ℕ
  | moved _ => 0
  | usedUp _ fill => fill.amountOut
  | filledInPart _ fill _ => fill.amountOut

namespace Call

/-- What a call places in orders that sell a token. -/
def placed (sold : Token) : Call → ℕ
  | placeOrder token _ amount => if token = sold then amount else 0
  | _ => 0

/-- What a call takes out of orders that sell a token, for their owners. -/
def cancelled (sold : Token) (pool : Pool) : Call → ℕ
  | cancelOrder token key amount =>
    match Pool.cancelOrder token key amount pool with
    | .ok returned _ => returned.get sold
    | .error _ _ => 0
  | _ => 0

/-- What a call takes out of orders that sell a token, for a swap. -/
def filled (sold : Token) (pool : Pool) : Call → ℕ
  | swap request =>
    match pool.planSwap request with
    | .ok plan => if request.paid.other = sold then (plan.steps.map SwapStep.filled).sum else 0
    | .error _ => 0
  | _ => 0

theorem counts_of_untouched {call : Call} (h : ¬call.TouchesBook) (sold : Token) (pool : Pool) :
    call.placed sold = 0 ∧ call.cancelled sold pool = 0 ∧ call.filled sold pool = 0 := by
  cases call with
  | swap | placeOrder | cancelOrder | collectOrder => exact absurd trivial h
  | _ => exact ⟨rfl, rfl, rfl⟩

end Call

namespace Pool

/-- The sum over the calls of a run that finish. -/
def tally (count : Pool → Call → ℕ) : Pool → List Call → ℕ
  | _, [] => 0
  | pool, call :: calls =>
    (if call.finishes pool then count pool call else 0) + tally count (call.leaves pool) calls

variable {pool after : Pool} {request : SwapRequest} {plan : SwapPlan} {steps : List SwapStep}
  {state : SwapState} {sold token : Token} {key : OrderKey} {amount cap : ℕ}

/-! ### Swaps -/

/-- Wherever a swap stands it has taken out of the levels what its steps filled. -/
theorem restocked_of_course (h : pool.Bookkept) (hbook : pool.book.Sound)
    (hstocked : pool.book.Stocked cap) (hplanned : pool.Planned request plan)
    (hcourse : SwapState.Course pool request steps state) :
    pool.book.Restocked cap request.paid.other 0 (steps.map SwapStep.filled).sum
      (pool.midSwap request steps state).book := by
  induction hcourse with
  | start =>
    rw [midSwap_start]
    exact .refl hstocked _
  | @advanced steps state next step hbefore hgoing _ hadvanced ih =>
    have hcovered := covered_of_course h hbook hplanned hbefore
    rw [List.map_append, List.sum_append, List.map_singleton, List.sum_singleton]
    cases hadvanced with
    | moved =>
      rw [book_of_moved pool request steps state]
      exact ih
    | @usedUp tick level fill _ hbest hfilled hunfilled _ =>
      have hlevel := hcovered.level_eq hgoing hbest
      have hout := ((bounded_of_filled hbook hbest hfilled).2.whole hunfilled).1
      have hmid := midSwap_of_filled steps (.usedUp tick fill) hfilled rfl
      have hremoved := OrderBook.restocked_removeLevel ih.stocked hlevel
      rw [hmid, SwapStep.filled, hout]
      exact ih.trans hremoved
    | @filledInPart tick level fill unfilled _ hbest hfilled hunfilled _ _ =>
      have hlevel := hcovered.level_eq hgoing hbest
      obtain ⟨hwidth, hbounded⟩ := bounded_of_filled hbook hbest hfilled
      have hpart := (hbounded.part unfilled hunfilled).2.1
      have hleft := available_leftOf hwidth hpart.le unfilled
      have hmid := midSwap_of_filled steps
        (.filledInPart tick fill (SwapState.leftOf level fill unfilled)) hfilled rfl
      have hreplaced := OrderBook.restocked_replaceLevel ih.stocked hlevel
        (SwapState.leftOf level fill unfilled) fill.amountOut (by omega) (by omega)
      rw [hmid, SwapStep.filled]
      exact ih.trans hreplaced

/-! ### All calls -/

theorem cancelOrder_of_cancel {price taken : ℕ} {book : OrderBook} (hopen : pool.IsOpen)
    (hprice : pool.orderPrice key.tick = .ok price)
    (hcancel : pool.book.cancel sold key amount price pool.fee = .ok (taken, book)) :
    cancelOrder sold key amount pool = .ok (.paired sold taken 0) { pool with book } := by
  unfold cancelOrder
  simp only [Action.bind_eq_ok, opened_eq_ok, Action.lift_eq_ok, Action.set_eq_ok,
    Action.pure_eq_ok]
  exact ⟨_, _, ⟨hopen, rfl, rfl⟩, price, _, ⟨hprice, rfl⟩, (taken, book), _, ⟨hcancel, rfl⟩, (), _,
    rfl, rfl, rfl⟩

/-- What a change of one side does to what is offered in either token. -/
theorem offered_of_restocked {book between : OrderBook} {added taken : ℕ}
    (h : book.Restocked cap sold added taken between) (token : Token) :
    between.offered token + (if sold = token then taken else 0) =
      book.offered token + if sold = token then added else 0 := by
  by_cases htoken : token = sold
  · rw [htoken, if_pos rfl, if_pos rfl]
    exact h.offered_eq
  · rw [if_neg (Ne.symm htoken), if_neg (Ne.symm htoken), Token.eq_other_of_ne htoken]
    exact congrArg (· + 0) h.offered_other_eq

/-- A call that finishes keeps the levels stocked. What they offer grows by what is placed and falls
by what is cancelled and filled. -/
theorem offered_of_finished (h : pool.Bookkept) (hbook : pool.book.Sound)
    (hstocked : pool.book.Stocked pool.liquidityCap) {call : Call} {brought : TokenPair ℤ}
    (hfinished : Finished pool call brought after) :
    after.book.Stocked after.liquidityCap ∧ ∀ sold,
      after.book.offered sold + call.cancelled sold pool + call.filled sold pool =
        pool.book.offered sold + call.placed sold := by
  rw [(settings_of_finished hfinished).2.2]
  by_cases htouches : call.TouchesBook
  · cases hfinished with
    | @swapped request plan hplan =>
      have hplanned := planned_of_planSwap hplan
      have hrestocked := restocked_of_course h hbook hstocked hplanned hplanned.course
      rw [applySwap_eq hplanned]
      refine ⟨hrestocked.stocked, fun token ↦ ?_⟩
      have hoffered := offered_of_restocked hrestocked token
      rw [ite_self] at hoffered
      rw [Call.filled, hplan]
      exact hoffered
    | @orderPlaced sold key amount price book _ hpos _ hplace =>
      have hrestocked := OrderBook.restocked_of_place hstocked hpos hplace
      refine ⟨hrestocked.stocked, fun token ↦ ?_⟩
      have hoffered := offered_of_restocked hrestocked token
      rw [ite_self] at hoffered
      exact hoffered
    | @orderCancelled sold key amount price taken book hopen hprice hcancel =>
      have hrestocked := OrderBook.restocked_of_cancel hstocked hcancel
      refine ⟨hrestocked.stocked, fun token ↦ ?_⟩
      have hoffered := offered_of_restocked hrestocked token
      have hreturned : (TokenPair.paired sold taken 0).get token =
          if sold = token then taken else 0 := by
        cases sold <;> cases token <;> rfl
      rw [ite_self] at hoffered
      rw [Call.cancelled, cancelOrder_of_cancel hopen hprice hcancel]
      dsimp only
      rw [hreturned]
      exact hoffered
    | orderCollected _ _ hcollect =>
      have hrestocked := OrderBook.restocked_of_collect hstocked hcollect
      refine ⟨hrestocked.stocked, fun token ↦ ?_⟩
      have hoffered := offered_of_restocked hrestocked token
      rw [ite_self] at hoffered
      exact hoffered
    | _ => exact absurd htouches id
  · obtain ⟨hsame, -⟩ := claims_le_of_untouched h htouches hfinished
    rw [hsame]
    refine ⟨hstocked, fun sold ↦ ?_⟩
    obtain ⟨hplaced, hcancelled, hfilled⟩ := Call.counts_of_untouched htouches sold pool
    rw [hplaced, hcancelled, hfilled]

theorem stocked_empty (cap : ℕ) : OrderBook.empty.Stocked cap := by
  intro sold tick level hlevel
  rw [OrderBook.side_empty] at hlevel
  exact absurd hlevel (Option.some_ne_none level).symm

theorem Reachable.stocked (hreachable : pool.Reachable) : pool.book.Stocked pool.liquidityCap := by
  refine hreachable.of_kept (fun hcreate ↦ ?_) fun hbefore hstocked hfinished ↦
    (offered_of_finished hbefore.bookkept hbefore.sound_book hstocked hfinished).1
  rw [(create_eq_ok hcreate).2.2]
  exact stocked_empty _

/-! ### Runs -/

/-- Over a run, what the levels offer in the end and what was taken out of them is what they offered
in the beginning and what was placed. -/
theorem offered_add_taken (ledger : Ledger) (hreachable : ledger.pool.Reachable)
    (calls : List Call) (sold : Token) :
    (ledger.enterAll calls).pool.book.offered sold +
        ledger.pool.tally (Call.cancelled sold) calls +
          ledger.pool.tally (Call.filled sold) calls =
      ledger.pool.book.offered sold + ledger.pool.tally (fun _ ↦ Call.placed sold) calls := by
  induction calls generalizing ledger with
  | nil => rfl
  | cons call calls ih =>
    have hnext := ledger.reachable_enter hreachable call
    have hrest := ih (ledger.enter call) hnext
    change ((ledger.enter call).enterAll calls).pool.book.offered sold + _ + _ = _
    rw [tally, tally, tally, ← Ledger.pool_enter]
    cases hrun : call.run ledger.pool with
    | ok brought after =>
      have hfinishes : call.finishes ledger.pool = true := by rw [Call.finishes, hrun]
      have hcall := (offered_of_finished hreachable.bookkept hreachable.sound_book
        hreachable.stocked (Call.finished_of_run hrun)).2 sold
      rw [← (Ledger.enter_of_ok hrun).1] at hcall
      rw [if_pos hfinishes, if_pos hfinishes, if_pos hfinishes]
      omega
    | error failure after =>
      have hfails : ¬call.finishes ledger.pool = true := by
        rw [Call.finishes, hrun]
        exact Bool.false_ne_true
      rw [Ledger.enter_of_error hrun] at hrest ⊢
      rw [if_neg hfails, if_neg hfails, if_neg hfails]
      omega

/-! ### Cancellations -/

/-- Cancelling an order that is in the book does not fail because anything is missing. -/
theorem cancelOrder_noShortage (hbook : pool.book.Sound) {order : LimitOrder}
    (horder : pool.book.order? sold key = some order) (amount : ℕ) :
    (cancelOrder sold key amount).FailsOnly (¬·.IsShortage) pool := by
  have hallowed : ∀ failure ∈ orderPriceFailures, ¬failure.IsShortage := by decide
  refine cancelOrder_failsOnly (by decide) ?_ fun price ↦ ?_
  · exact (orderPrice_failsOnly pool key.tick).mono hallowed
  · exact OrderBook.cancel_noShortage hbook horder amount price pool.fee

/-- At every point of a run each level offers something, no more than the cap and no less than what
rests at its tick; all levels together offer what was placed less what was cancelled and filled; and
cancelling an order never fails because the order or an amount is missing. -/
theorem orders_backed {fee tickSpacing : ℕ} (hcreate : Pool.create fee tickSpacing = .ok pool)
    (calls : List Call) (sold : Token) :
    let reached := ((Ledger.start pool).enterAll calls).pool
    (∀ tick level, reached.book.level? sold tick = some level →
      0 < level.available ∧ level.available ≤ reached.liquidityCap ∧
        (reached.book.side sold).restingAt tick ≤ level.available) ∧
    reached.book.offered sold + pool.tally (Call.cancelled sold) calls +
        pool.tally (Call.filled sold) calls =
      pool.tally (fun _ ↦ Call.placed sold) calls ∧
    ∀ key order, reached.book.order? sold key = some order → ∀ amount failure after,
      cancelOrder sold key amount reached = .error failure after →
        failure ≠ .rejected .liquidityUnderflow ∧ failure ≠ .rejected .orderNotFound := by
  intro reached
  have hstart : (Ledger.start pool).pool.Reachable := .created hcreate
  have hreachable : reached.Reachable := Ledger.reachable_enterAll _ hstart calls
  refine ⟨fun tick level hlevel ↦ ?_, ?_, fun key order horder amount failure after hfails ↦ ?_⟩
  · obtain ⟨hpos, hcap⟩ := hreachable.stocked sold tick level hlevel
    have hresting := (hreachable.sound_book sold).resting_le tick
    rw [Side.availableAt_of_get? hlevel] at hresting
    exact ⟨hpos, hcap, hresting⟩
  · have hempty : pool.book.offered sold = 0 := by
      rw [(create_eq_ok hcreate).2.2]
      cases sold <;> rfl
    have hrun := offered_add_taken (Ledger.start pool) hstart calls sold
    change _ = pool.book.offered sold + _ at hrun
    rw [hempty, zero_add] at hrun
    exact hrun
  · have hshortage := cancelOrder_noShortage hreachable.sound_book horder amount _ _ hfails
    exact ⟨fun heq ↦ hshortage (.inr heq), fun heq ↦ hshortage (.inl heq)⟩

/-- A run in which a swap fills a part of two orders at a tick, and one of them is cancelled for a
part of the rest. -/
def partlyCancelled : List Call := [
  .setFirstPrice q96,
  .placeOrder .one ⟨1, 0⟩ 7000,
  .placeOrder .one ⟨2, 0⟩ 500,
  .swap ⟨.zero, 1000, minSqrtPrice + 1⟩,
  .cancelOrder .one ⟨1, 0⟩ 100]

theorem orders_backed_partlyCancelled :
    let reached := ((Ledger.start standard).enterAll partlyCancelled).pool
    (∃ level, reached.book.level? .one 0 = some level ∧ 0 < level.available ∧
      level.available ≤ reached.liquidityCap ∧
        (reached.book.side .one).restingAt 0 ≤ level.available) ∧
    reached.book.offered .one + 100 + 996 = 7500 := by
  intro reached
  obtain ⟨hlevels, hoffered, -⟩ := orders_backed create_standard partlyCancelled .one
  have hcancelled :
      standard.tally (Call.cancelled .one) partlyCancelled = 100 := by
    decide +kernel
  have hfilled : standard.tally (Call.filled .one) partlyCancelled = 996 := by
    decide +kernel
  have hplaced : standard.tally (fun _ ↦ Call.placed .one) partlyCancelled = 7500 := by
    decide +kernel
  have hlevel : (reached.book.level? .one 0).isSome := by decide +kernel
  obtain ⟨level, hlevel⟩ := Option.isSome_iff_exists.mp hlevel
  rw [hcancelled, hfilled, hplaced] at hoffered
  exact ⟨⟨level, hlevel, hlevels 0 level hlevel⟩, hoffered⟩

end Pool

end RangeBook
