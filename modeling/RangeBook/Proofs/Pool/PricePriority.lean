import Mathlib
import RangeBook.Proofs.Pool.SwapTerms

/-!
# Better priced orders are filled first

A swap fills the levels that it faces from the head of their queue on, and goes past none of them.
So the levels that it uses up are a first part of the queue, the one that it fills in part is the
next one after them, and the rest is left alone, as are the other side, all orders and the batch
that the next level gets. Each of them is filled at a price that is at or better than the one where
the swap ends, and once the price has moved no level that is priced better than it is left
(`price_priority`).

Along a swap the book is that of the pool without the levels that are used up (`FilledInOrder`). A
level is filled when the price has reached it, and a move ends at the price of the next level at the
latest, so that the price never goes past a level that is still in the queue.

The prices of levels are in the order of their ticks because the ticks lie within the bounds, which
every call keeps (`Reachable.levels_inBounds`).
-/

set_option autoImplicit false
set_option relaxedAutoImplicit false

namespace RangeBook

attribute [local irreducible] tickSqrtPrice tickAt

/-! ### The ticks of levels -/

/-- Whether the levels of a book rest at ticks within the bounds. -/
def OrderBook.LevelsInBounds (book : OrderBook) : Prop :=
  ∀ sold tick, (book.level? sold tick).isSome → minTick ≤ tick ∧ tick ≤ maxTick

namespace OrderBook

variable {book after : OrderBook} {sold : Token} {key : OrderKey} {amount price fee cap : ℕ}

/-- A side without levels at new ticks keeps the levels within the bounds. -/
theorem LevelsInBounds.setSide (h : book.LevelsInBounds) {side : Side}
    (hside : ∀ tick, (side.levels.get? tick).isSome →
      (book.level? sold tick).isSome ∨ (minTick ≤ tick ∧ tick ≤ maxTick)) :
    (book.setSide sold side).LevelsInBounds := by
  intro token tick hsome
  unfold level? at hsome
  rcases book.side_setSide sold side book.nextBatch token with ⟨rfl, hset⟩ | ⟨-, hset⟩
  · rw [show (book.setSide token side).side token = side from hset] at hsome
    exact (hside tick hsome).elim (h token tick) id
  · rw [show (book.setSide sold side).side token = book.side token from hset] at hsome
    exact h token tick hsome

theorem levelsInBounds_of_place (h : book.LevelsInBounds)
    (hkey : minTick ≤ key.tick ∧ key.tick ≤ maxTick)
    (hplace : book.place sold key amount price fee cap = .ok after) : after.LevelsInBounds := by
  obtain ⟨level, nextBatch, settled, -, -, -, -, -, rfl⟩ := placed_of_place hplace
  refine h.setSide (fun tick hsome ↦ ?_)
  rcases OrderedMap.isSome_insert hsome with rfl | hstored
  · exact .inr hkey
  · exact .inl hstored

theorem levelsInBounds_of_cancel {taken : ℕ} (h : book.LevelsInBounds)
    (hcancel : book.cancel sold key amount price fee = .ok (taken, after)) :
    after.LevelsInBounds := by
  cases cancelled_of_cancel hcancel with
  | nothing => exact h.setSide fun tick hsome ↦ .inl hsome
  | something _ _ _ hdrained =>
    refine h.setSide (fun tick hsome ↦ .inl ?_)
    cases hdrained with
    | gone => exact OrderedMap.isSome_erase hsome
    | smaller hlevel =>
      rcases OrderedMap.isSome_insert hsome with rfl | hstored
      · rw [level?, hlevel]
        rfl
      · exact hstored

theorem levelsInBounds_of_collect {requested paid : TokenPair ℕ} (h : book.LevelsInBounds)
    (hcollect : book.collect sold key requested price fee = .ok (paid, after)) :
    after.LevelsInBounds := by
  cases collected_of_collect hcollect with
  | nothing => exact h
  | something => exact h.setSide fun tick hsome ↦ .inl hsome

/-- A tick ahead of another has a price that lies in the direction of the swap. -/
theorem leads_of_ahead {paid : Token} {mark tick : ℤ} (h : paid.Ahead mark tick)
    (hmark : minTick ≤ mark ∧ mark ≤ maxTick) (htick : minTick ≤ tick ∧ tick ≤ maxTick) :
    paid.Leads (tickSqrtPrice mark) (tickSqrtPrice tick) := by
  cases paid with
  | zero => exact (tickSqrtPrice_le_iff htick.1 htick.2 hmark.1 hmark.2).mpr (le_of_lt h)
  | one => exact (tickSqrtPrice_le_iff hmark.1 hmark.2 htick.1 htick.2).mpr (le_of_lt h)

theorem LevelsInBounds.of_mem_queue (h : book.LevelsInBounds) {paid : Token} {entry : ℤ × Level}
    (hmem : entry ∈ book.queue paid) : minTick ≤ entry.1 ∧ entry.1 ≤ maxTick := by
  refine h paid.other entry.1 ?_
  rw [mem_queue.mp hmem]
  rfl

end OrderBook

namespace Pool

open SwapState

variable {pool after : Pool} {request : SwapRequest} {steps : List SwapStep}
  {state next : SwapState}

theorem inBounds_of_orderPrice {tick : ℤ} {price : ℕ} (h : pool.orderPrice tick = .ok price) :
    minTick ≤ tick ∧ tick ≤ maxTick := by
  unfold orderPrice at h
  obtain ⟨_, hcheck, -⟩ := bind_eq_ok.mp h
  obtain ⟨hmin, hmax, -⟩ := checkTick_eq_ok.mp hcheck
  exact ⟨hmin, hmax⟩

/-- A swap leaves no levels at new ticks behind. -/
theorem levelsInBounds_of_course (h : pool.book.LevelsInBounds)
    (hcourse : Course pool request steps state) :
    (pool.midSwap request steps state).book.LevelsInBounds := by
  induction hcourse with
  | start =>
    rw [midSwap_start]
    exact h
  | @advanced steps state next step hbefore _ _ hadvanced ih =>
    cases hadvanced with
    | moved _ hmoved =>
      rw [book_of_moved pool request steps state]
      exact ih
    | @usedUp tick level fill _ hbest hfilled _ _ =>
      rw [midSwap_of_filled steps (.usedUp tick fill) hfilled rfl]
      exact ih.setSide (fun tick hsome ↦ .inl (OrderedMap.isSome_erase hsome))
    | @filledInPart tick level fill unfilled _ hbest hfilled _ _ _ =>
      rw [midSwap_of_filled steps (.filledInPart tick fill (leftOf level fill unfilled)) hfilled
        rfl]
      refine ih.setSide (fun other hsome ↦ ?_)
      rcases OrderedMap.isSome_insert hsome with rfl | hstored
      · refine .inr (h request.paid.other other ?_)
        rw [(OrderBook.best?_eq_some hbest).1]
        rfl
      · exact .inl hstored

/-- In every pool that is reached the levels rest at ticks within the bounds. -/
theorem Reachable.levels_inBounds (hreachable : pool.Reachable) : pool.book.LevelsInBounds := by
  refine @Reachable.of_kept (fun pool ↦ pool.book.LevelsInBounds) (fun hcreate ↦ ?_)
    (fun hbefore h hfinished ↦ ?_) pool hreachable
  · rw [(create_eq_ok hcreate).2.2]
    intro sold tick hsome
    cases sold <;> exact absurd hsome Bool.false_ne_true
  · cases hfinished with
    | liquidityAdded _ hadjusted =>
      rw [hadjusted.pool_eq]
      exact h
    | @liquidityRemoved _ _ _ _ _ between _ hadjusted =>
      change between.book.LevelsInBounds
      rw [hadjusted.pool_eq]
      exact h
    | @swapped request plan hplan =>
      have hplanned := planned_of_planSwap hplan
      rw [applySwap_eq hplanned]
      exact levelsInBounds_of_course h hplanned.course
    | orderPlaced _ _ hprice hplace =>
      exact OrderBook.levelsInBounds_of_place h (inBounds_of_orderPrice hprice) hplace
    | orderCancelled _ _ hcancel => exact OrderBook.levelsInBounds_of_cancel h hcancel
    | orderCollected _ _ hcollect => exact OrderBook.levelsInBounds_of_collect h hcollect
    | _ => exact h

/-! ### Fills in the order of the queue -/

/-- Whether a swap that goes on has filled the queue in order: the book is left without the levels
before the place in the queue where it stands, the price has reached each of these, and it has not
gone past any of those that are left, if it has moved at all. -/
structure FilledInOrder (pool : Pool) (request : SwapRequest) (steps : List SwapStep)
    (state : SwapState) : Prop where
  queue_eq : (pool.midSwap request steps state).book.queue request.paid =
    pool.book.queueAfter request.paid state.lastUsedUp
  used : ∃ used, pool.book.queue request.paid =
      used ++ pool.book.queueAfter request.paid state.lastUsedUp ∧
    ∀ entry ∈ used, request.paid.Leads (tickSqrtPrice entry.1) state.sqrtPrice
  kept : pool.book.OrdersKept request.paid (pool.midSwap request steps state).book
  left : state.sqrtPrice ≠ pool.sqrtPrice →
    ∀ entry ∈ pool.book.queueAfter request.paid state.lastUsedUp,
      request.paid.Leads state.sqrtPrice (tickSqrtPrice entry.1)

theorem filledInOrder_start (pool : Pool) (request : SwapRequest) :
    FilledInOrder pool request [] (.start pool request) := by
  refine ⟨?_, ⟨[], ?_, by simp⟩, ?_, fun hmoved ↦ absurd rfl hmoved⟩
  · rw [midSwap_start]
    exact (OrderBook.queueAfter_none _ _).symm
  · exact (OrderBook.queueAfter_none _ _).symm
  · rw [midSwap_start]
    exact .refl _ _

/-- After a move no level that is left is better priced than the price. -/
theorem leads_of_moved (h : pool.book.LevelsInBounds) (hunderway : Underway pool request state)
    {nextLevel? : Option ℕ} {move : RangeMove} (hlevel : NextLevel pool request state nextLevel?)
    (hmoved : RangeMoved pool request state nextLevel? move next) {entry : ℤ × Level}
    (hentry : entry ∈ pool.book.queueAfter request.paid state.lastUsedUp) :
    request.paid.Leads next.sqrtPrice (tickSqrtPrice entry.1) := by
  have hinBounds : ∀ other ∈ pool.book.queueAfter request.paid state.lastUsedUp,
      minTick ≤ other.1 ∧ other.1 ≤ maxTick :=
    fun other hother ↦ h.of_mem_queue (List.mem_of_mem_filter hother)
  have hpast := hlevel.past
  unfold NextLevel at hlevel
  rw [OrderBook.best?_eq_head?] at hlevel
  cases hqueue : pool.book.queueAfter request.paid state.lastUsedUp with
  | nil => simp [hqueue] at hentry
  | cons best rest =>
    simp only [hqueue, List.head?_cons] at hlevel
    obtain ⟨levelPrice, hnext, hprice, -⟩ := hlevel
    have hbest : request.paid.Leads next.sqrtPrice (tickSqrtPrice best.1) := by
      rw [(sqrtPriceAt_eq_ok.mp hprice).2]
      exact hmoved.leads_level hunderway hpast hnext
    have hpairwise := pool.book.pairwise_queueAfter request.paid state.lastUsedUp
    rw [hqueue] at hentry hinBounds hpairwise
    rcases List.mem_cons.mp hentry with rfl | hrest
    · exact hbest
    · have hahead := (List.pairwise_cons.mp hpairwise).1 entry hrest
      exact hbest.trans (OrderBook.leads_of_ahead hahead (hinBounds best List.mem_cons_self)
        (hinBounds entry hentry))

/-- A move passes none of the levels that are left. -/
theorem FilledInOrder.moved (hfilled : FilledInOrder pool request steps state)
    (h : pool.book.LevelsInBounds) (hunderway : Underway pool request state)
    {nextLevel? : Option ℕ} {move : RangeMove} (hlevel : NextLevel pool request state nextLevel?)
    (hmoved : RangeMoved pool request state nextLevel? move next) :
    FilledInOrder pool request (steps ++ [.moved move]) next := by
  obtain ⟨used, hqueue, hused⟩ := hfilled.used
  have hleads := (Advanced.moved hlevel hmoved).leads hunderway
  have hbook := pool.book_of_moved request steps state next
  refine ⟨?_, ⟨used, ?_, fun entry hentry ↦ (hused entry hentry).trans hleads⟩, ?_, ?_⟩
  · rw [hbook, hmoved.lastUsedUp_eq]
    exact hfilled.queue_eq
  · rw [hmoved.lastUsedUp_eq]
    exact hqueue
  · rw [hbook]
    exact hfilled.kept
  · intro _ entry hentry
    rw [hmoved.lastUsedUp_eq] at hentry
    exact leads_of_moved h hunderway hlevel hmoved hentry

/-- A level that is used up is the first one that is left. -/
theorem FilledInOrder.usedUp (hfilled : FilledInOrder pool request steps state) {tick : ℤ}
    {level : Level} {fill : LevelFill}
    (hbest : pool.book.best? request.paid state.lastUsedUp = some (tick, level))
    (hlevel : LevelFilled pool request state tick level fill next)
    (hlast : next.lastUsedUp = some tick) :
    FilledInOrder pool request (steps ++ [.usedUp tick fill]) next := by
  obtain ⟨used, hqueue, hused⟩ := hfilled.used
  obtain ⟨rest, hahead⟩ := OrderBook.queueAfter_eq_cons hbest
  have hrest : pool.book.queueAfter request.paid next.lastUsedUp = rest := by
    rw [hlast]
    exact OrderBook.queueAfter_head hahead
  have hprice : next.sqrtPrice = state.sqrtPrice := by rw [hlevel.state_eq]
  have hbefore := hfilled.queue_eq.trans hahead
  have hmid := midSwap_of_filled steps (.usedUp tick fill) hlevel rfl
  refine ⟨?_, ⟨used ++ [(tick, level)], ?_, ?_⟩, ?_, ?_⟩
  · rw [hrest, hmid]
    exact OrderBook.queue_removeLevel hbefore
  · rw [hqueue, hahead, hrest, List.append_assoc, List.singleton_append]
  · intro entry hentry
    rw [hprice]
    rcases List.mem_append.mp hentry with hentry | hentry
    · exact hused entry hentry
    · rw [List.mem_singleton.mp hentry]
      exact hlevel.leads_reached
  · rw [hmid]
    exact hfilled.kept.trans (OrderBook.ordersKept_setSide rfl)
  · intro hmoved entry hentry
    rw [hprice] at hmoved ⊢
    rw [hrest] at hentry
    refine hfilled.left hmoved entry ?_
    rw [hahead]
    exact List.mem_cons_of_mem _ hentry

theorem FilledInOrder.advanced (hfilled : FilledInOrder pool request steps state)
    (h : pool.book.LevelsInBounds) (hunderway : Underway pool request state) {step : SwapStep}
    (hadvanced : Advanced pool request state step next) (hstep : ¬step.IsLast) :
    FilledInOrder pool request (steps ++ [step]) next := by
  cases hadvanced with
  | moved hlevel hmoved => exact hfilled.moved h hunderway hlevel hmoved
  | usedUp hbest hlevel _ hlast => exact hfilled.usedUp hbest hlevel hlast
  | filledInPart => exact absurd trivial hstep

theorem filledInOrder_of_course (h : pool.Bookkept) (hlevels : pool.book.LevelsInBounds)
    (hadmits : pool.Admits request) (hcourse : Course pool request steps state)
    (hgoing : ∀ step ∈ steps, ¬step.IsLast) : FilledInOrder pool request steps state := by
  induction hcourse with
  | start => exact filledInOrder_start pool request
  | @advanced steps state next step hbefore hgoing' _ hadvanced ih =>
    have hunderway := hadmits.underway h.inBounds (h.stands hadmits.isOpen) hbefore
    exact (ih hgoing').advanced hlevels hunderway hadvanced (hgoing step (by simp))

/-! ### What a swap leaves of the queue -/

/-- Whether a tick is priced at or better than a price to which a swap paying a token has come. -/
def AtOrBetter (paid : Token) (tick : ℤ) (price : ℕ) : Prop :=
  ∃ levelPrice, sqrtPriceAt tick = .ok levelPrice ∧ paid.Leads levelPrice price

/-- Whether a tick is priced better than a price to which a swap paying a token has come. -/
def Better (paid : Token) (tick : ℤ) (price : ℕ) : Prop :=
  ∃ levelPrice, sqrtPriceAt tick = .ok levelPrice ∧ paid.Past price levelPrice

/-- What a swap does to the queue of levels that it faces, from the best priced one on: it takes out
a first part of the queue and fills at most one level in part, the next one. These are priced at or
better than the price where it ends, and if the price has moved none that is better priced is left.
Apart from that the book stays as it was. -/
structure PricePriority (pool : Pool) (paid : Token) (after : Pool) : Prop where
  filled : ∃ used rest, pool.book.queue paid = used ++ rest ∧
    (∀ entry ∈ used, AtOrBetter paid entry.1 after.sqrtPrice) ∧
    (after.book.queue paid = rest ∨ ∃ tick level left later, rest = (tick, level) :: later ∧
      after.book.queue paid = (tick, left) :: later ∧ left.batch = level.batch ∧
      AtOrBetter paid tick after.sqrtPrice)
  kept : pool.book.OrdersKept paid after.book
  left : after.sqrtPrice ≠ pool.sqrtPrice →
    ∀ entry ∈ after.book.queue paid, ¬Better paid entry.1 after.sqrtPrice

theorem atOrBetter_of_leads {paid : Token} {tick : ℤ} {price : ℕ}
    (hinBounds : minTick ≤ tick ∧ tick ≤ maxTick) (h : paid.Leads (tickSqrtPrice tick) price) :
    AtOrBetter paid tick price :=
  ⟨_, sqrtPriceAt_of_bounds hinBounds.1 hinBounds.2, h⟩

theorem not_better_of_leads {paid : Token} {tick : ℤ} {price : ℕ}
    (h : paid.Leads price (tickSqrtPrice tick)) : ¬Better paid tick price := by
  rintro ⟨levelPrice, hprice, hpast⟩
  rw [← (sqrtPriceAt_eq_ok.mp hprice).2] at hpast
  exact Token.not_past_iff.mpr h hpast

theorem FilledInOrder.pricePriority (hfilled : FilledInOrder pool request steps state)
    (h : pool.book.LevelsInBounds) :
    PricePriority pool request.paid (pool.midSwap request steps state) := by
  obtain ⟨used, hqueue, hused⟩ := hfilled.used
  refine ⟨⟨used, _, hqueue, fun entry hentry ↦ ?_, .inl hfilled.queue_eq⟩, hfilled.kept, ?_⟩
  · have hinBounds := h.of_mem_queue (hqueue ▸ List.mem_append_left _ hentry)
    exact atOrBetter_of_leads hinBounds (hused entry hentry)
  · intro hmoved entry hentry
    rw [hfilled.queue_eq] at hentry
    exact not_better_of_leads (hfilled.left hmoved entry hentry)

/-- A fill in part is of the level at the head of what is left of the queue. -/
theorem FilledInOrder.pricePriority_filledInPart (hfilled : FilledInOrder pool request steps state)
    (h : pool.book.LevelsInBounds) {tick : ℤ} {level : Level} {fill : LevelFill} {unfilled : Share}
    (hbest : pool.book.best? request.paid state.lastUsedUp = some (tick, level))
    (hlevel : LevelFilled pool request state tick level fill next) :
    PricePriority pool request.paid (pool.midSwap request
      (steps ++ [.filledInPart tick fill (leftOf level fill unfilled)]) next) := by
  obtain ⟨used, hqueue, hused⟩ := hfilled.used
  obtain ⟨later, hahead⟩ := OrderBook.queueAfter_eq_cons hbest
  have hbefore := hfilled.queue_eq.trans hahead
  have hafter := OrderBook.queue_replaceLevel hbefore (leftOf level fill unfilled)
  have hinBounds : ∀ entry ∈ pool.book.queue request.paid, minTick ≤ entry.1 ∧ entry.1 ≤ maxTick :=
    fun entry hentry ↦ h.of_mem_queue hentry
  rw [hqueue, hahead] at hinBounds
  rw [midSwap_of_filled steps (.filledInPart tick fill (leftOf level fill unfilled)) hlevel rfl]
  refine ⟨⟨used, _, hqueue.trans (by rw [hahead]), fun entry hentry ↦ ?_,
    .inr ⟨tick, level, _, later, rfl, hafter, rfl, ?_⟩⟩, ?_, ?_⟩
  · exact atOrBetter_of_leads (hinBounds entry (List.mem_append_left _ hentry)) (hused entry hentry)
  · exact atOrBetter_of_leads (hinBounds (tick, level) (by simp)) hlevel.leads_reached
  · exact hfilled.kept.trans (OrderBook.ordersKept_setSide rfl)
  · intro hmoved entry hentry
    change entry ∈ ((pool.midSwap request steps state).book.replaceLevel request.paid.other tick
      (leftOf level fill unfilled)).queue request.paid at hentry
    rw [hafter] at hentry
    have hleads := hfilled.left hmoved
    rw [hahead] at hleads
    rcases List.mem_cons.mp hentry with rfl | hentry
    · exact not_better_of_leads (hleads (tick, level) List.mem_cons_self)
    · exact not_better_of_leads (hleads entry (List.mem_cons_of_mem _ hentry))

theorem pricePriority_of_course (h : pool.Bookkept) (hlevels : pool.book.LevelsInBounds)
    (hadmits : pool.Admits request) (hcourse : Course pool request steps state) :
    PricePriority pool request.paid (pool.midSwap request steps state) := by
  cases hcourse with
  | start => exact (filledInOrder_start pool request).pricePriority hlevels
  | @advanced steps before next step hbefore hgoing _ hadvanced =>
    have hfilled := filledInOrder_of_course h hlevels hadmits hbefore hgoing
    have hunderway := hadmits.underway h.inBounds (h.stands hadmits.isOpen) hbefore
    by_cases hlast : step.IsLast
    · cases hadvanced with
      | moved => exact absurd hlast id
      | usedUp => exact absurd hlast id
      | filledInPart hbest hlevel _ _ _ =>
        exact hfilled.pricePriority_filledInPart hlevels hbest hlevel
    · exact (hfilled.advanced hlevels hunderway hadvanced hlast).pricePriority hlevels

/-- Every swap that finishes fills the levels that it faces in the order of their prices. -/
theorem price_priority (hreachable : pool.Reachable) {amounts : TokenPair ℤ}
    (h : swap request pool = .ok amounts after) : PricePriority pool request.paid after := by
  obtain ⟨plan, hplan, rfl, rfl⟩ := swap_eq_ok h
  have hplanned := planned_of_planSwap hplan
  rw [applySwap_eq hplanned]
  exact pricePriority_of_course hreachable.bookkept hreachable.levels_inBounds hplanned.admits
    hplanned.course

/-- A pool with two orders below its price, one of them at the end of a range. -/
def twoOrders : Pool :=
  ((Ledger.start twoRanges).enterAll [
    .placeOrder .one ⟨1, -60⟩ 1000,
    .placeOrder .one ⟨1, -120⟩ 1000]).pool

theorem twoOrders_reachable : twoOrders.Reachable :=
  Ledger.reachable_enterAll (.start twoRanges) twoRanges_reachable _

/-- A swap that uses up the first of the orders and ends within the second one. -/
theorem price_priority_twoOrders :
    let after := (Call.swap ⟨.zero, 5000, minSqrtPrice + 1⟩).leaves twoOrders
    PricePriority twoOrders .zero after ∧
      (twoOrders.book.queue .zero).map (fun entry ↦ (entry.1, entry.2.available)) =
        [(-60, 1000), (-120, 1000)] ∧
      (after.book.queue .zero).map (fun entry ↦ (entry.1, entry.2.available)) = [(-120, 42)] := by
  obtain ⟨amounts, hrun⟩ := Call.run_of_finishes
    (by decide +kernel : (Call.swap ⟨.zero, 5000, minSqrtPrice + 1⟩).finishes twoOrders)
  exact ⟨price_priority twoOrders_reachable hrun, by decide +kernel, by decide +kernel⟩

end Pool

end RangeBook
