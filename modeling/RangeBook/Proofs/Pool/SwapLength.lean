import Mathlib
import RangeBook.Proofs.Pool.SwapTerms
import RangeBook.Proofs.Swap.Passes

/-!
# How many passes a swap makes

Neither the price nor the amount left changes in every pass: a move may start at the boundary tick
that it crosses, and a fill leaves the price in place. But a move that stops short of its target
uses up what is left to swap, and then the swap ends. Otherwise it reaches its limit, where the swap ends
too, or crosses a boundary tick, or comes to the price of the next level, which the next pass fills
(`RangeMoved.progress`).

So each boundary tick in the way costs one pass and each level at most two, one to come to its price
and one to fill it. `OnSchedule` says that the steps taken so far leave room for those still to
come, and every step keeps this (`Advanced.onSchedule`). In all a swap makes one pass more at most,
the last one, and the allowance of steps never runs out (`swap_length`).
-/

set_option autoImplicit false
set_option relaxedAutoImplicit false

namespace RangeBook

attribute [local irreducible] tickSqrtPrice tickAt

namespace SwapState

variable {pool : Pool} {request : SwapRequest} {state next : SwapState} {steps : List SwapStep}
  {nextLevel? : Option ℕ} {move : RangeMove}

/-! ### What is still in the way -/

/-- Whether a price at a tick has yet to pass a boundary tick in the direction of a swap. -/
def Faces (paid : Token) (tick boundary : ℤ) : Prop :=
  match paid with
  | .zero => boundary ≤ tick
  | .one => tick < boundary

instance (paid : Token) (tick boundary : ℤ) : Decidable (Faces paid tick boundary) := by
  cases paid <;> unfold Faces <;> infer_instance

/-- The number of boundary ticks that a swap has yet to pass. -/
def ticksAhead (pool : Pool) (request : SwapRequest) (state : SwapState) : ℤ :=
  pool.ticks.total fun boundary _ ↦ if Faces request.paid state.tick boundary then 1 else 0

/-- One where the price has reached the next level, and zero otherwise. -/
def atLevel (pool : Pool) (request : SwapRequest) (state : SwapState) : ℕ :=
  match pool.book.queueAfter request.paid state.lastUsedUp with
  | [] => 0
  | (tick, _) :: _ => if request.paid.Past (tickSqrtPrice tick) state.sqrtPrice then 0 else 1

theorem atLevel_le_one (pool : Pool) (request : SwapRequest) (state : SwapState) :
    atLevel pool request state ≤ 1 := by
  unfold atLevel
  split
  · exact Nat.zero_le 1
  · split_ifs <;> simp

theorem ticksAhead_nonneg (pool : Pool) (request : SwapRequest) (state : SwapState) :
    0 ≤ ticksAhead pool request state := by
  refine OrderedMap.total_nonneg fun boundary _ _ ↦ ?_
  split_ifs <;> simp

theorem ticksAhead_le (pool : Pool) (request : SwapRequest) (state : SwapState) :
    ticksAhead pool request state ≤ pool.ticks.size := by
  calc ticksAhead pool request state
      ≤ pool.ticks.total fun _ _ ↦ 1 := by
        refine OrderedMap.total_le_total fun boundary _ _ ↦ ?_
        split_ifs <;> simp
    _ = pool.ticks.size := by simp [OrderedMap.total, OrderedMap.size]

/-- A move takes the tick that it crosses off those that are ahead, and no other. -/
theorem ticksAhead_of_moved (hmoved : RangeMoved pool request state nextLevel? move next)
    (h : Underway pool request state)
    (hlevel : ∀ level ∈ nextLevel?, request.paid.Past level state.sqrtPrice) :
    ticksAhead pool request next =
      ticksAhead pool request state - if move.crossing?.isSome then 1 else 0 := by
  have hcount : ∀ boundary kept, pool.ticks.get? boundary = some kept →
      (if Faces request.paid next.tick boundary then 1 else 0 : ℤ) =
        (if Faces request.paid state.tick boundary then 1 else 0) -
          move.crossing?.elim 0 fun crossing ↦ if boundary = crossing.tick then 1 else 0 := by
    intro boundary kept hget
    have hstored : (pool.ticks.get? boundary).isSome := by rw [hget]; rfl
    have hmove := hmoved.le_tick_count h hlevel hstored
    cases hcrossing : move.crossing? with
    | none =>
      rw [hcrossing, Option.elim_none, add_zero] at hmove
      cases hpaid : request.paid <;> simp only [Faces, Option.elim_none, sub_zero]
      · exact hmove
      · split_ifs at hmove ⊢ <;> omega
    | some crossing =>
      rw [hcrossing, Option.elim_some] at hmove
      cases hpaid : request.paid <;> rw [hpaid] at hmove <;>
        simp only [Faces, Option.elim_some, Token.entering] at hmove ⊢ <;>
        split_ifs at hmove ⊢ <;> omega
  rw [ticksAhead, OrderedMap.total_congr hcount, OrderedMap.total_sub]
  cases hcrossing : move.crossing? with
  | none => simp [ticksAhead, OrderedMap.total_zero]
  | some crossing =>
    have hstored := (hmoved.crossing_eq h hcrossing).2.1
    simp [ticksAhead, OrderedMap.total_single, hstored]

/-- A move begins before the price of the next level. -/
theorem NextLevel.atLevel_eq (h : NextLevel pool request state nextLevel?) :
    atLevel pool request state = 0 := by
  unfold NextLevel at h
  unfold atLevel
  cases hbest : pool.book.best? request.paid state.lastUsedUp with
  | none => rw [OrderBook.queueAfter_eq_nil hbest]
  | some best =>
    obtain ⟨tick, level⟩ := best
    obtain ⟨rest, hahead⟩ := OrderBook.queueAfter_eq_cons hbest
    simp only [hbest] at h
    obtain ⟨levelPrice, -, hprice, hpast⟩ := h
    rw [← (sqrtPriceAt_eq_ok.mp hprice).2] at hpast
    simp [hahead, hpast]

/-- The target of a move is the limit, the next tick or the next level. -/
theorem targetPrice_cases (request : SwapRequest) (nextTickPrice : ℕ) (nextLevel? : Option ℕ) :
    targetPrice request nextTickPrice nextLevel? = request.limit ∨
      targetPrice request nextTickPrice nextLevel? = nextTickPrice ∨
        ∃ level ∈ nextLevel?, targetPrice request nextTickPrice nextLevel? = level := by
  unfold targetPrice
  cases nextLevel? <;> dsimp only <;> split_ifs <;> simp

/-- A move that uses up what is left to swap leaves nothing. -/
theorem RangeMoved.remaining_eq_zero (hmoved : RangeMoved pool request state nextLevel? move next)
    (hwithin : WithinAmount request state) (hleft : state.remaining ≠ 0)
    (hused : (0 ≤ state.remaining ∧ move.step.amountIn + move.step.fee = state.remaining.natAbs) ∨
      (state.remaining < 0 ∧ move.step.amountOut = state.remaining.natAbs)) :
    next.remaining = 0 := by
  by_cases hinput : request.IsExactInput
  · have hbrought := hmoved.brought_eq request.paid
    rw [brought_paid next hinput, brought_paid state hinput, TokenPair.get_paired_self] at hbrought
    have hsign := hwithin.input hinput
    omega
  · have hbrought := hmoved.brought_eq request.paid.other
    rw [brought_bought next hinput, brought_bought state hinput,
      TokenPair.get_paired_other] at hbrought
    have hsign := hwithin.output hinput
    omega

/-- No move ends at a bound of all ticks, because the limit lies before it. -/
theorem RangeMoved.isSome_crossing (hmoved : RangeMoved pool request state nextLevel? move next)
    (h : Underway pool request state)
    (hlevel : ∀ level ∈ nextLevel?, request.paid.Past level state.sqrtPrice)
    (hprice : move.step.price = tickSqrtPrice (nextTick pool request state)) :
    move.crossing?.isSome := by
  have hleads := (hmoved.favourable h hlevel).2
  obtain ⟨hnotMin, hnotMax⟩ := price_ne_bound h.limit_inBounds hleads
  rw [hmoved.sqrtPrice_eq, hprice, nextTick_eq h.ticks_inBounds] at hnotMin hnotMax
  cases hmoved.arrival with
  | crossed _ _ hcrossing _ _ => simp [hcrossing]
  | bounded hboundary _ _ _ _ =>
    exfalso
    cases hpaid : request.paid with
    | zero =>
      have hgt := hnotMin hpaid
      rw [hpaid] at hboundary hgt
      rcases TickTable.next_zero_eq pool.ticks state.tick with ⟨_, hnext, -⟩ | ⟨hnext, -⟩
      · simp [hnext] at hboundary
      · rw [hnext, tickSqrtPrice_minTick] at hgt
        exact lt_irrefl _ hgt
    | one =>
      have hlt := hnotMax hpaid
      rw [hpaid] at hboundary hlt
      rcases TickTable.next_one_eq pool.ticks state.tick with ⟨_, hnext, -⟩ | ⟨hnext, -⟩
      · simp [hnext] at hboundary
      · rw [hnext, tickSqrtPrice_maxTick] at hlt
        exact lt_irrefl _ hlt
  | rested hne _ _ _ _ => exact absurd hprice hne
  | found hne _ _ _ _ => exact absurd hprice hne

/-- After a move the swap is done, or it has crossed a boundary tick or come to the next level. -/
theorem RangeMoved.progress (hmoved : RangeMoved pool request state nextLevel? move next)
    (h : Underway pool request state)
    (hlevel : ∀ level ∈ nextLevel?, request.paid.Past level state.sqrtPrice)
    (hwithin : WithinAmount request state) (hleft : state.remaining ≠ 0) :
    next.IsDone request ∨ move.crossing?.isSome ∨ ∃ level ∈ nextLevel?, next.sqrtPrice = level := by
  rcases RangeStep.reaches_of_compute (targetPrice_pos h hlevel) hmoved.compute_eq with
    hreached | hused
  · rw [hmoved.sqrtPrice_eq, hreached]
    rcases targetPrice_cases request (tickSqrtPrice (nextTick pool request state)) nextLevel? with
      hlimit | htick | ⟨level, hmem, heq⟩
    · left
      right
      rw [hmoved.sqrtPrice_eq, hreached, hlimit]
    · right
      left
      exact hmoved.isSome_crossing h hlevel (hreached.trans htick)
    · right
      right
      exact ⟨level, hmem, heq⟩
  · left
    left
    exact hmoved.remaining_eq_zero hwithin hleft hused

/-! ### The schedule -/

/-- Whether the steps taken so far leave room for those that the ticks and levels ahead may cost. -/
def OnSchedule (pool : Pool) (request : SwapRequest) (steps : List SwapStep) (state : SwapState) :
    Prop :=
  steps.length + ticksAhead pool request state +
      2 * (pool.book.queueAfter request.paid state.lastUsedUp).length ≤
    pool.ticks.size + 2 * (pool.book.side request.paid.other).levels.size +
      atLevel pool request state

theorem onSchedule_start (pool : Pool) (request : SwapRequest) :
    OnSchedule pool request [] (.start pool request) := by
  have hticks := ticksAhead_le pool request (.start pool request)
  have hlevels : (pool.book.queueAfter request.paid none).length =
      (pool.book.side request.paid.other).levels.size := by
    rw [OrderBook.queueAfter_none, OrderBook.length_queue]
  unfold OnSchedule
  change _ + _ + 2 * ((pool.book.queueAfter request.paid none).length : ℤ) ≤ _
  rw [hlevels, List.length_nil]
  omega

/-- A move that ends at the price of the next level has reached it. -/
theorem NextLevel.atLevel_of_reached (h : NextLevel pool request state nextLevel?)
    (hlast : next.lastUsedUp = state.lastUsedUp)
    (hreached : ∃ level ∈ nextLevel?, next.sqrtPrice = level) : atLevel pool request next = 1 := by
  obtain ⟨levelPrice, hmem, hprice⟩ := hreached
  unfold NextLevel at h
  cases hbest : pool.book.best? request.paid state.lastUsedUp with
  | none =>
    simp only [hbest] at h
    simp [h] at hmem
  | some best =>
    obtain ⟨tick, level⟩ := best
    obtain ⟨rest, hahead⟩ := OrderBook.queueAfter_eq_cons hbest
    rw [← hlast] at hahead
    simp only [hbest] at h
    obtain ⟨found, hnext, hfound, -⟩ := h
    obtain rfl : found = levelPrice := by simpa [hnext] using hmem
    have hat : ¬request.paid.Past (tickSqrtPrice tick) next.sqrtPrice := by
      rw [(sqrtPriceAt_eq_ok.mp hfound).2, ← hprice, Token.not_past_iff]
      exact .refl _ _
    simp [atLevel, hahead, hat]

/-- Every step but the last one keeps to the schedule. -/
theorem Advanced.onSchedule {step : SwapStep} (hadvanced : Advanced pool request state step next)
    (h : Underway pool request state) (hwithin : WithinAmount request state)
    (hdone : ¬state.IsDone request) (hstep : ¬step.IsLast)
    (hschedule : OnSchedule pool request steps state) :
    next.IsDone request ∨ OnSchedule pool request (steps ++ [step]) next := by
  have hleft : state.remaining ≠ 0 := fun hnone ↦ hdone (.inl hnone)
  unfold OnSchedule at hschedule ⊢
  rw [List.length_append, List.length_singleton]
  cases hadvanced with
  | moved hlevel hmoved =>
    have hticks := ticksAhead_of_moved hmoved h hlevel.past
    have hbefore := hlevel.atLevel_eq
    rw [hmoved.lastUsedUp_eq]
    rcases hmoved.progress h hlevel.past hwithin hleft with hend | hcrossed | hreached
    · exact .inl hend
    · right
      rw [if_pos hcrossed] at hticks
      omega
    · right
      have hafter := hlevel.atLevel_of_reached hmoved.lastUsedUp_eq hreached
      split_ifs at hticks <;> omega
  | usedUp hbest hfilled _ hlast =>
    right
    obtain ⟨rest, hahead⟩ := OrderBook.queueAfter_eq_cons hbest
    have hafter : pool.book.queueAfter request.paid next.lastUsedUp = rest := by
      rw [hlast]
      exact OrderBook.queueAfter_head hahead
    have htick : next.tick = state.tick := by rw [hfilled.state_eq]
    have hticks : ticksAhead pool request next = ticksAhead pool request state := by
      rw [ticksAhead, ticksAhead, htick]
    have hbefore := atLevel_le_one pool request state
    rw [hahead, List.length_cons] at hschedule
    rw [hafter, hticks]
    push_cast at hschedule ⊢
    omega
  | filledInPart => exact absurd trivial hstep

/-- A swap that is not done has made fewer passes than the ticks and levels of the pool cost. -/
theorem OnSchedule.length_lt (h : OnSchedule pool request steps state) :
    steps.length <
      pool.ticks.size + 2 * (pool.book.side request.paid.other).levels.size + 1 := by
  have hticks := ticksAhead_nonneg pool request state
  have hat := atLevel_le_one pool request state
  unfold OnSchedule at h
  cases hahead : pool.book.queueAfter request.paid state.lastUsedUp with
  | nil =>
    have hnone : atLevel pool request state = 0 := by simp [atLevel, hahead]
    omega
  | cons level rest =>
    rw [hahead, List.length_cons] at h
    push_cast at h
    omega

end SwapState

open SwapState

namespace Pool

variable {pool : Pool} {request : SwapRequest} {steps : List SwapStep} {state : SwapState}

theorem onSchedule_of_course (h : pool.Bookkept) (hbook : pool.book.Sound)
    (hadmits : pool.Admits request) (hcourse : Course pool request steps state)
    (hgoing : ∀ step ∈ steps, ¬step.IsLast) :
    state.IsDone request ∨ OnSchedule pool request steps state := by
  induction hcourse with
  | start => exact .inr (onSchedule_start pool request)
  | @advanced steps state next step hbefore hgoing' hdone hadvanced ih =>
    have hunderway := hadmits.underway h.inBounds (h.stands hadmits.isOpen) hbefore
    have hwithin := (h.withinAmount hbook hadmits hbefore).1
    have hschedule := (ih hgoing').resolve_left hdone
    exact hadvanced.onSchedule hunderway hwithin hdone (hgoing step (by simp)) hschedule

/-- No course that goes on is longer than what the ticks and levels of the pool cost, and one step
more. -/
theorem length_le_of_course (h : pool.Bookkept) (hbook : pool.book.Sound)
    (hadmits : pool.Admits request) (hcourse : Course pool request steps state)
    (hgoing : ∀ step ∈ steps, ¬step.IsLast) :
    steps.length ≤ pool.ticks.size + 2 * (pool.book.side request.paid.other).levels.size + 1 := by
  cases hcourse with
  | start => exact Nat.zero_le _
  | advanced hbefore hgoing' hdone _ =>
    have hschedule := (onSchedule_of_course h hbook hadmits hbefore hgoing').resolve_left hdone
    rw [List.length_append, List.length_singleton]
    exact hschedule.length_lt

/-- A swap makes at most one pass for each boundary tick of the pool, two for each level that it
faces, and one more. So a greater allowance of steps than the one it is given would change
nothing. -/
theorem swap_length (h : pool.Reachable) (hadmits : pool.Admits request) :
    (∀ allowed, (passes pool request allowed (.start pool request)).length ≤
      pool.ticks.size + 2 * (pool.book.side request.paid.other).levels.size + 1) ∧
    ∀ allowed, stepBudget pool request ≤ allowed →
      travel pool request allowed (.start pool request) =
        travel pool request (stepBudget pool request) (.start pool request) := by
  have hlength : ∀ allowed, (passes pool request allowed (.start pool request)).length ≤
      pool.ticks.size + 2 * (pool.book.side request.paid.other).levels.size + 1 := by
    refine length_passes_le fun steps state hcourse hgoing hdone ↦ ?_
    have hschedule := onSchedule_of_course h.bookkept h.sound_book hadmits hcourse hgoing
    exact (hschedule.resolve_left hdone).length_lt
  refine ⟨hlength, fun allowed hle ↦ travel_of_le ?_ hle⟩
  have hbudget := hlength (stepBudget pool request)
  unfold stepBudget at hbudget ⊢
  omega

/-- A pool with its price above a range, in the middle of which an order rests. -/
def orderInRange : Pool :=
  ((Ledger.start standard).enterAll [
    .setFirstPrice 79704936542881920863903188246,
    .addLiquidity ⟨1, -60, 60⟩ 1000000,
    .placeOrder .one ⟨1, 0⟩ 1000]).pool

theorem orderInRange_reachable : orderInRange.Reachable :=
  Ledger.reachable_enterAll _ (.created create_standard) _

/-- A swap that takes the price through the range needs all of its passes: one up to each end of the
range, two for the order, and one on to the limit. -/
theorem swap_length_orderInRange :
    let request : SwapRequest := ⟨.zero, 100000, minSqrtPrice + 1⟩
    let count := (passes orderInRange request 20 (.start orderInRange request)).length
    orderInRange.ticks.size = 2 ∧ (orderInRange.book.side .one).levels.size = 1 ∧ count = 5 ∧
      count ≤ orderInRange.ticks.size + 2 * (orderInRange.book.side .one).levels.size + 1 := by
  have hopen : orderInRange.IsOpen := by decide +kernel
  have hlimit : orderInRange.LimitAllowed ⟨.zero, 100000, minSqrtPrice + 1⟩ := by decide +kernel
  refine ⟨by decide +kernel, by decide +kernel, by decide +kernel, ?_⟩
  exact (swap_length orderInRange_reachable ⟨hopen, hlimit⟩).1 20

end Pool

end RangeBook
