import Mathlib
import RangeBook.Proofs.Pool.SwapLength
import RangeBook.Proofs.Swap.Monotone

/-!
# Two swaps side by side

Two swaps of one pool that pay the same token up to the same limit, but for different amounts, start
at the same place. They stay abreast (`Abreast`) as long as both take the whole of every step,
because a step that is taken whole does not depend on what is left to swap (`Abreast.of_moved`,
`Abreast.of_filled`).

A swap that has left the other one behind stays ahead (`Travelled.precedes`): no step takes the
price back, or brings less of the token paid, or gives out less of the other one.
-/

set_option autoImplicit false
set_option relaxedAutoImplicit false

namespace RangeBook

attribute [local irreducible] tickSqrtPrice tickAt

/-- Whether two swaps pay the same token up to the same limit. -/
structure SwapRequest.Alike (first second : SwapRequest) : Prop where
  paid_eq : second.paid = first.paid
  limit_eq : second.limit = first.limit

/-- Whether a swap that stands at a price and has brought certain amounts is no further than another
one: in its price, in what it paid and in what it bought. -/
structure Precedes (paid : Token) (price : ℕ) (brought : TokenPair ℤ) (price' : ℕ)
    (brought' : TokenPair ℤ) : Prop where
  leads : paid.Leads price price'
  paid_le : brought.get paid ≤ brought'.get paid
  bought_le : brought'.get paid.other ≤ brought.get paid.other

theorem Precedes.trans {paid : Token} {price price' price'' : ℕ}
    {brought brought' brought'' : TokenPair ℤ} (h : Precedes paid price brought price' brought')
    (h' : Precedes paid price' brought' price'' brought'') :
    Precedes paid price brought price'' brought'' :=
  ⟨h.leads.trans h'.leads, h.paid_le.trans h'.paid_le, h'.bought_le.trans h.bought_le⟩

namespace SwapState

variable {pool : Pool} {request first second : SwapRequest}
  {state state' next next' last : SwapState} {step : SwapStep} {nextLevel? nextLevel?' : Option ℕ}
  {move move' : RangeMove}

/-! ### The way to the end of a swap -/

/-- The states that a swap goes through to the one where it ends. -/
inductive Travelled (pool : Pool) (request : SwapRequest) : SwapState → SwapState → Prop
  | done {state : SwapState} (done : state.IsDone request) : Travelled pool request state state
  | last {state next : SwapState} {step : SwapStep} (not_done : ¬state.IsDone request)
    (advanced : Advanced pool request state step next) (isLast : step.IsLast) :
    Travelled pool request state next
  | advanced {state next last : SwapState} {step : SwapStep} (not_done : ¬state.IsDone request)
    (advanced : Advanced pool request state step next) (going : ¬step.IsLast)
    (rest : Travelled pool request next last) : Travelled pool request state last

theorem travelled_of_travel {allowed : ℕ} {steps : List SwapStep}
    (h : travel pool request allowed state = .ok (steps, last)) :
    Travelled pool request state last := by
  induction allowed generalizing state steps with
  | zero => exact absurd h travel_zero_ne_ok
  | succ allowed ih =>
    cases goesOn_of_travel h with
    | done hdone => exact .done hdone
    | ended hdone hadvance hlast => exact .last hdone (advanced_of_advance hadvance) hlast
    | went hdone hadvance hgoing htravel =>
      exact .advanced hdone (advanced_of_advance hadvance) hgoing (ih htravel)

/-- A swap that is not done takes a step, and ends with it or goes on. -/
theorem Travelled.exists_step (h : Travelled pool request state last)
    (hdone : ¬state.IsDone request) :
    ∃ step next, Advanced pool request state step next ∧
      ((step.IsLast ∧ last = next) ∨ (¬step.IsLast ∧ Travelled pool request next last)) := by
  cases h with
  | done hdone' => exact absurd hdone' hdone
  | last _ hadvanced hlast => exact ⟨_, _, hadvanced, .inl ⟨hlast, rfl⟩⟩
  | advanced _ hadvanced hgoing hrest => exact ⟨_, _, hadvanced, .inr ⟨hgoing, hrest⟩⟩

theorem Travelled.eq_of_done (h : Travelled pool request state last)
    (hdone : state.IsDone request) : last = state := by
  cases h with
  | done => rfl
  | last hnot => exact absurd hdone hnot
  | advanced hnot => exact absurd hdone hnot

/-- What two swaps with the same amounts behind them have brought, once each has booked a step. -/
theorem precedes_of_booked {amountIn fee amountOut amountIn' fee' amountOut' : ℕ} {price price' : ℕ}
    (hpaid : second.paid = first.paid)
    (habreast : ∀ token, (state'.brought second).get token = (state.brought first).get token)
    (hbrought : ∀ token, (next.brought first).get token = (state.brought first).get token +
      (TokenPair.paired first.paid ((amountIn : ℤ) + fee) (-(amountOut : ℤ))).get token)
    (hbrought' : ∀ token, (next'.brought second).get token = (state'.brought second).get token +
      (TokenPair.paired second.paid ((amountIn' : ℤ) + fee') (-(amountOut' : ℤ))).get token)
    (hleads : first.paid.Leads price price') (hspent : amountIn + fee ≤ amountIn' + fee')
    (hbought : amountOut ≤ amountOut') :
    Precedes first.paid price (next.brought first) price' (next'.brought second) := by
  rw [hpaid] at hbrought'
  refine ⟨hleads, ?_, ?_⟩
  · rw [hbrought, hbrought', habreast, TokenPair.get_paired_self, TokenPair.get_paired_self]
    omega
  · rw [hbrought, hbrought', habreast, TokenPair.get_paired_other, TokenPair.get_paired_other]
    omega

/-- No step takes a swap back. -/
theorem Advanced.precedes (hadvanced : Advanced pool request state step next)
    (hunderway : Underway pool request state) :
    Precedes request.paid state.sqrtPrice (state.brought request) next.sqrtPrice
      (next.brought request) := by
  have hleads := hadvanced.leads hunderway
  have hbooked : ∀ {amountIn fee amountOut : ℕ}, (∀ token, (next.brought request).get token =
      (state.brought request).get token +
        (TokenPair.paired request.paid ((amountIn : ℤ) + fee) (-(amountOut : ℤ))).get token) →
      Precedes request.paid state.sqrtPrice (state.brought request) next.sqrtPrice
        (next.brought request) := by
    intro amountIn fee amountOut hbrought
    refine ⟨hleads, ?_, ?_⟩
    · rw [hbrought, TokenPair.get_paired_self]
      omega
    · rw [hbrought, TokenPair.get_paired_other]
      omega
  cases hadvanced with
  | moved _ hmoved => exact hbooked hmoved.brought_eq
  | usedUp _ hfilled _ _ => exact hbooked hfilled.brought_eq
  | filledInPart _ hfilled _ _ _ => exact hbooked hfilled.brought_eq

/-- A swap ends no less far than wherever it stood. -/
theorem Travelled.precedes (h : Travelled pool request state last)
    (hunderway : Underway pool request state) :
    Precedes request.paid state.sqrtPrice (state.brought request) last.sqrtPrice
      (last.brought request) := by
  induction h with
  | done => exact ⟨.refl _ _, le_rfl, le_rfl⟩
  | last _ hadvanced _ => exact hadvanced.precedes hunderway
  | advanced _ hadvanced _ _ ih =>
    exact (hadvanced.precedes hunderway).trans (ih (hadvanced.underway hunderway))

/-! ### Swaps abreast -/

/-- Whether two swaps stand at the same place and have brought the same. -/
structure Abreast (first second : SwapRequest) (state state' : SwapState) : Prop where
  sqrtPrice_eq : state'.sqrtPrice = state.sqrtPrice
  tick_eq : state'.tick = state.tick
  liquidity_eq : state'.liquidity = state.liquidity
  lastUsedUp_eq : state'.lastUsedUp = state.lastUsedUp
  brought_eq : ∀ token, (state'.brought second).get token = (state.brought first).get token

theorem abreast_start (pool : Pool) (first second : SwapRequest) :
    Abreast first second (.start pool first) (.start pool second) :=
  ⟨rfl, rfl, rfl, rfl, fun token ↦ by rw [brought_start, brought_start]⟩

theorem Abreast.precedes (h : Abreast first second state state') (paid : Token) :
    Precedes paid state.sqrtPrice (state.brought first) state'.sqrtPrice
      (state'.brought second) := by
  refine ⟨?_, (h.brought_eq _).ge, (h.brought_eq _).le⟩
  rw [h.sqrtPrice_eq]
  exact .refl _ _

section

variable (halike : first.Alike second) (habreast : Abreast first second state state')

include halike habreast

theorem Abreast.underway (h : Underway pool first state) : Underway pool second state' := by
  refine ⟨h.ticks_inBounds, ?_, ?_, ?_⟩
  · unfold LimitInBounds
    rw [halike.paid_eq, halike.limit_eq]
    exact h.limit_inBounds
  · rw [habreast.tick_eq, habreast.sqrtPrice_eq]
    exact h.stands
  · rw [halike.paid_eq, halike.limit_eq, habreast.sqrtPrice_eq]
    exact h.leads_limit

theorem Abreast.best?_eq :
    pool.book.best? second.paid state'.lastUsedUp = pool.book.best? first.paid state.lastUsedUp := by
  rw [halike.paid_eq, habreast.lastUsedUp_eq]

theorem Abreast.nextTick_eq : nextTick pool second state' = nextTick pool first state := by
  unfold nextTick
  rw [halike.paid_eq, habreast.tick_eq]

theorem Abreast.nextLevel_iff :
    NextLevel pool second state' nextLevel? ↔ NextLevel pool first state nextLevel? := by
  unfold NextLevel
  rw [habreast.best?_eq halike, halike.paid_eq, habreast.sqrtPrice_eq]

end

theorem NextLevel.unique (h : NextLevel pool request state nextLevel?)
    (h' : NextLevel pool request state nextLevel?') : nextLevel?' = nextLevel? := by
  unfold NextLevel at h h'
  split at h
  · rename_i hnone
    simp only [hnone] at h'
    rw [h, h']
  · rename_i hsome
    simp only [hsome] at h'
    obtain ⟨levelPrice, rfl, hprice, -⟩ := h
    obtain ⟨levelPrice', rfl, hprice', -⟩ := h'
    rw [Except.ok.inj (hprice'.symm.trans hprice)]

/-- A swap does not move along the range where it fills a level. -/
theorem NextLevel.not_filled {tick : ℤ} {level : Level} {fill : LevelFill}
    (h : NextLevel pool request state nextLevel?)
    (hbest : pool.book.best? request.paid state.lastUsedUp = some (tick, level)) :
    ¬LevelFilled pool request state tick level fill next := by
  intro hfilled
  unfold NextLevel at h
  simp only [hbest] at h
  obtain ⟨levelPrice, -, hprice, hpast⟩ := h
  obtain ⟨levelPrice', hprice', hreached⟩ := hfilled.reached
  obtain rfl := Except.ok.inj (hprice'.symm.trans hprice)
  exact hreached hpast

/-! ### Moves side by side -/

/-- The step of a move, all the way to its target or a part of it. -/
theorem RangeMoved.went (hmoved : RangeMoved pool request state nextLevel? move next)
    (h : Underway pool request state)
    (hlevel : ∀ level ∈ nextLevel?, request.paid.Past level state.sqrtPrice) :
    pool.fee < feeDenominator ∧
      RangeStep.Went request.paid state.sqrtPrice
        (targetPrice request (tickSqrtPrice (nextTick pool request state)) nextLevel?)
        state.liquidity state.remaining pool.fee move.step :=
  RangeStep.went_of_compute h.stands.price_pos (targetPrice_pos h hlevel)
    (targetPrice_leads (leads_nextTick h) h.leads_limit hlevel).1 hmoved.compute_eq

/-- The tick after a move is worked out from the price alone. -/
theorem Arrival.tick_eq (h : Arrival pool request state move next) :
    (if move.step.price = tickSqrtPrice (nextTick pool request state) then
      .ok (tickPassed request (nextTick pool request state))
    else if move.step.price = state.sqrtPrice then .ok state.tick
    else tickAt move.step.price : Outcome ℤ) = .ok next.tick := by
  cases h with
  | crossed _ hprice _ htick _ => rw [if_pos hprice, htick]
  | bounded _ hprice _ htick _ => rw [if_pos hprice, htick]
  | rested hne hprice _ htick _ => rw [if_neg hne, if_pos hprice, htick]
  | found hne hneStart _ htick _ => rw [if_neg hne, if_neg hneStart, htick]

/-- The liquidity after a move changes where the price comes to a boundary tick. -/
theorem Arrival.liquidity_eq (h : Arrival pool request state move next) :
    (next.liquidity : ℤ) = state.liquidity +
      if move.step.price = tickSqrtPrice (nextTick pool request state) ∧
          (pool.ticks.next state.tick request.paid).2 = true then
        request.paid.entering ((pool.ticks.get? (nextTick pool request state)).getD .blank).net
      else 0 := by
  cases h with
  | crossed hboundary hprice _ _ hliquidity => rw [if_pos ⟨hprice, hboundary⟩, hliquidity]
  | bounded hboundary _ _ _ hliquidity =>
    rw [if_neg fun hand ↦ Bool.false_ne_true (hboundary.symm.trans hand.2), hliquidity, add_zero]
  | rested hne _ _ _ hliquidity => rw [if_neg fun hand ↦ hne hand.1, hliquidity, add_zero]
  | found hne _ _ _ hliquidity => rw [if_neg fun hand ↦ hne hand.1, hliquidity, add_zero]

/-- The step of a second swap that stands at the same place, in terms of the first one. -/
theorem Abreast.went (halike : first.Alike second) (habreast : Abreast first second state state')
    (hunderway : Underway pool first state) (h : NextLevel pool first state nextLevel?)
    (h' : NextLevel pool second state' nextLevel?')
    (hmoved' : RangeMoved pool second state' nextLevel?' move' next') :
    RangeStep.Went first.paid state.sqrtPrice
      (targetPrice first (tickSqrtPrice (nextTick pool first state)) nextLevel?)
      state.liquidity state'.remaining pool.fee move'.step := by
  have hwent := (hmoved'.went (habreast.underway halike hunderway) h'.past).2
  have htarget : ∀ price, targetPrice second price nextLevel?' =
      targetPrice first price nextLevel? := by
    intro price
    unfold targetPrice
    rw [halike.paid_eq, halike.limit_eq, h.unique ((habreast.nextLevel_iff halike).mp h')]
  rw [htarget, habreast.nextTick_eq halike, halike.paid_eq, habreast.sqrtPrice_eq,
    habreast.liquidity_eq] at hwent
  exact hwent

/-- Two swaps stay abreast as they take the same step along a range, in pools of the same boundary
ticks. -/
theorem Abreast.of_moved {other : Pool} (halike : first.Alike second)
    (hticks : other.ticks = pool.ticks) (habreast : Abreast first second state state')
    (hmoved : RangeMoved pool first state nextLevel? move next)
    (hmoved' : RangeMoved other second state' nextLevel?' move' next')
    (hstep : move'.step = move.step) : Abreast first second next next' := by
  have htick := hmoved.arrival.tick_eq
  have htick' := hmoved'.arrival.tick_eq
  have hliquidity := hmoved.arrival.liquidity_eq
  have hliquidity' := hmoved'.arrival.liquidity_eq
  have hpassed : tickPassed second (nextTick pool first state) =
      tickPassed first (nextTick pool first state) := by
    unfold tickPassed
    rw [halike.paid_eq]
  have hnext : nextTick other second state' = nextTick pool first state := by
    unfold nextTick
    rw [hticks, halike.paid_eq, habreast.tick_eq]
  rw [hstep, hnext, habreast.sqrtPrice_eq, habreast.tick_eq, hpassed, htick] at htick'
  rw [hstep, hnext, hticks, habreast.tick_eq, habreast.liquidity_eq, halike.paid_eq,
    ← hliquidity] at hliquidity'
  refine ⟨?_, (Except.ok.inj htick').symm, by exact_mod_cast hliquidity', ?_, fun token ↦ ?_⟩
  · rw [hmoved.sqrtPrice_eq, hmoved'.sqrtPrice_eq, hstep]
  · rw [hmoved.lastUsedUp_eq, hmoved'.lastUsedUp_eq, habreast.lastUsedUp_eq]
  · rw [hmoved.brought_eq, hmoved'.brought_eq, habreast.brought_eq, hstep, halike.paid_eq]

/-! ### Fills side by side -/

/-- A step of a swap is a move along the range, or a fill of the best level. The swap ends with the
fill unless it uses the level up. -/
theorem Advanced.moved_or_filled (h : Advanced pool request state step next) :
    (∃ nextLevel? move, NextLevel pool request state nextLevel? ∧
      RangeMoved pool request state nextLevel? move next ∧ step = .moved move) ∨
    ∃ tick level fill, pool.book.best? request.paid state.lastUsedUp = some (tick, level) ∧
      LevelFilled pool request state tick level fill next ∧
      ((fill.unfilled? = none ∧ ¬step.IsLast ∧ next.lastUsedUp = some tick) ∨
        (fill.unfilled?.isSome ∧ step.IsLast)) := by
  cases h with
  | moved hlevel hmoved => exact .inl ⟨_, _, hlevel, hmoved, rfl⟩
  | usedUp hbest hfilled hnone hlast =>
    exact .inr ⟨_, _, _, hbest, hfilled, .inl ⟨hnone, id, hlast⟩⟩
  | filledInPart hbest hfilled hsome _ _ =>
    exact .inr ⟨_, _, _, hbest, hfilled, .inr ⟨by rw [hsome]; rfl, trivial⟩⟩

/-- Where there are no levels to fill every step is a move along the range. -/
theorem Advanced.moved_of_empty (h : Advanced pool request state step next)
    (hempty : (pool.book.side request.paid.other).levels = .empty) :
    ∃ move, NextLevel pool request state none ∧ RangeMoved pool request state none move next ∧
      step = .moved move := by
  have hnone := OrderBook.best?_eq_none hempty state.lastUsedUp
  obtain ⟨nextLevel?, move, hlevel, hmoved, hstep⟩ | ⟨_, _, _, hbest, -⟩ := h.moved_or_filled
  · have hnext : nextLevel? = none := by
      unfold NextLevel at hlevel
      simpa only [hnone] using hlevel
    rw [hnext] at hlevel hmoved
    exact ⟨move, hlevel, hmoved, hstep⟩
  · exact absurd (hbest.symm.trans hnone) (Option.some_ne_none _)

/-- Two swaps stay abreast as they fill the same level alike. -/
theorem Abreast.of_filled {other : Pool} (halike : first.Alike second)
    (habreast : Abreast first second state state') {tick tick' : ℤ} {level level' : Level}
    {fill : LevelFill} (hfilled : LevelFilled pool first state tick level fill next)
    (hfilled' : LevelFilled other second state' tick' level' fill next')
    (hlast : next'.lastUsedUp = next.lastUsedUp) : Abreast first second next next' := by
  refine ⟨?_, ?_, ?_, hlast, fun token ↦ ?_⟩
  · rw [hfilled.state_eq, hfilled'.state_eq]
    exact habreast.sqrtPrice_eq
  · rw [hfilled.state_eq, hfilled'.state_eq]
    exact habreast.tick_eq
  · rw [hfilled.state_eq, hfilled'.state_eq]
    exact habreast.liquidity_eq
  · rw [hfilled.brought_eq, hfilled'.brought_eq, habreast.brought_eq, halike.paid_eq]

end SwapState

open SwapState

namespace Pool

/-- A swap that finishes has gone the whole way, and leaves the price and the liquidity and brings the
amounts that it ends with. -/
theorem travelled_of_swap {pool after : Pool} {request : SwapRequest} {amounts : TokenPair ℤ}
    (h : swap request pool = .ok amounts after) :
    pool.Admits request ∧ ∃ last, Travelled pool request (.start pool request) last ∧
      after.sqrtPrice = last.sqrtPrice ∧ after.liquidity = last.liquidity ∧
        amounts = last.brought request := by
  obtain ⟨plan, hplan, rfl, rfl⟩ := swap_eq_ok h
  have hplanned := planned_of_planSwap hplan
  exact ⟨hplanned.admits, plan.last, travelled_of_travel (travel_of_planSwap hplan), rfl, rfl,
    hplanned.amounts_eq⟩

end Pool

end RangeBook
