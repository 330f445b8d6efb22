import Mathlib
import RangeBook.Pool.Swap
import RangeBook.Proofs.Action

/-!
# What a step of a swap does

A swap repeats `advance`, and each step either moves the price along a range (`RangeMoved`) or
fills a level of resting orders (`Advanced`). Where the price of a move ends up next to the
boundary ticks is one of four cases (`Arrival`). `Course` holds of the steps taken so far and the
state that they lead to, so what every step keeps holds wherever a swap stands
(`course_of_travel`).

A swap writes the pool when it is worked out. `midSwap` is the pool as it would be written after
the steps taken so far: it starts as the pool before the swap (`midSwap_start`), and where the
swap ends it is the pool after it (`applySwap_eq`).
-/

set_option autoImplicit false
set_option relaxedAutoImplicit false

namespace RangeBook

attribute [local irreducible] tickSqrtPrice tickAt

/-- The liquidity that enters where a swap paying this token passes a tick with the given net
liquidity. -/
def Token.entering (paid : Token) (net : ℤ) : ℤ :=
  match paid with
  | .zero => -net
  | .one => net

theorem Token.entering_eq_mul (paid : Token) (net : ℤ) :
    paid.entering net = paid.entering 1 * net := by
  cases paid
  · exact (neg_one_mul net).symm
  · exact (one_mul net).symm

theorem TokenPair.set_get_self {α : Type} (pair : TokenPair α) (token : Token) :
    pair.set token (pair.get token) = pair := by
  cases token <;> rfl

namespace SwapState

variable {pool : Pool} {request : SwapRequest} {state next : SwapState}

/-! ### Booking -/

/-- What a swap has brought to the pool so far, in each token. -/
def brought (request : SwapRequest) (state : SwapState) : TokenPair ℤ :=
  Pool.swapAmounts request (request.amount - state.remaining) state.exchanged

theorem brought_start (pool : Pool) (request : SwapRequest) (token : Token) :
    ((start pool request).brought request).get token = 0 := by
  unfold brought Pool.swapAmounts start
  rw [sub_self]
  split <;> cases request.paid <;> cases token <;> rfl

/-- Booking a step changes no more than the two running amounts, which say what was brought. -/
structure Booked (request : SwapRequest) (state : SwapState) (amountIn fee amountOut : ℕ)
    (next : SwapState) : Prop where
  state_eq : next = { state with remaining := next.remaining, exchanged := next.exchanged }
  brought_eq : ∀ token, (next.brought request).get token =
    (state.brought request).get token +
      (TokenPair.paired request.paid ((amountIn : ℤ) + fee) (-(amountOut : ℤ))).get token

theorem booked_of_book {amountIn fee amountOut : ℕ}
    (h : book request state amountIn fee amountOut = .ok next) :
    Booked request state amountIn fee amountOut next := by
  unfold book at h
  obtain ⟨_, hsum, h⟩ := bind_eq_ok.mp h
  obtain ⟨_, hpaid, h⟩ := bind_eq_ok.mp h
  obtain ⟨_, hbought, h⟩ := bind_eq_ok.mp h
  obtain ⟨-, rfl⟩ := within_eq_ok.mp hsum
  obtain ⟨-, rfl⟩ := within_eq_ok.mp hpaid
  obtain ⟨-, rfl⟩ := within_eq_ok.mp hbought
  split at h
  · rename_i hexact
    obtain ⟨_, hremaining, h⟩ := bind_eq_ok.mp h
    obtain ⟨_, hexchanged, h⟩ := bind_eq_ok.mp h
    obtain ⟨-, rfl⟩ := within_eq_ok.mp hremaining
    obtain ⟨-, rfl⟩ := within_eq_ok.mp hexchanged
    rw [← Except.ok.inj h]
    refine ⟨rfl, fun token ↦ ?_⟩
    simp only [brought, Pool.swapAmounts, if_pos hexact]
    cases request.paid <;> cases token <;> simp only [TokenPair.paired, TokenPair.get] <;>
      push_cast <;> ring
  · rename_i hexact
    obtain ⟨_, hremaining, h⟩ := bind_eq_ok.mp h
    obtain ⟨_, hexchanged, h⟩ := bind_eq_ok.mp h
    obtain ⟨-, rfl⟩ := within_eq_ok.mp hremaining
    obtain ⟨-, rfl⟩ := within_eq_ok.mp hexchanged
    rw [← Except.ok.inj h]
    refine ⟨rfl, fun token ↦ ?_⟩
    simp only [brought, Pool.swapAmounts, if_neg hexact]
    cases request.paid <;> cases token <;> simp only [TokenPair.paired, TokenPair.get] <;>
      push_cast <;> ring

/-! ### Moves along a range -/

/-- The tick up to which the price may move before the liquidity changes. -/
def nextTick (pool : Pool) (request : SwapRequest) (state : SwapState) : ℤ :=
  max minTick (min maxTick (pool.ticks.next state.tick request.paid).1)

/-- Where a move ends: at a boundary tick, which it crosses, at a bound of all ticks, where it
was, or between ticks, where the tick is found from the price. -/
inductive Arrival (pool : Pool) (request : SwapRequest) (state : SwapState) (move : RangeMove)
    (next : SwapState) : Prop
  | crossed (isBoundary : (pool.ticks.next state.tick request.paid).2 = true)
    (price_eq : move.step.price = tickSqrtPrice (nextTick pool request state))
    (crossing_eq : move.crossing? =
      some ⟨nextTick pool request state, pool.growth.set request.paid next.growth⟩)
    (tick_eq : next.tick = tickPassed request (nextTick pool request state))
    (liquidity_eq : (next.liquidity : ℤ) = state.liquidity +
      request.paid.entering ((pool.ticks.get? (nextTick pool request state)).getD .blank).net)
  | bounded (isBoundary : (pool.ticks.next state.tick request.paid).2 = false)
    (price_eq : move.step.price = tickSqrtPrice (nextTick pool request state))
    (crossing_eq : move.crossing? = none)
    (tick_eq : next.tick = tickPassed request (nextTick pool request state))
    (liquidity_eq : next.liquidity = state.liquidity)
  | rested (price_ne : move.step.price ≠ tickSqrtPrice (nextTick pool request state))
    (price_eq : move.step.price = state.sqrtPrice)
    (crossing_eq : move.crossing? = none)
    (tick_eq : next.tick = state.tick)
    (liquidity_eq : next.liquidity = state.liquidity)
  | found (price_ne : move.step.price ≠ tickSqrtPrice (nextTick pool request state))
    (price_ne_start : move.step.price ≠ state.sqrtPrice)
    (crossing_eq : move.crossing? = none)
    (tick_eq : tickAt move.step.price = .ok next.tick)
    (liquidity_eq : next.liquidity = state.liquidity)

/-- What a move along a range does to the state of a swap. -/
structure RangeMoved (pool : Pool) (request : SwapRequest) (state : SwapState)
    (nextLevel? : Option ℕ) (move : RangeMove) (next : SwapState) : Prop where
  startTick_eq : move.startTick = state.tick
  compute_eq : RangeStep.compute state.sqrtPrice
    (targetPrice request (tickSqrtPrice (nextTick pool request state)) nextLevel?)
    state.liquidity state.remaining pool.fee = .ok move.step
  protocolShare_eq : move.protocolShare = protocolShare pool request move.step.fee
  growthAdded_eq : growthOf (move.step.fee - move.protocolShare) state.liquidity =
    .ok move.growthAdded
  brought_eq : ∀ token, (next.brought request).get token =
    (state.brought request).get token +
      (TokenPair.paired request.paid ((move.step.amountIn : ℤ) + move.step.fee)
        (-(move.step.amountOut : ℤ))).get token
  sqrtPrice_eq : next.sqrtPrice = move.step.price
  growth_eq : next.growth = state.growth + move.growthAdded
  protocolFees_eq : next.protocolFees = state.protocolFees + wrap128 move.protocolShare
  lastUsedUp_eq : next.lastUsedUp = state.lastUsedUp
  arrival : Arrival pool request state move next

theorem entering_of_enteringLiquidity {tick entering : ℤ}
    (h : enteringLiquidity pool request tick = .ok entering) :
    entering = request.paid.entering ((pool.ticks.get? tick).getD .blank).net := by
  unfold enteringLiquidity at h
  unfold Token.entering
  cases hpaid : request.paid <;> rw [hpaid] at h
  · exact (within_eq_ok.mp h).2.symm
  · exact (Except.ok.inj h).symm

theorem arrive_of_boundary {tick : ℤ} {crossing? : Option Crossing}
    (h : arrive pool request state tick true = .ok (crossing?, next)) :
    crossing? = some ⟨tick, pool.growth.set request.paid state.growth⟩ ∧
      next = { state with tick := tickPassed request tick, liquidity := next.liquidity } ∧
      (next.liquidity : ℤ) =
        state.liquidity + request.paid.entering ((pool.ticks.get? tick).getD .blank).net := by
  unfold arrive at h
  rw [if_pos rfl] at h
  obtain ⟨entering, hentering, h⟩ := bind_eq_ok.mp h
  obtain ⟨liquidity, hliquidity, h⟩ := bind_eq_ok.mp h
  obtain ⟨rfl, rfl⟩ := Prod.mk.inj (Except.ok.inj h)
  rw [entering_of_enteringLiquidity hentering] at hliquidity
  exact ⟨rfl, rfl, (addDelta_eq_ok.mp hliquidity).1⟩

theorem moved_of_moveRange {nextLevel? : Option ℕ} {step : SwapStep}
    (h : moveRange pool request state nextLevel? = .ok (step, next)) :
    ∃ move, step = .moved move ∧ RangeMoved pool request state nextLevel? move next := by
  unfold moveRange at h
  dsimp only at h
  obtain ⟨step', hcompute, h⟩ := bind_eq_ok.mp h
  obtain ⟨booked, hbooked, h⟩ := bind_eq_ok.mp h
  obtain ⟨protocolFees, hfees, h⟩ := bind_eq_ok.mp h
  obtain ⟨added, hadded, h⟩ := bind_eq_ok.mp h
  obtain ⟨-, rfl⟩ := within_eq_ok.mp hfees
  obtain ⟨hstate, hbrought⟩ := booked_of_book hbooked
  rw [hstate] at h
  split at h
  · rename_i hprice
    obtain ⟨⟨crossing?, arrived⟩, harrive, h⟩ := bind_eq_ok.mp h
    obtain ⟨rfl, rfl⟩ := Prod.mk.inj (Except.ok.inj h)
    cases hboundary : (pool.ticks.next state.tick request.paid).2 with
    | true =>
      rw [hboundary] at harrive
      obtain ⟨hcrossing, harrived, hliquidity⟩ := arrive_of_boundary harrive
      have hframe := congrArg (fun state : SwapState ↦ (state.sqrtPrice, state.tick, state.growth,
        state.protocolFees, state.lastUsedUp, state.remaining, state.exchanged)) harrived
      simp only [Prod.mk.injEq] at hframe
      obtain ⟨hsqrtPrice, htick, hgrowth, hprotocol, hlast, hremaining, hexchanged⟩ := hframe
      refine ⟨_, rfl, rfl, hcompute, rfl, hadded, fun token ↦ ?_, hsqrtPrice, hgrowth, hprotocol,
        hlast, .crossed hboundary hprice ?_ htick hliquidity⟩
      · rw [← hbrought token, brought, brought, hremaining, hexchanged]
      · rw [hgrowth]
        exact hcrossing
    | false =>
      rw [hboundary] at harrive
      obtain ⟨rfl, rfl⟩ := Prod.mk.inj (Except.ok.inj harrive)
      exact ⟨_, rfl, rfl, hcompute, rfl, hadded, hbrought, rfl, rfl, rfl, rfl,
        .bounded hboundary hprice rfl rfl rfl⟩
  · rename_i hprice
    split at h
    · rename_i hsame
      rw [pure_bind] at h
      obtain ⟨rfl, rfl⟩ := Prod.mk.inj (Except.ok.inj h)
      exact ⟨_, rfl, rfl, hcompute, rfl, hadded, hbrought, rfl, rfl, rfl, rfl,
        .rested hprice hsame rfl rfl rfl⟩
    · rename_i hmoved
      obtain ⟨tick, htick, h⟩ := bind_eq_ok.mp h
      rw [pure_bind] at h
      obtain ⟨rfl, rfl⟩ := Prod.mk.inj (Except.ok.inj h)
      exact ⟨_, rfl, rfl, hcompute, rfl, hadded, hbrought, rfl, rfl, rfl, rfl,
        .found hprice hmoved rfl htick rfl⟩

/-! ### Fills of resting orders -/

/-- What a fill of the level at a tick does to the state of a swap, once the price has reached the
level. -/
structure LevelFilled (pool : Pool) (request : SwapRequest) (state : SwapState) (tick : ℤ)
    (level : Level) (fill : LevelFill) (next : SwapState) : Prop where
  reached : ∃ levelPrice, sqrtPriceAt tick = .ok levelPrice ∧
    ¬request.paid.Past levelPrice state.sqrtPrice
  compute_eq : ∃ price, Book.priceAt tick = .ok price ∧
    LevelFill.compute price level.available level.unfilled state.remaining pool.fee request.paid =
      .ok fill
  brought_eq : ∀ token, (next.brought request).get token =
    (state.brought request).get token +
      (TokenPair.paired request.paid ((fill.amountIn : ℤ) + fill.fee) (-(fill.amountOut : ℤ))).get
        token
  state_eq : next = { state with
    remaining := next.remaining, exchanged := next.exchanged, lastUsedUp := next.lastUsedUp }

/-- What is left of a level after a fill in part. -/
def leftOf (level : Level) (fill : LevelFill) (unfilled : Share) : Level :=
  { level with available := level.available - wrap128 fill.amountOut, unfilled }

/-- Whether a move has the price of the best level ahead of it, if there is such a level. -/
def NextLevel (pool : Pool) (request : SwapRequest) (state : SwapState)
    (nextLevel? : Option ℕ) : Prop :=
  match pool.book.best? request.paid state.lastUsedUp with
  | none => nextLevel? = none
  | some (tick, _) => ∃ levelPrice, nextLevel? = some levelPrice ∧
      sqrtPriceAt tick = .ok levelPrice ∧ request.paid.Past levelPrice state.sqrtPrice

theorem NextLevel.past {nextLevel? : Option ℕ} (h : NextLevel pool request state nextLevel?) :
    ∀ level ∈ nextLevel?, request.paid.Past level state.sqrtPrice := by
  intro level hlevel
  unfold NextLevel at h
  split at h
  · rw [h] at hlevel
    exact absurd hlevel (Option.not_mem_none level)
  · obtain ⟨levelPrice, hnext, -, hpast⟩ := h
    rw [hnext] at hlevel
    exact Option.some.inj hlevel ▸ hpast

/-- The steps that a swap can take from a state. -/
inductive Advanced (pool : Pool) (request : SwapRequest) (state : SwapState) :
    SwapStep → SwapState → Prop
  | moved {nextLevel? : Option ℕ} {move : RangeMove} {next : SwapState}
    (nextLevel : NextLevel pool request state nextLevel?)
    (moved : RangeMoved pool request state nextLevel? move next) :
    Advanced pool request state (.moved move) next
  | usedUp {tick : ℤ} {level : Level} {fill : LevelFill} {next : SwapState}
    (best_eq : pool.book.best? request.paid state.lastUsedUp = some (tick, level))
    (filled : LevelFilled pool request state tick level fill next)
    (unfilled_eq : fill.unfilled? = none)
    (lastUsedUp_eq : next.lastUsedUp = some tick) :
    Advanced pool request state (.usedUp tick fill) next
  | filledInPart {tick : ℤ} {level : Level} {fill : LevelFill} {unfilled : Share}
    {next : SwapState}
    (best_eq : pool.book.best? request.paid state.lastUsedUp = some (tick, level))
    (filled : LevelFilled pool request state tick level fill next)
    (unfilled_eq : fill.unfilled? = some unfilled)
    (taken_le : wrap128 fill.amountOut ≤ level.available)
    (lastUsedUp_eq : next.lastUsedUp = state.lastUsedUp) :
    Advanced pool request state (.filledInPart tick fill (leftOf level fill unfilled)) next

theorem advanced_of_fillLevel {tick : ℤ} {level : Level} {sqrtPrice : ℕ} {step : SwapStep}
    (hbest : pool.book.best? request.paid state.lastUsedUp = some (tick, level))
    (hsqrtPrice : sqrtPriceAt tick = .ok sqrtPrice)
    (hreached : ¬request.paid.Past sqrtPrice state.sqrtPrice)
    (h : fillLevel pool request state tick level sqrtPrice = .ok (step, next)) :
    Advanced pool request state step next := by
  unfold fillLevel at h
  obtain ⟨price, hprice, h⟩ := bind_eq_ok.mp h
  obtain ⟨fill, hfill, h⟩ := bind_eq_ok.mp h
  obtain ⟨booked, hbooked, h⟩ := bind_eq_ok.mp h
  obtain ⟨hstate, hbrought⟩ := booked_of_book hbooked
  have hcompute : ∃ price, Book.priceAt tick = .ok price ∧ LevelFill.compute price level.available
      level.unfilled state.remaining pool.fee request.paid = .ok fill :=
    ⟨price, bind_eq_ok.mpr ⟨sqrtPrice, hsqrtPrice, hprice⟩, hfill⟩
  rw [hstate] at h
  cases hunfilled : fill.unfilled? with
  | none =>
    simp only [hunfilled] at h
    obtain ⟨rfl, rfl⟩ := Prod.mk.inj (Except.ok.inj h)
    exact .usedUp hbest ⟨⟨sqrtPrice, hsqrtPrice, hreached⟩, hcompute, hbrought, rfl⟩ hunfilled rfl
  | some unfilled =>
    simp only [hunfilled] at h
    obtain ⟨_, htaken, h⟩ := bind_eq_ok.mp h
    rw [require_eq_ok] at htaken
    obtain ⟨rfl, rfl⟩ := Prod.mk.inj (Except.ok.inj h)
    exact .filledInPart hbest ⟨⟨sqrtPrice, hsqrtPrice, hreached⟩, hcompute, hbrought, rfl⟩ hunfilled
      htaken rfl

/-- A step is a move along a range, up to the best level where there is one, or a fill of it. -/
theorem advanced_of_advance {step : SwapStep} (h : advance pool request state = .ok (step, next)) :
    Advanced pool request state step next := by
  unfold advance at h
  cases hbest : pool.book.best? request.paid state.lastUsedUp with
  | none =>
    simp only [hbest] at h
    obtain ⟨move, rfl, hmoved⟩ := moved_of_moveRange h
    refine .moved ?_ hmoved
    unfold NextLevel
    rw [hbest]
  | some best =>
    obtain ⟨tick, level⟩ := best
    simp only [hbest] at h
    obtain ⟨levelPrice, hlevelPrice, h⟩ := bind_eq_ok.mp h
    split at h
    · rename_i hpast
      obtain ⟨move, rfl, hmoved⟩ := moved_of_moveRange h
      refine .moved ?_ hmoved
      unfold NextLevel
      rw [hbest]
      exact ⟨levelPrice, rfl, hlevelPrice, hpast⟩
    · rename_i hreached
      exact advanced_of_fillLevel hbest hlevelPrice hreached h

/-! ### The steps of a swap -/

/-- The steps that a swap may have taken, and where it stands after them. -/
inductive Course (pool : Pool) (request : SwapRequest) : List SwapStep → SwapState → Prop
  | start : Course pool request [] (.start pool request)
  | advanced {steps : List SwapStep} {state next : SwapState} {step : SwapStep}
    (before : Course pool request steps state) (going : ∀ step ∈ steps, ¬step.IsLast)
    (not_done : ¬state.IsDone request) (advanced : Advanced pool request state step next) :
    Course pool request (steps ++ [step]) next

/-- How a swap that can be worked out goes on: it is done, or takes a step and ends with it, or goes
on after it. -/
inductive GoesOn (pool : Pool) (request : SwapRequest) (allowed : ℕ) (state : SwapState) :
    List SwapStep → SwapState → Prop
  | done (done : state.IsDone request) : GoesOn pool request allowed state [] state
  | ended {step : SwapStep} {next : SwapState} (not_done : ¬state.IsDone request)
    (advance_eq : advance pool request state = .ok (step, next)) (isLast : step.IsLast) :
    GoesOn pool request allowed state [step] next
  | went {step : SwapStep} {next last : SwapState} {rest : List SwapStep}
    (not_done : ¬state.IsDone request)
    (advance_eq : advance pool request state = .ok (step, next)) (going : ¬step.IsLast)
    (travel_eq : travel pool request allowed next = .ok (rest, last)) :
    GoesOn pool request allowed state (step :: rest) last

theorem travel_zero_ne_ok {result : List SwapStep × SwapState} :
    travel pool request 0 state ≠ .ok result := by
  simp [travel, abort]

theorem goesOn_of_travel {allowed : ℕ} {steps : List SwapStep} {last : SwapState}
    (h : travel pool request (allowed + 1) state = .ok (steps, last)) :
    GoesOn pool request allowed state steps last := by
  unfold travel at h
  split at h
  · rename_i hdone
    obtain ⟨rfl, rfl⟩ := Prod.mk.inj (Except.ok.inj h)
    exact .done hdone
  rename_i hdone
  obtain ⟨⟨step, next⟩, hadvance, h⟩ := bind_eq_ok.mp h
  dsimp only at h
  split at h
  · rename_i hlast
    obtain ⟨rfl, rfl⟩ := Prod.mk.inj (Except.ok.inj h)
    exact .ended hdone hadvance hlast
  rename_i hgoing
  obtain ⟨⟨rest, last'⟩, htravel, h⟩ := bind_eq_ok.mp h
  obtain ⟨rfl, rfl⟩ := Prod.mk.inj (Except.ok.inj h)
  exact .went hdone hadvance hgoing htravel

/-- The steps that a swap goes on with lengthen its course. -/
theorem course_of_travel {allowed : ℕ} {taken steps : List SwapStep} {last : SwapState}
    (htaken : Course pool request taken state) (hgoing : ∀ step ∈ taken, ¬step.IsLast)
    (h : travel pool request allowed state = .ok (steps, last)) :
    Course pool request (taken ++ steps) last := by
  induction allowed generalizing taken state steps with
  | zero => exact absurd h travel_zero_ne_ok
  | succ allowed ih =>
    cases goesOn_of_travel h with
    | done =>
      rwa [List.append_nil]
    | ended hdone hadvance =>
      exact .advanced htaken hgoing hdone (advanced_of_advance hadvance)
    | @went step _ _ _ hdone hadvance hstep htravel =>
      rw [List.append_cons]
      refine ih (.advanced htaken hgoing hdone (advanced_of_advance hadvance)) ?_ htravel
      intro other hother
      rcases List.mem_append.mp hother with hother | hother
      · exact hgoing other hother
      · rw [List.mem_singleton.mp hother]
        exact hstep

/-- A swap goes on until nothing is left to swap, the limit is reached or a level was filled in
part. -/
theorem done_of_travel {allowed : ℕ} {steps : List SwapStep} {last : SwapState}
    (h : travel pool request allowed state = .ok (steps, last)) :
    last.IsDone request ∨ ∃ step, steps.getLast? = some step ∧ step.IsLast := by
  induction allowed generalizing state steps with
  | zero => exact absurd h travel_zero_ne_ok
  | succ allowed ih =>
    cases goesOn_of_travel h with
    | done hdone => exact .inl hdone
    | ended _ _ hlast => exact .inr ⟨_, rfl, hlast⟩
    | went _ _ _ htravel =>
      refine (ih htravel).imp_right ?_
      rintro ⟨final, hfinal, hlast⟩
      exact ⟨final, by rw [List.getLast?_cons, hfinal, Option.getD_some], hlast⟩

/-- Where the last step of a swap filled a level in part, the level was the best one of the pool
that was not used up yet. -/
theorem Course.last_filledInPart {steps : List SwapStep} {last : SwapState} {step : SwapStep}
    (h : Course pool request steps last) (hstep : steps.getLast? = some step)
    (hlast : step.IsLast) :
    ∃ front state tick level fill unfilled, Course pool request front state ∧
      ¬state.IsDone request ∧ step = .filledInPart tick fill (leftOf level fill unfilled) ∧
      pool.book.best? request.paid state.lastUsedUp = some (tick, level) ∧
      LevelFilled pool request state tick level fill last ∧ fill.unfilled? = some unfilled := by
  cases h with
  | start => exact absurd hstep (Option.some_ne_none step).symm
  | @advanced front state _ taken hbefore _ hdone hadvanced =>
    rw [List.getLast?_concat] at hstep
    obtain rfl := Option.some.inj hstep
    cases hadvanced with
    | moved => exact absurd hlast id
    | usedUp => exact absurd hlast id
    | filledInPart hbest hfilled hunfilled _ _ =>
      exact ⟨front, state, _, _, _, _, hbefore, hdone, rfl, hbest, hfilled, hunfilled⟩

end SwapState

open SwapState

namespace Pool

variable {pool : Pool} {request : SwapRequest} {plan : SwapPlan}

/-- Whether a swap may start: the pool is open, and the limit lies ahead of its price and within the
bounds. -/
structure Admits (pool : Pool) (request : SwapRequest) : Prop where
  isOpen : pool.IsOpen
  limitAllowed : pool.LimitAllowed request

/-- What a swap that is worked out rests on. -/
structure Planned (pool : Pool) (request : SwapRequest) (plan : SwapPlan) : Prop where
  isOpen : pool.IsOpen
  limitAllowed : pool.LimitAllowed request
  course : Course pool request plan.steps plan.last
  done : plan.last.IsDone request ∨ ∃ step, plan.steps.getLast? = some step ∧ step.IsLast
  amounts_eq : plan.amounts = plan.last.brought request
  protocolFees_eq : plan.protocolFees =
    pool.protocolFees.get request.paid + plan.last.protocolFees
  protocolFees_lt : plan.protocolFees < twoPow 128

theorem Planned.admits (h : pool.Planned request plan) : pool.Admits request :=
  ⟨h.isOpen, h.limitAllowed⟩

theorem planned_of_planSwap (h : pool.planSwap request = .ok plan) : Planned pool request plan := by
  unfold planSwap at h
  obtain ⟨_, -, h⟩ := bind_eq_ok.mp h
  obtain ⟨_, hopen, h⟩ := bind_eq_ok.mp h
  obtain ⟨_, hlimit, h⟩ := bind_eq_ok.mp h
  rw [require_eq_ok] at hopen hlimit
  obtain ⟨⟨steps, last⟩, htravel, h⟩ := bind_eq_ok.mp h
  obtain ⟨consumed, hconsumed, h⟩ := bind_eq_ok.mp h
  obtain ⟨protocolFees, hfees, h⟩ := bind_eq_ok.mp h
  obtain ⟨-, rfl⟩ := within_eq_ok.mp hconsumed
  obtain ⟨hfit, rfl⟩ := within_eq_ok.mp hfees
  rw [← Except.ok.inj h]
  have hnone : ∀ step ∈ ([] : List SwapStep), ¬step.IsLast :=
    fun _ hstep ↦ absurd hstep List.not_mem_nil
  exact ⟨hopen, hlimit, course_of_travel .start hnone htravel, done_of_travel htravel, rfl, rfl,
    hfit⟩

theorem travel_of_planSwap (h : pool.planSwap request = .ok plan) :
    travel pool request (stepBudget pool request) (.start pool request) =
      .ok (plan.steps, plan.last) := by
  unfold planSwap at h
  obtain ⟨_, -, h⟩ := bind_eq_ok.mp h
  obtain ⟨_, -, h⟩ := bind_eq_ok.mp h
  obtain ⟨_, -, h⟩ := bind_eq_ok.mp h
  obtain ⟨⟨steps, last⟩, htravel, h⟩ := bind_eq_ok.mp h
  obtain ⟨consumed, -, h⟩ := bind_eq_ok.mp h
  obtain ⟨protocolFees, -, h⟩ := bind_eq_ok.mp h
  rw [← Except.ok.inj h]
  exact htravel

theorem swap_eq_ok {brought : TokenPair ℤ} {after : Pool}
    (h : swap request pool = .ok brought after) :
    ∃ plan, pool.planSwap request = .ok plan ∧ brought = plan.amounts ∧
      after = pool.applySwap request.paid plan := by
  unfold swap at h
  simp only [Action.bind_eq_ok, Action.get_eq_ok, Action.lift_eq_ok, Action.set_eq_ok,
    Action.pure_eq_ok] at h
  obtain ⟨_, _, ⟨rfl, rfl⟩, plan, _, ⟨hplan, rfl⟩, _, _, rfl, rfl, rfl⟩ := h
  exact ⟨plan, hplan, rfl, rfl⟩

theorem swap_of_planSwap (h : pool.planSwap request = .ok plan) :
    swap request pool = .ok plan.amounts (pool.applySwap request.paid plan) := by
  unfold swap
  simp only [Action.bind_eq_ok, Action.get_eq_ok, Action.lift_eq_ok, Action.set_eq_ok,
    Action.pure_eq_ok]
  exact ⟨_, _, ⟨rfl, rfl⟩, plan, _, ⟨h, rfl⟩, (), _, rfl, rfl, rfl⟩

/-! ### The pool in the middle of a swap -/

/-- The pool as it would be written if a swap ended after the steps taken so far. -/
def midSwap (pool : Pool) (request : SwapRequest) (steps : List SwapStep) (state : SwapState) :
    Pool :=
  { steps.foldl (applyStep request.paid) pool with
    sqrtPrice := state.sqrtPrice
    tick := state.tick
    liquidity := state.liquidity
    growth := pool.growth.set request.paid state.growth
    protocolFees := pool.protocolFees.set request.paid
      (pool.protocolFees.get request.paid + state.protocolFees) }

theorem midSwap_start (pool : Pool) (request : SwapRequest) :
    pool.midSwap request [] (.start pool request) = pool := by
  unfold midSwap SwapState.start
  simp only [List.foldl_nil, TokenPair.set_get_self, Nat.add_zero]

theorem applySwap_eq (h : Planned pool request plan) :
    pool.applySwap request.paid plan = pool.midSwap request plan.steps plan.last := by
  unfold applySwap midSwap
  rw [h.protocolFees_eq]

theorem midSwap_append (pool : Pool) (request : SwapRequest) (steps : List SwapStep)
    (step : SwapStep) (state next : SwapState) :
    pool.midSwap request (steps ++ [step]) next =
      { applyStep request.paid (pool.midSwap request steps state) step with
        sqrtPrice := next.sqrtPrice
        tick := next.tick
        liquidity := next.liquidity
        growth := pool.growth.set request.paid next.growth
        protocolFees := pool.protocolFees.set request.paid
          (pool.protocolFees.get request.paid + next.protocolFees) } := by
  unfold midSwap
  rw [List.foldl_append, List.foldl_cons, List.foldl_nil]
  cases step with
  | moved move => cases hcrossing : move.crossing? <;> simp only [applyStep, hcrossing]
  | usedUp tick fill => rfl
  | filledInPart tick fill left => rfl

/-- Steps write no more than the ticks and the book. -/
theorem applyStep_eq (paid : Token) (pool : Pool) (step : SwapStep) :
    applyStep paid pool step = { pool with
      ticks := (applyStep paid pool step).ticks
      book := (applyStep paid pool step).book } := by
  cases step with
  | moved move => cases hcrossing : move.crossing? <;> simp only [applyStep, hcrossing]
  | usedUp tick fill => rfl
  | filledInPart tick fill left => rfl

theorem foldl_applyStep_eq (paid : Token) (pool : Pool) (steps : List SwapStep) :
    steps.foldl (applyStep paid) pool = { pool with
      ticks := (steps.foldl (applyStep paid) pool).ticks
      book := (steps.foldl (applyStep paid) pool).book } := by
  induction steps generalizing pool with
  | nil => rfl
  | cons step steps ih =>
    rw [List.foldl_cons, ih, applyStep_eq paid pool step]

end Pool

end RangeBook
