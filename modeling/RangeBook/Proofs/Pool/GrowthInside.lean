import Mathlib
import RangeBook.Proofs.Pool.Bookkeeping
import RangeBook.Proofs.Tick.Growth

/-!
# The growth inside a range

The growth inside a range is read off from snapshots that are kept at its two ends, modulo
`2 ^ 256`. It counts the growth of exactly those steps of swaps that start in the range, and
nothing else changes it as long as both ends stay boundary ticks (`growthInside_of_call`).

The growth inside is the difference of the growth below the two ends (`growthInside_eq`). A move
along a range adds to the growth below a boundary tick where it starts below the tick, and the
tick that it crosses turns its snapshot round at that moment (`growthBelow_of_moved`). A change of
liquidity leaves the snapshots of ticks that are in use alone
(`RangeAdjusted.growthOutside_eq`).
-/

set_option autoImplicit false
set_option relaxedAutoImplicit false

namespace RangeBook

attribute [local irreducible] tickSqrtPrice tickAt

/-- What a step of a swap adds to the growth inside a range: what a move adds to the growth, where
it starts in the range. -/
def SwapStep.growthIn (lower upper : ℤ) : SwapStep → Growth
  | .moved move =>
    if lower ≤ move.startTick ∧ move.startTick < upper then move.growthAdded else 0
  | .usedUp _ _ => 0
  | .filledInPart _ _ _ => 0

/-- What the steps of a swap add to the growth inside a range. -/
def SwapPlan.growthIn (plan : SwapPlan) (lower upper : ℤ) : Growth :=
  (plan.steps.map (SwapStep.growthIn lower upper)).sum

namespace Pool

variable {pool after : Pool} {key : PositionKey} {lower upper tick delta : ℤ} {token : Token}

/-- The growth inside a range, seen from the tick of the pool. -/
def growthInside (pool : Pool) (lower upper : ℤ) : TokenPair Growth :=
  pool.ticks.growthInside lower upper pool.tick pool.growth

/-- The growth below a tick, seen from the tick of the pool. -/
def growthBelow (pool : Pool) (tick : ℤ) (token : Token) : Growth :=
  if tick ≤ pool.tick then (pool.ticks.find tick).growthOutside.get token
  else pool.growth.get token - (pool.ticks.find tick).growthOutside.get token

/-- The growth inside a range is the growth below its upper end less that below its lower end. -/
theorem growthInside_eq (pool : Pool) (lower upper : ℤ) (token : Token) :
    (pool.growthInside lower upper).get token =
      pool.growthBelow upper token - pool.growthBelow lower token := by
  rw [growthInside, TickTable.growthInside, BoundaryTick.get_growthInside,
    BoundaryTick.get_growthBelow, BoundaryTick.get_growthBelow]
  rfl

/-- The growth inside depends on the snapshots at the two ends only. -/
theorem growthInside_congr (htick : after.tick = pool.tick) (hgrowth : after.growth = pool.growth)
    (hlower : (after.ticks.find lower).growthOutside = (pool.ticks.find lower).growthOutside)
    (hupper : (after.ticks.find upper).growthOutside = (pool.ticks.find upper).growthOutside) :
    after.growthInside lower upper = pool.growthInside lower upper := by
  refine TokenPair.ext_get fun token ↦ ?_
  rw [growthInside_eq, growthInside_eq, growthBelow, growthBelow, growthBelow, growthBelow, htick,
    hgrowth, hlower, hupper]

/-! ### Changes of liquidity -/

/-- A boundary tick in use keeps its snapshot when it is written. -/
theorem BoundariesStaged.growthOutside_eq {staged : TickTable}
    (hstaged : pool.BoundariesStaged key delta staged) (h : pool.Bookkept)
    (hstored : (pool.ticks.get? tick).isSome) :
    (staged.find tick).growthOutside = (pool.ticks.find tick).growthOutside := by
  by_cases hdelta : delta = 0
  · rw [hstaged.unchanged hdelta]
  by_cases hend : key.IsEnd tick
  · obtain ⟨rangeEnd, rfl⟩ := PositionKey.isEnd_iff.mp hend
    obtain ⟨boundary, hget, hboundary⟩ := hstaged.adjusted hdelta rangeEnd
    have hused : ¬(pool.ticks.find (key.tickAt rangeEnd)).gross = 0 := by
      rw [(h.find_eq _).1]
      exact ((h.isSome_iff _).mp hstored).ne'
    rw [TickTable.find, hget, Option.getD_some, hboundary.growthOutside_eq,
      if_neg fun hfirst ↦ hused hfirst.1]
  · rw [TickTable.find, TickTable.find, hstaged.off_ends tick hend]

/-- Between boundary ticks in use the growth inside is what it was, once they are written. -/
theorem BoundariesStaged.growthInside_eq {staged : TickTable}
    (hstaged : pool.BoundariesStaged key delta staged) (h : pool.Bookkept)
    (hlower : (pool.ticks.get? lower).isSome) (hupper : (pool.ticks.get? upper).isSome) :
    staged.growthInside lower upper pool.tick pool.growth = pool.growthInside lower upper := by
  change ({ pool with ticks := staged } : Pool).growthInside lower upper = _
  exact growthInside_congr rfl rfl (hstaged.growthOutside_eq h hlower)
    (hstaged.growthOutside_eq h hupper)

variable {staged : TickTable} {position : Position} {amounts : TokenPair ℤ}

/-- What is kept at a boundary tick after a change was there before unused ticks were taken out. -/
theorem RangeAdjusted.find_eq
    (hadjusted : pool.RangeAdjusted key delta staged position amounts after)
    (hstored : (after.ticks.get? tick).isSome) : after.ticks.find tick = staged.find tick := by
  have heq := hadjusted.ticks_eq tick
  split at heq
  · rw [heq] at hstored
    exact absurd hstored Bool.false_ne_true
  · rw [TickTable.find, TickTable.find, heq]

theorem RangeAdjusted.growthOutside_eq
    (hadjusted : pool.RangeAdjusted key delta staged position amounts after) (h : pool.Bookkept)
    (hbefore : (pool.ticks.get? tick).isSome) (hafter : (after.ticks.get? tick).isSome) :
    (after.ticks.find tick).growthOutside = (pool.ticks.find tick).growthOutside := by
  rw [hadjusted.find_eq hafter, hadjusted.boundaries.growthOutside_eq h hbefore]

/-- A change of liquidity of any position leaves the growth inside other ranges alone. -/
theorem RangeAdjusted.growthInside_eq
    (hadjusted : pool.RangeAdjusted key delta staged position amounts after) (h : pool.Bookkept)
    (hlower : (pool.ticks.get? lower).isSome) (hupper : (pool.ticks.get? upper).isSome)
    (hlowerAfter : (after.ticks.get? lower).isSome)
    (hupperAfter : (after.ticks.get? upper).isSome) :
    after.growthInside lower upper = pool.growthInside lower upper :=
  growthInside_congr (by rw [hadjusted.pool_eq]) (by rw [hadjusted.pool_eq])
    (hadjusted.growthOutside_eq h hlower hlowerAfter)
    (hadjusted.growthOutside_eq h hupper hupperAfter)

/-! ### Swaps -/

variable {request : SwapRequest} {plan : SwapPlan} {steps : List SwapStep}
  {state next : SwapState} {nextLevel? : Option ℕ} {move : RangeMove}

theorem get_growth_midSwap (pool : Pool) (request : SwapRequest) (steps : List SwapStep)
    (state : SwapState) (token : Token) :
    (pool.midSwap request steps state).growth.get token =
      if token = request.paid then state.growth else pool.growth.get token := by
  change (pool.growth.set request.paid state.growth).get token = _
  cases request.paid <;> cases token <;> rfl

/-- A move writes the snapshot of the tick that it crosses and no other. -/
theorem find_midSwap_moved (hmoved : SwapState.RangeMoved pool request state nextLevel? move next)
    (hunderway : SwapState.Underway pool request state) (steps : List SwapStep)
    (hstored : (pool.ticks.get? tick).isSome) :
    ((pool.midSwap request (steps ++ [.moved move]) next).ticks.find tick).growthOutside =
      if move.crossing?.map Crossing.tick = some tick then
        (pool.midSwap request (steps ++ [.moved move]) next).growth.zipWith (· - ·)
          ((pool.midSwap request steps state).ticks.find tick).growthOutside
      else ((pool.midSwap request steps state).ticks.find tick).growthOutside := by
  rw [midSwap_append pool request steps (.moved move) state next]
  cases hcrossing : move.crossing? with
  | none =>
    rw [Option.map_none, if_neg (Option.some_ne_none tick).symm]
    simp only [applyStep, hcrossing]
  | some crossing =>
    obtain ⟨-, -, hgrowth⟩ := hmoved.crossing_eq hunderway hcrossing
    simp only [applyStep, hcrossing, Option.map_some, TickTable.find, TickTable.get?_cross,
      Option.some.injEq, eq_comm (a := crossing.tick)]
    by_cases hat : tick = crossing.tick
    · subst hat
      have hsome : ((pool.midSwap request steps state).ticks.get? crossing.tick).isSome := by
        rw [isSome_midSwap]
        exact hstored
      obtain ⟨boundary, hget⟩ := Option.isSome_iff_exists.mp hsome
      simp only [if_true, hget, Option.map_some, Option.getD_some, BoundaryTick.cross, hgrowth]
    · simp only [if_neg hat]

/-- A move adds to the growth below the boundary ticks above which it starts. -/
theorem growthBelow_of_moved (hmoved : SwapState.RangeMoved pool request state nextLevel? move next)
    (hunderway : SwapState.Underway pool request state)
    (hlevel : ∀ level ∈ nextLevel?, request.paid.Past level state.sqrtPrice)
    (steps : List SwapStep) (hstored : (pool.ticks.get? tick).isSome) (token : Token) :
    (pool.midSwap request (steps ++ [.moved move]) next).growthBelow tick token =
      (pool.midSwap request steps state).growthBelow tick token +
        if tick ≤ state.tick ∨ token ≠ request.paid then 0 else move.growthAdded := by
  have hgrowth : (pool.midSwap request (steps ++ [.moved move]) next).growth.get token =
      (pool.midSwap request steps state).growth.get token +
        if token = request.paid then move.growthAdded else 0 := by
    rw [get_growth_midSwap, get_growth_midSwap, hmoved.growth_eq]
    split_ifs
    · rfl
    · exact (add_zero _).symm
  have hside := hmoved.le_tick_iff hunderway hlevel hstored
  have hfind := congrArg (TokenPair.get · token) (find_midSwap_moved hmoved hunderway steps hstored)
  have htick : (pool.midSwap request steps state).tick = state.tick := rfl
  have htick' : (pool.midSwap request (steps ++ [.moved move]) next).tick = next.tick := rfl
  unfold growthBelow
  rw [htick, htick']
  by_cases hcrossed : move.crossing?.map Crossing.tick = some tick
  · rw [if_pos hcrossed] at hside
    simp only [if_pos hcrossed, TokenPair.get_zipWith] at hfind
    by_cases hle : tick ≤ state.tick
    · rw [if_neg fun hle' ↦ hside.mp hle' hle, if_pos hle, if_pos (.inl hle), hfind]
      ring
    · rw [if_pos (hside.mpr hle), if_neg hle, hfind, hgrowth]
      simp only [hle, false_or, ite_not]
      ring
  · rw [if_neg hcrossed] at hside
    simp only [if_neg hcrossed] at hfind
    by_cases hle : tick ≤ state.tick
    · rw [if_pos (hside.mpr hle), if_pos hle, if_pos (.inl hle), hfind, add_zero]
    · rw [if_neg fun hle' ↦ hle (hside.mp hle'), if_neg hle, hfind, hgrowth]
      simp only [hle, false_or, ite_not]
      ring

/-- A move adds to the growth inside the ranges around the tick where it starts. -/
theorem growthInside_of_moved (hmoved : SwapState.RangeMoved pool request state nextLevel? move next)
    (hunderway : SwapState.Underway pool request state)
    (hlevel : ∀ level ∈ nextLevel?, request.paid.Past level state.sqrtPrice)
    (steps : List SwapStep) (horder : lower < upper) (hlower : (pool.ticks.get? lower).isSome)
    (hupper : (pool.ticks.get? upper).isSome) (token : Token) :
    ((pool.midSwap request (steps ++ [.moved move]) next).growthInside lower upper).get token =
      ((pool.midSwap request steps state).growthInside lower upper).get token +
        if token = request.paid then (SwapStep.moved move).growthIn lower upper else 0 := by
  rw [growthInside_eq, growthInside_eq, growthBelow_of_moved hmoved hunderway hlevel steps hlower,
    growthBelow_of_moved hmoved hunderway hlevel steps hupper, SwapStep.growthIn,
    hmoved.startTick_eq]
  by_cases hpaid : token = request.paid
  · simp only [hpaid, ne_eq, not_true_eq_false, or_false, if_true]
    by_cases hin : lower ≤ state.tick <;> by_cases hout : upper ≤ state.tick
    · rw [if_pos hin, if_pos hout, if_neg fun h ↦ not_le.mpr h.2 hout]
      ring
    · rw [if_pos hin, if_neg hout, if_pos ⟨hin, not_le.mp hout⟩]
      ring
    · exact absurd (le_trans horder.le hout) hin
    · rw [if_neg hin, if_neg hout, if_neg fun h ↦ hin h.1]
      ring
  · simp only [hpaid, ne_eq, not_false_eq_true, or_true, if_true, if_false]
    ring

/-- A fill of a level leaves the growth inside all ranges alone. -/
theorem growthInside_of_filled {tick : ℤ} {level : Level} {fill : LevelFill} {step : SwapStep}
    (hfilled : SwapState.LevelFilled pool request state tick level fill next)
    (hticks : (applyStep request.paid (pool.midSwap request steps state) step).ticks =
      (pool.midSwap request steps state).ticks) :
    (pool.midSwap request (steps ++ [step]) next).growthInside lower upper =
      (pool.midSwap request steps state).growthInside lower upper := by
  have hnext : next.tick = state.tick ∧ next.growth = state.growth := by
    rw [hfilled.state_eq]
    exact ⟨rfl, rfl⟩
  rw [midSwap_append pool request steps step state next]
  refine growthInside_congr hnext.1 ?_ ?_ ?_
  · change pool.growth.set request.paid next.growth = pool.growth.set request.paid state.growth
    rw [hnext.2]
  · change ((applyStep request.paid _ step).ticks.find lower).growthOutside = _
    rw [hticks]
  · change ((applyStep request.paid _ step).ticks.find upper).growthOutside = _
    rw [hticks]

/-- A step of a swap adds to the growth inside a range what it counts for. -/
theorem growthInside_of_advanced {step : SwapStep}
    (hadvanced : SwapState.Advanced pool request state step next)
    (hunderway : SwapState.Underway pool request state) (steps : List SwapStep)
    (horder : lower < upper) (hlower : (pool.ticks.get? lower).isSome)
    (hupper : (pool.ticks.get? upper).isSome) (token : Token) :
    ((pool.midSwap request (steps ++ [step]) next).growthInside lower upper).get token =
      ((pool.midSwap request steps state).growthInside lower upper).get token +
        if token = request.paid then step.growthIn lower upper else 0 := by
  cases hadvanced with
  | moved hlevel hmoved =>
    exact growthInside_of_moved hmoved hunderway hlevel.past steps horder hlower hupper token
  | usedUp _ hfilled _ _ =>
    rw [growthInside_of_filled hfilled rfl, SwapStep.growthIn, ite_self, add_zero]
  | filledInPart _ hfilled _ _ _ =>
    rw [growthInside_of_filled hfilled rfl, SwapStep.growthIn, ite_self, add_zero]

/-- Wherever a swap stands, the growth inside a range is what its steps in the range added. -/
theorem growthInside_of_course (h : pool.Bookkept) (hplanned : pool.Planned request plan)
    (hcourse : SwapState.Course pool request steps state) (horder : lower < upper)
    (hlower : (pool.ticks.get? lower).isSome) (hupper : (pool.ticks.get? upper).isSome)
    (token : Token) :
    ((pool.midSwap request steps state).growthInside lower upper).get token =
      (pool.growthInside lower upper).get token +
        if token = request.paid then (steps.map (SwapStep.growthIn lower upper)).sum else 0 := by
  induction hcourse with
  | start => rw [midSwap_start, List.map_nil, List.sum_nil, ite_self, add_zero]
  | @advanced steps state next step hbefore _ _ hadvanced ih =>
    have hunderway := hplanned.underway h.inBounds (h.stands hplanned.isOpen) hbefore
    rw [growthInside_of_advanced hadvanced hunderway steps horder hlower hupper, ih,
      List.map_append, List.sum_append, List.map_singleton, List.sum_singleton]
    split_ifs
    · ring
    · ring

/-! ### All calls -/

/-- Between two ticks that are boundaries before and after a call, the growth inside changes by
what the steps of a swap that start between them add in the token paid. No other call changes
it. -/
theorem growthInside_of_call (hreachable : pool.Reachable) {call : Call} {brought : TokenPair ℤ}
    (hrun : call.run pool = .ok brought after) (horder : lower < upper)
    (hlower : (pool.ticks.get? lower).isSome) (hupper : (pool.ticks.get? upper).isSome)
    (hlowerAfter : (after.ticks.get? lower).isSome)
    (hupperAfter : (after.ticks.get? upper).isSome) :
    match call with
    | .swap request => ∃ plan, pool.planSwap request = .ok plan ∧
        (after.growthInside lower upper).get request.paid =
          (pool.growthInside lower upper).get request.paid + plan.growthIn lower upper ∧
        (after.growthInside lower upper).get request.paid.other =
          (pool.growthInside lower upper).get request.paid.other
    | _ => after.growthInside lower upper = pool.growthInside lower upper := by
  have h := hreachable.bookkept
  cases Call.finished_of_run hrun with
  | firstPriceSet hclosed _ =>
    rw [h.isSome_iff, h.closed hclosed] at hlower
    exact absurd hlower (lt_irrefl 0)
  | liquidityAdded _ hadjusted =>
    exact hadjusted.growthInside_eq h hlower hupper hlowerAfter hupperAfter
  | liquidityRemoved _ hadjusted =>
    exact hadjusted.growthInside_eq h hlower hupper hlowerAfter hupperAfter
  | @swapped request plan hplan =>
    have hplanned := planned_of_planSwap hplan
    have hinside := growthInside_of_course h hplanned hplanned.course horder hlower hupper
    refine ⟨plan, hplan, ?_, ?_⟩
    · rw [applySwap_eq hplanned, hinside, if_pos rfl]
      rfl
    · have hother : request.paid.other ≠ request.paid := by cases request.paid <;> decide
      rw [applySwap_eq hplanned, hinside, if_neg hother, add_zero]
  | collected => rfl
  | nothingCollected => rfl
  | protocolPartSet => rfl
  | protocolFeesCollected => rfl
  | orderPlaced => rfl
  | orderCancelled => rfl
  | orderCollected => rfl

/-- A swap that starts in a range and leaves it adds to the growth inside for the first part of
its way only. -/
theorem growthInside_of_call_pastFirstRange :
    let after := (Call.swap .pastFirstRange).leaves twoRanges
    (∃ plan, twoRanges.planSwap .pastFirstRange = .ok plan ∧
      (after.growthInside (-60) 60).one =
        (twoRanges.growthInside (-60) 60).one + plan.growthIn (-60) 60 ∧
      (after.growthInside (-60) 60).zero = (twoRanges.growthInside (-60) 60).zero) ∧
    0 < (after.growthInside (-60) 60).one ∧
    (after.growthInside (-60) 60).one < after.growth.one := by
  refine ⟨?_, by decide +kernel, by decide +kernel⟩
  have hfinishes : (Call.swap .pastFirstRange).finishes twoRanges = true := by decide +kernel
  obtain ⟨brought, hrun⟩ := Call.run_of_finishes hfinishes
  exact growthInside_of_call twoRanges_reachable hrun (by decide) (by decide +kernel)
    (by decide +kernel) (by decide +kernel) (by decide +kernel)

end Pool

end RangeBook
