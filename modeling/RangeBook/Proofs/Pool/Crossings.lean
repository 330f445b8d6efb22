import Mathlib
import RangeBook.Proofs.Pool.Bookkeeping

/-!
# The ticks that a swap crosses

A swap that takes the tick of a pool from one tick to another crosses the boundary ticks between
them, each of them once (`passed_ticks_crossed_once`). A crossed tick turns its snapshot of the
growth round, with the growth at that moment, and nothing else of the ticks, the positions and the
settings changes.

A boundary tick changes sides with the tick of the swap exactly where a step crosses it, so the
number of its crossings is the difference of the sides on which it lies before and after
(`count_crossings`). Neither the price at which a step ends nor the way in which its tick is found
enters this count.
-/

set_option autoImplicit false
set_option relaxedAutoImplicit false

namespace RangeBook

attribute [local irreducible] tickSqrtPrice tickAt

/-! ### Crossings of steps -/

/-- Whether a tick is passed on the way from one tick to another, where this token is paid: a price
that falls passes the tick from which it starts, one that rises the tick at which it ends. -/
def Token.Passes (paid : Token) (before after tick : ℤ) : Prop :=
  match paid with
  | .zero => after < tick ∧ tick ≤ before
  | .one => before < tick ∧ tick ≤ after

/-- The tick that a step crossed, with the growth at that moment. -/
def SwapStep.crossing? : SwapStep → Option Crossing
  | .moved move => move.crossing?
  | .usedUp _ _ => none
  | .filledInPart _ _ _ => none

/-- What a step adds to the growth in the token paid. -/
def SwapStep.growthAdded : SwapStep → Growth
  | .moved move => move.growthAdded
  | .usedUp _ _ => 0
  | .filledInPart _ _ _ => 0

/-- The crossings of the steps of a swap, in their order. -/
def crossings (steps : List SwapStep) : List Crossing :=
  steps.filterMap SwapStep.crossing?

theorem crossings_cons (step : SwapStep) (steps : List SwapStep) :
    crossings (step :: steps) = step.crossing?.toList ++ crossings steps := by
  unfold crossings
  cases hcrossing : step.crossing? with
  | none =>
    rw [List.filterMap_cons_none hcrossing]
    rfl
  | some crossing =>
    rw [List.filterMap_cons_some hcrossing]
    rfl

theorem crossings_append (steps : List SwapStep) (step : SwapStep) :
    crossings (steps ++ [step]) = crossings steps ++ step.crossing?.toList := by
  rw [crossings, List.filterMap_append]
  change crossings steps ++ crossings [step] = _
  rw [crossings_cons]
  exact congrArg _ (List.append_nil _)

/-- The growth of a pool after steps of a swap. -/
def Pool.growthAfter (pool : Pool) (paid : Token) (steps : List SwapStep) : TokenPair Growth :=
  pool.growth.set paid (pool.growth.get paid + (steps.map SwapStep.growthAdded).sum)

/-! ### Crossing ticks one after the other -/

namespace TickTable

variable {tick : ℤ} {passed : List Crossing}

/-- Lets the price pass ticks one after the other. -/
def crossAll (table : TickTable) (passed : List Crossing) : TickTable :=
  passed.foldl (fun table crossing ↦ (table.cross crossing.tick crossing.growth).2) table

theorem crossAll_append (table : TickTable) (passed passed' : List Crossing) :
    table.crossAll (passed ++ passed') = (table.crossAll passed).crossAll passed' :=
  List.foldl_append

theorem get?_crossAll_of_notMem (table : TickTable) (h : tick ∉ passed.map Crossing.tick) :
    (table.crossAll passed).get? tick = table.get? tick := by
  induction passed generalizing table with
  | nil => rfl
  | cons crossing passed ih =>
    rw [List.map_cons, List.mem_cons, not_or] at h
    have hrest := ih (table.cross crossing.tick crossing.growth).2 h.2
    rw [get?_cross, if_neg h.1] at hrest
    exact hrest

/-- A tick that is passed once is crossed with the growth of that crossing. -/
theorem get?_crossAll_of_mem (table : TickTable) (hnodup : (passed.map Crossing.tick).Nodup)
    {crossing : Crossing} (h : crossing ∈ passed) :
    (table.crossAll passed).get? crossing.tick =
      (table.get? crossing.tick).map (BoundaryTick.cross · crossing.growth) := by
  induction passed generalizing table with
  | nil => exact absurd h List.not_mem_nil
  | cons first passed ih =>
    rw [List.map_cons, List.nodup_cons] at hnodup
    rcases List.mem_cons.mp h with rfl | h
    · have hrest := get?_crossAll_of_notMem (table.cross crossing.tick crossing.growth).2 hnodup.1
      rw [get?_cross, if_pos rfl] at hrest
      exact hrest
    · have hne : crossing.tick ≠ first.tick := by
        intro heq
        exact hnodup.1 (heq ▸ List.mem_map_of_mem h)
      have hrest := ih (table.cross first.tick first.growth).2 hnodup.2 h
      rw [get?_cross, if_neg hne] at hrest
      exact hrest

end TickTable

namespace Pool

open SwapState

variable {pool after : Pool} {request : SwapRequest} {plan : SwapPlan} {steps : List SwapStep}
  {state : SwapState} {tick : ℤ}

theorem ticks_applyStep (paid : Token) (pool : Pool) (step : SwapStep) :
    (applyStep paid pool step).ticks = pool.ticks.crossAll step.crossing?.toList := by
  cases step with
  | moved move =>
    rw [SwapStep.crossing?]
    cases hcrossing : move.crossing? <;> simp only [applyStep, hcrossing] <;> rfl
  | usedUp tick fill => rfl
  | filledInPart tick fill left => rfl

/-- A swap writes the ticks that it crossed and no others. -/
theorem ticks_midSwap (pool : Pool) (request : SwapRequest) (steps : List SwapStep)
    (state : SwapState) :
    (pool.midSwap request steps state).ticks = pool.ticks.crossAll (crossings steps) := by
  change (steps.foldl (applyStep request.paid) pool).ticks = _
  induction steps generalizing pool with
  | nil => rfl
  | cons step steps ih =>
    rw [List.foldl_cons, ih, ticks_applyStep, ← TickTable.crossAll_append, ← crossings_cons]

/-! ### The crossings of a course -/

/-- How often a boundary tick is crossed by a step: as often as the tick of the swap passes it. -/
theorem count_crossing_of_advanced {step : SwapStep} {next : SwapState}
    (hadvanced : Advanced pool request state step next) (hunderway : Underway pool request state)
    (hstored : (pool.ticks.get? tick).isSome) :
    (if tick ≤ next.tick then 1 else 0 : ℤ) = (if tick ≤ state.tick then 1 else 0) +
      request.paid.entering 1 * (step.crossing?.toList.map Crossing.tick).count tick := by
  cases hadvanced with
  | @moved _ move _ hlevel hmoved =>
    rw [hmoved.le_tick_count hunderway hlevel.past hstored, SwapStep.crossing?]
    cases move.crossing? with
    | none => simp only [Option.elim_none, Option.toList_none, List.map_nil, List.count_nil,
        Nat.cast_zero, mul_zero]
    | some crossing =>
      by_cases hat : crossing.tick = tick
      · simp [hat]
      · simp [hat]
  | usedUp _ hfilled _ _ =>
    rw [hfilled.state_eq]
    simp [SwapStep.crossing?]
  | filledInPart _ hfilled _ _ _ =>
    rw [hfilled.state_eq]
    simp [SwapStep.crossing?]

/-- The number of crossings of a boundary tick is the difference of its sides before and after. -/
theorem count_crossings (h : pool.Bookkept) (hadmits : pool.Admits request)
    (hcourse : Course pool request steps state) (hstored : (pool.ticks.get? tick).isSome) :
    (if tick ≤ state.tick then 1 else 0 : ℤ) = (if tick ≤ pool.tick then 1 else 0) +
      request.paid.entering 1 * ((crossings steps).map Crossing.tick).count tick := by
  induction hcourse with
  | start =>
    change (if tick ≤ pool.tick then 1 else 0 : ℤ) = _
    rw [crossings, List.filterMap_nil, List.map_nil, List.count_nil, Nat.cast_zero, mul_zero,
      add_zero]
  | advanced hbefore _ _ hadvanced ih =>
    have hunderway := hadmits.underway h.inBounds (h.stands hadmits.isOpen) hbefore
    rw [count_crossing_of_advanced hadvanced hunderway hstored, ih, crossings_append,
      List.map_append, List.count_append, Nat.cast_add]
    ring

/-- Crossed ticks are boundary ticks. -/
theorem isSome_of_mem_crossings (h : pool.Bookkept) (hadmits : pool.Admits request)
    (hcourse : Course pool request steps state) {crossing : Crossing}
    (hmem : crossing ∈ crossings steps) : (pool.ticks.get? crossing.tick).isSome := by
  induction hcourse with
  | start => exact absurd hmem List.not_mem_nil
  | advanced hbefore _ _ hadvanced ih =>
    have hunderway := hadmits.underway h.inBounds (h.stands hadmits.isOpen) hbefore
    rw [crossings_append, List.mem_append, Option.mem_toList] at hmem
    rcases hmem with hmem | hmem
    · exact ih hmem
    · cases hadvanced with
      | moved _ hmoved => exact (hmoved.crossing_eq hunderway hmem).2.1
      | usedUp => exact absurd hmem (Option.not_mem_none _)
      | filledInPart => exact absurd hmem (Option.not_mem_none _)

/-- A boundary tick is crossed where it is passed, and no more than once. -/
theorem crossings_of_course (h : pool.Bookkept) (hadmits : pool.Admits request)
    (hcourse : Course pool request steps state) :
    ((crossings steps).map Crossing.tick).Nodup ∧
      ∀ tick, tick ∈ (crossings steps).map Crossing.tick ↔
        (pool.ticks.get? tick).isSome ∧ request.paid.Passes pool.tick state.tick tick := by
  have hstored : ∀ tick ∈ (crossings steps).map Crossing.tick, (pool.ticks.get? tick).isSome := by
    intro tick hmem
    obtain ⟨crossing, hcrossing, rfl⟩ := List.mem_map.mp hmem
    exact isSome_of_mem_crossings h hadmits hcourse hcrossing
  have hcount : ∀ tick, (pool.ticks.get? tick).isSome →
      ((crossings steps).map Crossing.tick).count tick ≤ 1 ∧
        (0 < ((crossings steps).map Crossing.tick).count tick ↔
          request.paid.Passes pool.tick state.tick tick) := by
    intro tick htick
    have hsides := count_crossings h hadmits hcourse htick
    generalize ((crossings steps).map Crossing.tick).count tick = count at hsides
    unfold Token.Passes
    cases hpaid : request.paid with
    | zero =>
      rw [hpaid, Token.entering, neg_one_mul] at hsides
      dsimp only
      split_ifs at hsides <;> omega
    | one =>
      rw [hpaid, Token.entering, one_mul] at hsides
      dsimp only
      split_ifs at hsides <;> omega
  constructor
  · refine List.nodup_iff_count_le_one.mpr fun tick ↦ ?_
    by_cases hmem : tick ∈ (crossings steps).map Crossing.tick
    · exact (hcount tick (hstored tick hmem)).1
    · rw [List.count_eq_zero_of_not_mem hmem]
      exact Nat.zero_le 1
  · intro tick
    constructor
    · intro hmem
      have htick := hstored tick hmem
      exact ⟨htick, (hcount tick htick).2.mp (List.count_pos_iff.mpr hmem)⟩
    · rintro ⟨htick, hpasses⟩
      exact List.count_pos_iff.mp ((hcount tick htick).2.mpr hpasses)

/-! ### The growth at a crossing -/

/-- The growth of a swap is what its steps added to that of the pool. -/
theorem growth_of_course (hcourse : Course pool request steps state) :
    state.growth = pool.growth.get request.paid + (steps.map SwapStep.growthAdded).sum := by
  induction hcourse with
  | start => exact (add_zero _).symm
  | @advanced steps state next step _ _ _ hadvanced ih =>
    have hstep : next.growth = state.growth + step.growthAdded := by
      cases hadvanced with
      | moved _ hmoved => exact hmoved.growth_eq
      | usedUp _ hfilled _ _ =>
        rw [hfilled.state_eq]
        exact (add_zero _).symm
      | filledInPart _ hfilled _ _ _ =>
        rw [hfilled.state_eq]
        exact (add_zero _).symm
    rw [hstep, ih, List.map_append, List.sum_append, List.map_singleton, List.sum_singleton,
      add_assoc]

/-- A tick is crossed with the growth of the pool at that moment. -/
theorem crossing_growth_of_course (h : pool.Bookkept) (hadmits : pool.Admits request)
    (hcourse : Course pool request steps state) {front rest : List SwapStep} {step : SwapStep}
    {crossing : Crossing} (hsteps : steps = front ++ step :: rest)
    (hcrossing : step.crossing? = some crossing) :
    crossing.growth = pool.growthAfter request.paid (front ++ [step]) := by
  induction hcourse generalizing rest with
  | start => exact absurd hsteps.symm (by simp)
  | @advanced steps state next last hbefore hgoing hdone hadvanced ih =>
    rcases rest.eq_nil_or_concat with rfl | ⟨rest, final, rfl⟩
    · obtain ⟨rfl, hlast⟩ := List.append_inj' hsteps rfl
      obtain rfl := List.singleton_inj.mp hlast
      have hgrowth := growth_of_course (.advanced hbefore hgoing hdone hadvanced)
      rw [growthAfter, ← hgrowth]
      have hunderway := hadmits.underway h.inBounds (h.stands hadmits.isOpen) hbefore
      cases hadvanced with
      | moved _ hmoved => exact (hmoved.crossing_eq hunderway hcrossing).2.2
      | usedUp => exact absurd hcrossing.symm (Option.some_ne_none _)
      | filledInPart => exact absurd hcrossing.symm (Option.some_ne_none _)
    · rw [List.concat_eq_append, ← List.cons_append, ← List.append_assoc] at hsteps
      exact ih (List.append_inj' hsteps rfl).1

/-! ### Swaps that finish -/

/-- What a swap that finishes has written. -/
structure Crossed (pool : Pool) (request : SwapRequest) (plan : SwapPlan) (after : Pool) :
    Prop where
  /-- No tick is crossed twice. -/
  once : ((crossings plan.steps).map Crossing.tick).Nodup
  /-- The boundary ticks that are passed are crossed, and no others. -/
  passed_iff : ∀ tick, tick ∈ (crossings plan.steps).map Crossing.tick ↔
    (pool.ticks.get? tick).isSome ∧ request.paid.Passes pool.tick after.tick tick
  /-- A crossed tick keeps the growth at that moment less what it had kept. -/
  turned : ∀ front step rest crossing, plan.steps = front ++ step :: rest →
    step.crossing? = some crossing → ∃ boundary, pool.ticks.get? crossing.tick = some boundary ∧
      after.ticks.get? crossing.tick = some { boundary with
        growthOutside := (pool.growthAfter request.paid (front ++ [step])).zipWith (· - ·)
          boundary.growthOutside }
  /-- All other ticks are as they were. -/
  kept : ∀ tick, tick ∉ (crossings plan.steps).map Crossing.tick →
    after.ticks.get? tick = pool.ticks.get? tick
  /-- No tick comes or goes, and the liquidity at the ticks stays. -/
  liquidity_kept : ∀ tick, liquidityAt after.ticks tick = liquidityAt pool.ticks tick
  /-- The growth in the token paid is all that the steps added, and in the other one it stays. -/
  growth_eq : after.growth = pool.growthAfter request.paid plan.steps
  /-- Positions, settings and what belongs to the token bought are left alone. -/
  pool_eq : after = { pool with
    sqrtPrice := after.sqrtPrice
    tick := after.tick
    liquidity := after.liquidity
    growth := pool.growth.set request.paid (after.growth.get request.paid)
    protocolFees := pool.protocolFees.set request.paid (after.protocolFees.get request.paid)
    ticks := after.ticks
    book := after.book }

/-- A swap crosses each boundary tick that it passes exactly once, and besides the price, the book
and what belongs to the token paid it writes nothing else. -/
theorem passed_ticks_crossed_once (h : pool.Reachable) {brought : TokenPair ℤ}
    (hswap : swap request pool = .ok brought after) :
    ∃ plan, pool.planSwap request = .ok plan ∧ pool.Crossed request plan after := by
  obtain ⟨plan, hplan, -, rfl⟩ := swap_eq_ok hswap
  have hbooks := h.bookkept
  have hplanned := planned_of_planSwap hplan
  have hcourse := hplanned.course
  obtain ⟨hnodup, hpassed⟩ := crossings_of_course hbooks hplanned.admits hcourse
  rw [applySwap_eq hplanned]
  have hticks := ticks_midSwap pool request plan.steps plan.last
  refine ⟨plan, hplan, hnodup, hpassed, ?_, ?_, liquidityAt_midSwap pool request _ _, ?_, ?_⟩
  · intro front step rest crossing hsteps hcrossing
    have hmem : crossing ∈ crossings plan.steps :=
      List.mem_filterMap.mpr ⟨step, by rw [hsteps]; simp, hcrossing⟩
    obtain ⟨boundary, hget⟩ := Option.isSome_iff_exists.mp
      (isSome_of_mem_crossings hbooks hplanned.admits hcourse hmem)
    refine ⟨boundary, hget, ?_⟩
    rw [hticks, TickTable.get?_crossAll_of_mem _ hnodup hmem, hget, Option.map_some,
      BoundaryTick.cross, crossing_growth_of_course hbooks hplanned.admits hcourse hsteps hcrossing]
  · intro tick hnot
    rw [hticks, TickTable.get?_crossAll_of_notMem _ hnot]
  · rw [growthAfter, ← growth_of_course hcourse]
    rfl
  · rw [midSwap, foldl_applyStep_eq]
    cases request.paid <;> rfl

/-- A price that falls from a boundary tick crosses it before it moves, and the next boundary after
that. The ends of the ranges above the price are left alone. -/
theorem passed_ticks_crossed_once_fromBoundary :
    let request : SwapRequest := ⟨.zero, 7000, 78000000000000000000000000000⟩
    let after := (Call.swap request).leaves twoRanges
    (∃ plan, twoRanges.planSwap request = .ok plan ∧ twoRanges.Crossed request plan after) ∧
      (fun plan ↦ (crossings plan.steps).map Crossing.tick) <$> twoRanges.planSwap request =
        .ok [0, -60] ∧
      twoRanges.tick = 0 ∧ after.tick = -313 := by
  have hfinishes : (Call.swap ⟨.zero, 7000, 78000000000000000000000000000⟩).finishes twoRanges =
      true := by decide +kernel
  obtain ⟨brought, hrun⟩ := Call.run_of_finishes hfinishes
  refine ⟨passed_ticks_crossed_once twoRanges_reachable hrun, by decide +kernel, by decide +kernel,
    by decide +kernel⟩

end Pool

end RangeBook
