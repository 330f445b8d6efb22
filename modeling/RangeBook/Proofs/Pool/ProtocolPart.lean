import Mathlib
import RangeBook.Proofs.Pool.Abreast
import RangeBook.Proofs.Pool.SwapFinishes
import RangeBook.Proofs.Swap.RangeFees

/-!
# Swaps whatever the part of the protocol

The part of the fees that the protocol takes changes where the fees of a swap go, and nothing else
about it. So a swap goes the same way in a pool in which the protocol takes other parts: the two
stay abreast, and charge the same fees along the ranges (`Advanced.like`, `rangeFees_of_travel`).

What the protocol takes can make a swap fail, because a sum of shares may leave 128 bits. That is
the only thing that a swap can fail with where it finishes in a pool of other parts
(`planSwap_withParts`).
-/

set_option autoImplicit false
set_option relaxedAutoImplicit false

namespace RangeBook

attribute [local irreducible] tickSqrtPrice tickAt

/-- A pool in which the protocol takes other parts of the fees. -/
def Pool.withParts (pool : Pool) (parts : TokenPair ℕ) : Pool :=
  { pool with protocolPart := parts }

theorem SwapRequest.Alike.refl (request : SwapRequest) : request.Alike request :=
  ⟨rfl, rfl⟩

/-- Whether two steps charge the same fee along a range, if any, and both end a swap or neither
does. -/
structure SwapStep.Like (step step' : SwapStep) : Prop where
  rangeFees_eq : rangeFees [step'] = rangeFees [step]
  isLast_iff : step'.IsLast ↔ step.IsLast

/-- Whether two plans of a swap bring the same and charge the same fees along the ranges. -/
structure SwapPlan.Like (plan plan' : SwapPlan) : Prop where
  amounts_eq : plan'.amounts = plan.amounts
  rangeFees_eq : rangeFees plan'.steps = rangeFees plan.steps

namespace SwapState

variable {pool : Pool} {request : SwapRequest} {parts : TokenPair ℕ}
  {state shade next next' last last' : SwapState} {step step' : SwapStep}
  {taken steps steps' : List SwapStep}

/-! ### The same steps -/

/-- Two states of one swap that have brought the same have the same left and have exchanged the
same. -/
theorem Abreast.amounts_eq (h : Abreast request request state shade) :
    shade.remaining = state.remaining ∧ shade.exchanged = state.exchanged := by
  have hpaid := h.brought_eq request.paid
  have hbought := h.brought_eq request.paid.other
  unfold brought Pool.swapAmounts at hpaid hbought
  split_ifs at hpaid hbought
  all_goals
    rw [TokenPair.get_paired_self, TokenPair.get_paired_self] at hpaid
    rw [TokenPair.get_paired_other, TokenPair.get_paired_other] at hbought
    omega

theorem Abreast.isDone_iff (h : Abreast request request state shade) :
    shade.IsDone request ↔ state.IsDone request := by
  unfold IsDone
  rw [h.amounts_eq.1, h.sqrtPrice_eq]

section

variable (habreast : Abreast request request state shade)

include habreast

theorem Abreast.nextLevel_withParts {nextLevel? : Option ℕ} :
    NextLevel (pool.withParts parts) request shade nextLevel? ↔
      NextLevel pool request state nextLevel? :=
  habreast.nextLevel_iff (.refl request)

theorem Abreast.nextTick_withParts :
    nextTick (pool.withParts parts) request shade = nextTick pool request state :=
  show nextTick pool request shade = _ from habreast.nextTick_eq (.refl request)

theorem Abreast.best?_withParts :
    (pool.withParts parts).book.best? request.paid shade.lastUsedUp =
      pool.book.best? request.paid state.lastUsedUp :=
  congrArg (pool.book.best? request.paid) habreast.lastUsedUp_eq

/-- The step along a range does not depend on the parts of the protocol. -/
theorem Abreast.stepAhead_withParts (nextLevel? : Option ℕ) :
    stepAhead (pool.withParts parts) request shade nextLevel? =
      stepAhead pool request state nextLevel? := by
  unfold stepAhead
  rw [habreast.nextTick_withParts, habreast.amounts_eq.1, habreast.sqrtPrice_eq,
    habreast.liquidity_eq]
  rfl

/-- Nor does a fill of the best level. -/
theorem Abreast.fill_eq {tick tick' : ℤ} {level level' : Level} {fill fill' : LevelFill}
    (hbest : pool.book.best? request.paid state.lastUsedUp = some (tick, level))
    (hfilled : LevelFilled pool request state tick level fill next)
    (hbest' : (pool.withParts parts).book.best? request.paid shade.lastUsedUp =
      some (tick', level'))
    (hfilled' : LevelFilled (pool.withParts parts) request shade tick' level' fill' next') :
    tick' = tick ∧ fill' = fill := by
  rw [habreast.best?_withParts, hbest] at hbest'
  obtain ⟨rfl, rfl⟩ := Prod.mk.inj (Option.some.inj hbest')
  obtain ⟨price, hprice, hcompute⟩ := hfilled.compute_eq
  obtain ⟨price', hprice', hcompute'⟩ := hfilled'.compute_eq
  obtain rfl := Except.ok.inj (hprice'.symm.trans hprice)
  rw [habreast.amounts_eq.1] at hcompute'
  exact ⟨rfl, Except.ok.inj (hcompute'.symm.trans hcompute)⟩

end

/-- Swaps that stand abreast take the same step whatever the parts of the protocol. -/
theorem Advanced.like (h : Advanced pool request state step next)
    (h' : Advanced (pool.withParts parts) request shade step' next')
    (habreast : Abreast request request state shade) :
    SwapStep.Like step step' ∧ Abreast request request next next' := by
  have halike := SwapRequest.Alike.refl request
  cases h with
  | @moved nextLevel? move _ hlevel hmoved =>
    have hshade : NextLevel (pool.withParts parts) request shade nextLevel? :=
      habreast.nextLevel_withParts.mpr hlevel
    cases h' with
    | @moved _ move' _ hlevel' hmoved' =>
      obtain rfl := hshade.unique hlevel'
      have hahead : stepAhead (pool.withParts parts) request shade _ = .ok move.step :=
        (habreast.stepAhead_withParts _).trans hmoved.compute_eq
      have hstep : move'.step = move.step :=
        Except.ok.inj (hmoved'.compute_eq.symm.trans hahead)
      have hticks : (pool.withParts parts).ticks = pool.ticks := rfl
      refine ⟨⟨?_, Iff.rfl⟩, habreast.of_moved halike hticks hmoved hmoved' hstep⟩
      simp only [rangeFees, List.filterMap_cons, SwapStep.rangeFee?, hstep]
    | usedUp hbest' hfilled' => exact absurd hfilled' (hshade.not_filled hbest')
    | filledInPart hbest' hfilled' => exact absurd hfilled' (hshade.not_filled hbest')
  | usedUp hbest hfilled hnone hlast =>
    cases h' with
    | moved hlevel' hmoved' =>
      exact absurd hfilled ((habreast.nextLevel_withParts.mp hlevel').not_filled hbest)
    | usedUp hbest' hfilled' hnone' hlast' =>
      obtain ⟨rfl, rfl⟩ := habreast.fill_eq hbest hfilled hbest' hfilled'
      exact ⟨⟨rfl, Iff.rfl⟩, habreast.of_filled halike hfilled hfilled' (hlast'.trans hlast.symm)⟩
    | filledInPart hbest' hfilled' hsome' =>
      obtain ⟨rfl, rfl⟩ := habreast.fill_eq hbest hfilled hbest' hfilled'
      exact absurd (hnone.symm.trans hsome') (by simp)
  | filledInPart hbest hfilled hsome _ hlast =>
    cases h' with
    | moved hlevel' hmoved' =>
      exact absurd hfilled ((habreast.nextLevel_withParts.mp hlevel').not_filled hbest)
    | usedUp hbest' hfilled' hnone' =>
      obtain ⟨rfl, rfl⟩ := habreast.fill_eq hbest hfilled hbest' hfilled'
      exact absurd (hnone'.symm.trans hsome) (by simp)
    | filledInPart hbest' hfilled' _ _ hlast' =>
      obtain ⟨rfl, rfl⟩ := habreast.fill_eq hbest hfilled hbest' hfilled'
      refine ⟨⟨rfl, Iff.rfl⟩, habreast.of_filled halike hfilled hfilled' ?_⟩
      rw [hlast', hlast, habreast.lastUsedUp_eq]

theorem like_of_advance (h : advance pool request state = .ok (step, next))
    (h' : advance (pool.withParts parts) request shade = .ok (step', next'))
    (habreast : Abreast request request state shade) :
    SwapStep.Like step step' ∧ Abreast request request next next' :=
  (advanced_of_advance h).like (advanced_of_advance h') habreast

/-- Swaps that stand abreast end abreast, and charge the same fees along the ranges. -/
theorem rangeFees_of_travel {allowed : ℕ}
    (h : travel pool request allowed state = .ok (steps, last))
    (h' : travel (pool.withParts parts) request allowed shade = .ok (steps', last'))
    (habreast : Abreast request request state shade) :
    rangeFees steps' = rangeFees steps ∧ Abreast request request last last' := by
  induction allowed generalizing state shade steps steps' with
  | zero => exact absurd h travel_zero_ne_ok
  | succ allowed ih =>
    -- Both are done at the same place, and both end with the same step, if any.
    cases goesOn_of_travel h with
    | done hdone =>
      cases goesOn_of_travel h' with
      | done => exact ⟨rfl, habreast⟩
      | ended hdone' => exact absurd (habreast.isDone_iff.mpr hdone) hdone'
      | went hdone' => exact absurd (habreast.isDone_iff.mpr hdone) hdone'
    | ended hdone hadvance hlast =>
      cases goesOn_of_travel h' with
      | done hdone' => exact absurd (habreast.isDone_iff.mp hdone') hdone
      | ended _ hadvance' =>
        obtain ⟨hlike, hnext⟩ := like_of_advance hadvance hadvance' habreast
        exact ⟨hlike.rangeFees_eq, hnext⟩
      | went _ hadvance' hgoing' =>
        have hlike := (like_of_advance hadvance hadvance' habreast).1
        exact absurd (hlike.isLast_iff.mpr hlast) hgoing'
    | went hdone hadvance hgoing hrest =>
      cases goesOn_of_travel h' with
      | done hdone' => exact absurd (habreast.isDone_iff.mp hdone') hdone
      | ended _ hadvance' hlast' =>
        have hlike := (like_of_advance hadvance hadvance' habreast).1
        exact absurd (hlike.isLast_iff.mp hlast') hgoing
      | went _ hadvance' _ hrest' =>
        obtain ⟨hlike, hnext⟩ := like_of_advance hadvance hadvance' habreast
        obtain ⟨hfees, hends⟩ := ih hrest hrest' hnext
        rw [rangeFees_cons, hlike.rangeFees_eq, hfees, ← rangeFees_cons]
        exact ⟨rfl, hends⟩

/-! ### The one way to fail -/

/-- The way in which a swap fails where what is set aside for the protocol leaves 128 bits: what was
set aside so far, and the shares of the fees to come. -/
def SharesOverflow (denominator kept : ℕ) (fees : List ℕ) (failure : Failure) : Prop :=
  failure = .rejected .uint128Range ∧ twoPow 128 ≤ kept + sharesKept denominator fees

theorem SharesOverflow.of_le {denominator kept kept' : ℕ} {fees fees' : List ℕ}
    {failure : Failure} (h : SharesOverflow denominator kept fees failure)
    (hle : kept + sharesKept denominator fees ≤ kept' + sharesKept denominator fees') :
    SharesOverflow denominator kept' fees' failure :=
  ⟨h.1, h.2.trans hle⟩

/-- Booking reads no more of a state than the two running amounts. -/
theorem book_congr (hremaining : shade.remaining = state.remaining)
    (hexchanged : shade.exchanged = state.exchanged) (amountIn fee amountOut : ℕ) :
    book request shade amountIn fee amountOut =
      (fun booked ↦ { shade with remaining := booked.remaining, exchanged := booked.exchanged }) <$>
        book request state amountIn fee amountOut := by
  unfold book
  rw [hremaining, hexchanged]
  split <;> simp only [map_bind, map_pure]

section

variable {failures : Failure → Prop} (habreast : Abreast request request state shade)

include habreast

/-- The amounts of a step that one swap books can be booked by the other one. -/
theorem Abreast.book_failsOnly {amountIn fee amountOut : ℕ}
    (h : book request state amountIn fee amountOut = .ok next) :
    FailsOnly failures (book request shade amountIn fee amountOut) := by
  obtain ⟨hremaining, hexchanged⟩ := habreast.amounts_eq
  rw [book_congr hremaining hexchanged, h]
  exact .ok _

/-- A level that one swap fills can be filled by the other one. -/
theorem Abreast.fillLevel_failsOnly {tick : ℤ} {level : Level} {sqrtPrice : ℕ}
    (h : fillLevel pool request state tick level sqrtPrice = .ok (step, next)) :
    FailsOnly failures (fillLevel (pool.withParts parts) request shade tick level sqrtPrice) := by
  unfold fillLevel at h
  obtain ⟨price, hprice, h⟩ := bind_eq_ok.mp h
  obtain ⟨fill, hfill, h⟩ := bind_eq_ok.mp h
  obtain ⟨booked, hbooked, h⟩ := bind_eq_ok.mp h
  rw [← habreast.amounts_eq.1] at hfill
  refine .bind_of_eq_ok hprice (.bind_of_eq_ok hfill ?_)
  refine .bind (habreast.book_failsOnly hbooked) fun _ _ ↦ ?_
  cases hunfilled : fill.unfilled? with
  | none => exact .pure _
  | some unfilled =>
    simp only [hunfilled] at h
    obtain ⟨_, htaken, -⟩ := bind_eq_ok.mp h
    exact .bind_of_eq_ok htaken (.pure _)

end

/-- A swap that moves along a range has booked its step. -/
theorem booked_of_moveRange {nextLevel? : Option ℕ}
    (h : moveRange pool request state nextLevel? = .ok (step, next)) :
    ∃ ahead booked, stepAhead pool request state nextLevel? = .ok ahead ∧
      book request state ahead.amountIn ahead.fee ahead.amountOut = .ok booked := by
  unfold moveRange at h
  obtain ⟨ahead, hahead, h⟩ := bind_eq_ok.mp h
  obtain ⟨booked, hbooked, -⟩ := bind_eq_ok.mp h
  exact ⟨ahead, booked, hahead, hbooked⟩

section

variable (hreachable : (pool.withParts parts).Reachable)
  (hadmits : (pool.withParts parts).Admits request)
  (hcourse : Course (pool.withParts parts) request taken shade)
  (habreast : Abreast request request state shade)

include hreachable hadmits hcourse habreast

/-- A move along a range that one swap makes fails for the other one where its share leaves 128
bits, and nowhere else. -/
theorem moveRange_withParts {nextLevel? : Option ℕ}
    (hlevel : ∀ level ∈ nextLevel?, request.paid.Past level shade.sqrtPrice)
    (h : moveRange pool request state nextLevel? = .ok (step, next)) :
    FailsOnly (SharesOverflow (parts.get request.paid) shade.protocolFees (rangeFees [step]))
      (moveRange (pool.withParts parts) request shade nextLevel?) := by
  have hbooks := hreachable.bookkept
  have hunderway := hadmits.underway hbooks.inBounds (hbooks.stands hadmits.isOpen) hcourse
  obtain ⟨move, rfl, hmoved⟩ := moved_of_moveRange h
  have hahead : stepAhead (pool.withParts parts) request shade nextLevel? = .ok move.step :=
    (habreast.stepAhead_withParts nextLevel?).trans hmoved.compute_eq
  have hliquidity := Pool.liquidity_of_course hbooks hadmits hcourse
  refine moveRange_failsOnly hunderway (hreachable.limit_inBounds hadmits)
    (hreachable.price_inBounds hadmits hcourse) hliquidity hbooks hreachable.withinCaps hlevel
    (.of_eq_ok hahead) (fun step hstep ↦ ?_) fun step hstep ↦ ?_
  · obtain ⟨ahead, booked, hbase, hbooked⟩ := booked_of_moveRange h
    obtain rfl := Except.ok.inj (hbase.symm.trans hmoved.compute_eq)
    obtain rfl := Except.ok.inj (hstep.symm.trans hahead)
    exact habreast.book_failsOnly hbooked
  · obtain rfl := Except.ok.inj (hstep.symm.trans hahead)
    refine .within fun hfull ↦ ⟨rfl, ?_⟩
    rw [protocolShare_eq] at hfull
    simpa [rangeFees, SwapStep.rangeFee?, sharesKept, Pool.withParts] using hfull

/-- So does a step. -/
theorem advance_withParts (h : advance pool request state = .ok (step, next)) :
    FailsOnly (SharesOverflow (parts.get request.paid) shade.protocolFees (rangeFees [step]))
      (advance (pool.withParts parts) request shade) := by
  unfold advance at h ⊢
  rw [habreast.best?_withParts]
  cases hbest : pool.book.best? request.paid state.lastUsedUp with
  | none =>
    simp only [hbest] at h
    exact moveRange_withParts hreachable hadmits hcourse habreast (by simp) h
  | some best =>
    obtain ⟨tick, level⟩ := best
    simp only [hbest] at h
    obtain ⟨levelPrice, hlevelPrice, h⟩ := bind_eq_ok.mp h
    refine .bind_of_eq_ok hlevelPrice ?_
    rw [habreast.sqrtPrice_eq]
    refine .ite (fun hpast ↦ ?_) fun hreached ↦ ?_
    · rw [if_pos hpast] at h
      rw [← habreast.sqrtPrice_eq] at hpast
      exact moveRange_withParts hreachable hadmits hcourse habreast
        (fun level hlevel ↦ Option.some.inj hlevel ▸ hpast) h
    · rw [if_neg hreached] at h
      exact habreast.fillLevel_failsOnly h

end

/-- A swap that finishes in a pool fails in one of other parts where the sum of the shares leaves
128 bits, and nowhere else. -/
theorem travel_withParts (hreachable : (pool.withParts parts).Reachable)
    (hadmits : (pool.withParts parts).Admits request) {allowed : ℕ}
    (hcourse : Course (pool.withParts parts) request taken shade)
    (htaken : ∀ step ∈ taken, ¬step.IsLast) (habreast : Abreast request request state shade)
    (h : travel pool request allowed state = .ok (steps, last)) :
    FailsOnly (SharesOverflow (parts.get request.paid) shade.protocolFees (rangeFees steps))
      (travel (pool.withParts parts) request allowed shade) := by
  induction allowed generalizing taken state shade steps with
  | zero => exact absurd h travel_zero_ne_ok
  | succ allowed ih =>
    have hgoesOn := goesOn_of_travel h
    unfold travel
    refine .ite (fun _ ↦ .pure _) fun hdone ↦ ?_
    cases hgoesOn with
    | done hdone' => exact absurd (habreast.isDone_iff.mpr hdone') hdone
    | ended _ hadvance hlast =>
      refine .bind (advance_withParts hreachable hadmits hcourse habreast hadvance) ?_
      rintro ⟨step', next'⟩ hadvance'
      refine .ite (fun _ ↦ .pure _) fun hgoing' ↦ ?_
      have hlike := (like_of_advance hadvance hadvance' habreast).1
      exact absurd (hlike.isLast_iff.mpr hlast) hgoing'
    | @went step _ _ rest _ hadvance hgoing htravel =>
      -- A sum that is too great after the first step stays so, and where it still fits, the shade has
      -- set that share aside when the rest begins.
      have hkept : ∀ kept, kept + sharesKept (parts.get request.paid) (rangeFees (step :: rest)) =
          kept + sharesKept (parts.get request.paid) (rangeFees [step]) +
            sharesKept (parts.get request.paid) (rangeFees rest) := by
        intro kept
        rw [rangeFees_cons, sharesKept_append, Nat.add_assoc]
      have hfirst := advance_withParts hreachable hadmits hcourse habreast hadvance
      refine .bind (hfirst.mono fun _ hoverflow ↦ hoverflow.of_le ?_) ?_
      · rw [hkept]
        exact Nat.le_add_right _ _
      rintro ⟨step', next'⟩ hadvance'
      refine .ite (fun _ ↦ .pure _) fun hgoing' ↦ .bind ?_ fun _ _ ↦ .pure _
      have hadvanced' := advanced_of_advance hadvance'
      obtain ⟨hlike, hnext⟩ := like_of_advance hadvance hadvance' habreast
      have hrest := ih (.advanced hcourse htaken hdone hadvanced')
        (by simpa [or_imp, forall_and] using ⟨htaken, hgoing'⟩) hnext htravel
      refine hrest.mono fun _ hoverflow ↦ hoverflow.of_le ?_
      rw [hkept, ← hlike.rangeFees_eq, hadvanced'.protocolFees_eq]
      exact le_rfl

end SwapState

open SwapState

namespace Pool

variable {pool : Pool} {request : SwapRequest} {parts : TokenPair ℕ} {plan plan' : SwapPlan}

/-- Plans of one swap in pools of other parts are alike. -/
theorem planSwap_like (h : pool.planSwap request = .ok plan)
    (h' : (pool.withParts parts).planSwap request = .ok plan') : SwapPlan.Like plan plan' := by
  have habreast : Abreast request request (.start pool request)
      (.start (pool.withParts parts) request) := abreast_start pool request request
  have htravel := travel_of_planSwap h
  have htravel' := travel_of_planSwap h'
  obtain ⟨hfees, hends⟩ := rangeFees_of_travel htravel htravel' habreast
  obtain ⟨hremaining, hexchanged⟩ := hends.amounts_eq
  refine ⟨?_, hfees⟩
  rw [(planned_of_planSwap h).amounts_eq, (planned_of_planSwap h').amounts_eq, brought, brought,
    hremaining, hexchanged]

/-- A swap that finishes in a pool fails in one of other parts where what is set aside for the
protocol leaves 128 bits, and nowhere else. -/
theorem planSwap_withParts (hreachable : (pool.withParts parts).Reachable)
    (h : pool.planSwap request = .ok plan) :
    FailsOnly (SharesOverflow (parts.get request.paid) (pool.protocolFees.get request.paid)
      (rangeFees plan.steps)) ((pool.withParts parts).planSwap request) := by
  have hplanned := planned_of_planSwap h
  have hadmits : (pool.withParts parts).Admits request := ⟨hplanned.isOpen, hplanned.limitAllowed⟩
  have htravel := travel_of_planSwap h
  have habreast : Abreast request request (.start pool request)
      (.start (pool.withParts parts) request) := abreast_start pool request request
  unfold planSwap at h
  obtain ⟨_, hamount, h⟩ := bind_eq_ok.mp h
  obtain ⟨_, -, h⟩ := bind_eq_ok.mp h
  obtain ⟨_, -, h⟩ := bind_eq_ok.mp h
  obtain ⟨⟨steps, last⟩, hsteps, h⟩ := bind_eq_ok.mp h
  obtain ⟨rfl, rfl⟩ := Prod.mk.inj (Except.ok.inj (hsteps.symm.trans htravel))
  obtain ⟨consumed, hconsumed, -⟩ := bind_eq_ok.mp h
  have hshade := travel_withParts hreachable hadmits .start (by simp) habreast htravel
  refine .bind_of_eq_ok hamount <| .bind (.require (absurd hadmits.isOpen)) fun _ _ ↦
    .bind (.require (absurd hadmits.limitAllowed)) fun _ _ ↦
    .bind (hshade.mono fun _ hoverflow ↦ hoverflow.of_le ?_) ?_
  · exact Nat.add_le_add_right (Nat.zero_le _) _
  rintro ⟨steps', last'⟩ htravel'
  obtain ⟨hfees, hends⟩ := rangeFees_of_travel htravel htravel' habreast
  have hcourse' : Course (pool.withParts parts) request steps' last' :=
    course_of_travel .start (by simp) htravel'
  dsimp only
  rw [hends.amounts_eq.1]
  refine .bind_of_eq_ok hconsumed (.bind (.within fun hfull ↦ ⟨rfl, ?_⟩) fun _ _ ↦ .pure _)
  rw [protocolFees_of_course hcourse', hfees] at hfull
  exact not_lt.mp hfull

end Pool

end RangeBook
