import Mathlib
import RangeBook.Proofs.Pool.Run
import RangeBook.Proofs.Position
import RangeBook.Proofs.Swap.Price

/-!
# The books of a pool agree with its positions

A pool keeps the liquidity of its positions three times: in the positions, at the boundary ticks
and as the liquidity around its tick. Every reachable pool keeps them in agreement
(`liquidity_bookkeeping`). The invariant (`Bookkept`) also says that the price and the tick belong
together, since a swap finds its next boundary tick from the tick and stops by the price.

A change of liquidity moves all three by the same amount (`RangeAdjusted.bookkept`). A swap leaves
the positions alone, and the liquidity around its tick changes by the net liquidity of the ticks
that it crosses (`liquidity_of_course`).
-/

set_option autoImplicit false
set_option relaxedAutoImplicit false

namespace RangeBook

attribute [local irreducible] tickSqrtPrice tickAt

/-! ### The books and their invariant -/

/-- The three accounts of the liquidity of a pool, each by the positions of the pool. -/
structure Pool.LiquidityBooks (pool : Pool) : Prop where
  /-- Boundary ticks are the ends of the positions that hold liquidity. -/
  stored_iff : ∀ tick, (pool.ticks.get? tick).isSome ↔
    ∃ key position, pool.positions.get? key = some position ∧ position.liquidity ≠ 0 ∧
      key.IsEnd tick
  gross_eq : ∀ tick boundary, pool.ticks.get? tick = some boundary →
    boundary.gross = pool.positions.grossAt tick
  net_eq : ∀ tick boundary, pool.ticks.get? tick = some boundary →
    boundary.net = pool.positions.netAt tick
  usable : ∀ tick, (pool.ticks.get? tick).isSome →
    (pool.tickSpacing : ℤ) ∣ tick ∧ minTick ≤ tick ∧ tick ≤ maxTick
  liquidity_eq_active : pool.liquidity = pool.positions.activeAt pool.tick
  liquidity_eq_net : (pool.liquidity : ℤ) =
    pool.ticks.total fun tick boundary ↦ if tick ≤ pool.tick then boundary.net else 0

/-- Whether what is kept at a tick agrees with the positions. -/
def TickTable.AgreesAt (ticks : TickTable) (positions : PositionTable) (tick : ℤ) : Prop :=
  match ticks.get? tick with
  | some boundary =>
    boundary.gross ≠ 0 ∧ boundary.gross = positions.grossAt tick ∧
      boundary.net = positions.netAt tick
  | none => positions.grossAt tick = 0

/-- Whether a range lies within the bounds and on the spacing of a pool. -/
structure PositionKey.FitsPool (key : PositionKey) (tickSpacing : ℕ) : Prop where
  lower_lt_upper : key.lower < key.upper
  minTick_le : minTick ≤ key.lower
  le_maxTick : key.upper ≤ maxTick
  spacing_dvd : ∀ rangeEnd, (tickSpacing : ℤ) ∣ key.tickAt rangeEnd

/-- Whether the books of a pool agree with its positions, and its price with its tick. -/
structure Pool.Bookkept (pool : Pool) : Prop where
  ranges : ∀ key, (pool.positions.get? key).isSome → key.FitsPool pool.tickSpacing
  ticks : ∀ tick, pool.ticks.AgreesAt pool.positions tick
  liquidity : (pool.liquidity : ℤ) = pool.positions.weigh (PositionKey.rangeWeight pool.tick)
  stands : pool.IsOpen → StandsAt pool.tick pool.sqrtPrice
  closed : ¬pool.IsOpen → pool.positions = .empty

namespace Pool

variable {pool after : Pool} {key : PositionKey} {tick delta : ℤ}

/-! ### What the invariant says -/

/-- A tick is a boundary exactly where liquidity refers to it. -/
theorem Bookkept.isSome_iff (h : pool.Bookkept) (tick : ℤ) :
    (pool.ticks.get? tick).isSome ↔ 0 < pool.positions.grossAt tick := by
  have hagrees := h.ticks tick
  unfold TickTable.AgreesAt at hagrees
  cases hget : pool.ticks.get? tick with
  | some boundary =>
    rw [hget] at hagrees
    exact iff_of_true rfl (hagrees.2.1 ▸ Nat.pos_of_ne_zero hagrees.1)
  | none =>
    rw [hget] at hagrees
    exact iff_of_false Bool.false_ne_true (hagrees ▸ Nat.lt_irrefl 0)

theorem Bookkept.find_eq (h : pool.Bookkept) (tick : ℤ) :
    (pool.ticks.find tick).gross = pool.positions.grossAt tick ∧
      (pool.ticks.find tick).net = pool.positions.netAt tick := by
  have hagrees := h.ticks tick
  unfold TickTable.AgreesAt at hagrees
  unfold TickTable.find
  cases hget : pool.ticks.get? tick with
  | some boundary =>
    rw [hget] at hagrees
    exact hagrees.2
  | none =>
    rw [hget] at hagrees
    exact ⟨hagrees.symm, (PositionTable.netAt_eq_zero hagrees).symm⟩

/-- The ends of a position that holds liquidity are boundary ticks. -/
theorem Bookkept.isSome_of_isEnd (h : pool.Bookkept) {position : Position}
    (hget : pool.positions.get? key = some position) (hne : position.liquidity ≠ 0)
    (hend : key.IsEnd tick) : (pool.ticks.get? tick).isSome := by
  rw [h.isSome_iff, PositionTable.grossAt_pos_iff]
  exact ⟨key, position, hget, Nat.pos_of_ne_zero hne, hend⟩

/-- Boundary ticks lie within the bounds and on the spacing. -/
theorem Bookkept.of_isSome (h : pool.Bookkept) (hstored : (pool.ticks.get? tick).isSome) :
    (pool.tickSpacing : ℤ) ∣ tick ∧ minTick ≤ tick ∧ tick ≤ maxTick := by
  rw [h.isSome_iff, PositionTable.grossAt_pos_iff] at hstored
  obtain ⟨key, position, hget, -, hend⟩ := hstored
  have hfits := h.ranges key (by rw [hget]; rfl)
  have horder := hfits.lower_lt_upper
  have hmin := hfits.minTick_le
  have hmax := hfits.le_maxTick
  rcases hend with rfl | rfl
  · exact ⟨hfits.spacing_dvd .lower, hmin, by omega⟩
  · exact ⟨hfits.spacing_dvd .upper, by omega, hmax⟩

theorem Bookkept.inBounds (h : pool.Bookkept) : pool.ticks.InBounds :=
  fun _ hstored ↦ (h.of_isSome hstored).2

/-- The net weight of a range at the ticks up to the present one, end by end. -/
theorem netWeight_upto (tick current : ℤ) (key : PositionKey) (liquidity : ℤ) :
    (if tick ≤ current then PositionKey.netWeight tick key * liquidity else 0) =
      (if tick = key.lower then if key.lower ≤ current then liquidity else 0 else 0) -
        if tick = key.upper then if key.upper ≤ current then liquidity else 0 else 0 := by
  unfold PositionKey.netWeight
  split_ifs <;> first | ring1 | omega

/-- The liquidity around the tick is the sum of the net liquidity of the boundary ticks up to it. -/
theorem Bookkept.liquidity_eq_total_net (h : pool.Bookkept) :
    (pool.liquidity : ℤ) =
      pool.ticks.total fun tick boundary ↦ if tick ≤ pool.tick then boundary.net else 0 := by
  have hnet : (pool.ticks.total fun tick boundary ↦ if tick ≤ pool.tick then boundary.net else 0) =
      pool.ticks.total fun tick _ ↦ pool.positions.total fun key position ↦
        (if tick = key.lower then if key.lower ≤ pool.tick then (position.liquidity : ℤ) else 0
          else 0) -
        if tick = key.upper then if key.upper ≤ pool.tick then (position.liquidity : ℤ) else 0
          else 0 := by
    refine OrderedMap.total_congr fun tick boundary hget ↦ ?_
    have hfind := (h.find_eq tick).2
    rw [TickTable.find, hget, Option.getD_some] at hfind
    rw [hfind, PositionTable.netAt_eq_weigh, PositionTable.weigh]
    simp only [← netWeight_upto]
    by_cases hle : tick ≤ pool.tick
    · simp only [if_pos hle]
    · simp only [if_neg hle, OrderedMap.total_zero]
  rw [hnet, OrderedMap.total_comm, h.liquidity, PositionTable.weigh]
  refine OrderedMap.total_congr fun key position hget ↦ ?_
  have horder := (h.ranges key (by rw [hget]; rfl)).lower_lt_upper
  rw [OrderedMap.total_sub, OrderedMap.total_single, OrderedMap.total_single,
    PositionKey.rangeWeight_eq horder]
  by_cases hzero : position.liquidity = 0
  · simp only [hzero, Nat.cast_zero, mul_zero, ite_self, sub_zero]
  · rw [if_pos (h.isSome_of_isEnd hget hzero (.inl rfl)),
      if_pos (h.isSome_of_isEnd hget hzero (.inr rfl))]
    split_ifs <;> ring

/-! ### Changes of positions -/

/-- The liquidity that is kept at a tick, without the growth. -/
def liquidityAt (ticks : TickTable) (tick : ℤ) : Option (ℕ × ℤ) :=
  (ticks.get? tick).map fun boundary ↦ (boundary.gross, boundary.net)

/-- The books of a tick and the positions agree as before where none of them changed. -/
theorem agreesAt_congr {ticks ticks' : TickTable} {positions positions' : PositionTable}
    (h : ticks.AgreesAt positions tick) (hticks : liquidityAt ticks' tick = liquidityAt ticks tick)
    (hgross : positions'.grossAt tick = positions.grossAt tick)
    (hnet : positions'.netAt tick = positions.netAt tick) : ticks'.AgreesAt positions' tick := by
  unfold liquidityAt at hticks
  unfold TickTable.AgreesAt at h ⊢
  rw [hgross, hnet]
  cases hget : ticks.get? tick with
  | none =>
    rw [hget, Option.map_none, Option.map_eq_none_iff] at hticks
    rw [hget] at h
    rw [hticks]
    exact h
  | some boundary =>
    rw [hget, Option.map_some, Option.map_eq_some_iff] at hticks
    obtain ⟨boundary', hget', hparts⟩ := hticks
    obtain ⟨hsameGross, hsameNet⟩ := Prod.mk.inj hparts
    rw [hget] at h
    rw [hget']
    change boundary'.gross ≠ 0 ∧ boundary'.gross = _ ∧ boundary'.net = _
    rw [hsameGross, hsameNet]
    exact h

/-- A position that is written without a change of its liquidity leaves the books alone. -/
theorem Bookkept.of_insert (h : pool.Bookkept) {position position' : Position}
    (hget : pool.positions.get? key = some position)
    (hliquidity : position'.liquidity = position.liquidity) (hopen : pool.IsOpen) :
    Bookkept { pool with positions := pool.positions.insert key position' } := by
  have hfind : (position'.liquidity : ℤ) = (pool.positions.find key).liquidity + 0 := by
    rw [PositionTable.find_eq hget, hliquidity, add_zero]
  have hgross := PositionTable.grossAt_insert hfind
  have hnet := PositionTable.netAt_insert hfind
  simp only [mul_zero, add_zero] at hgross hnet
  refine ⟨fun other hother ↦ ?_,
    fun tick ↦ agreesAt_congr (h.ticks tick) rfl (Nat.cast_injective (hgross tick)) (hnet tick), ?_,
    h.stands, fun hclosed ↦ absurd hopen hclosed⟩
  · by_cases hkey : other = key
    · exact h.ranges other (by rw [hkey, hget]; rfl)
    · refine h.ranges other ?_
      rwa [OrderedMap.get?_insert_of_ne _ _ hkey] at hother
  · change (pool.liquidity : ℤ) = PositionTable.weigh (pool.positions.insert key position') _
    rw [PositionTable.weigh_insert hfind, mul_zero, add_zero]
    exact h.liquidity

section Adjusted

variable {staged : TickTable} {position : Position} {amounts : TokenPair ℤ}

theorem RangeAdjusted.positions_eq
    (hadjusted : pool.RangeAdjusted key delta staged position amounts after) :
    after.positions = pool.positions.insert key position := by
  rw [hadjusted.pool_eq]

theorem RangeAdjusted.liquidity_eq
    (hadjusted : pool.RangeAdjusted key delta staged position amounts after) :
    (position.liquidity : ℤ) = (pool.position key).liquidity + delta :=
  (Position.adjusted_of_adjust hadjusted.position_eq).liquidity_eq

theorem RangeAdjusted.grossAt_eq
    (hadjusted : pool.RangeAdjusted key delta staged position amounts after) (tick : ℤ) :
    (after.positions.grossAt tick : ℤ) =
      pool.positions.grossAt tick + PositionKey.endWeight tick key * delta := by
  rw [hadjusted.positions_eq, PositionTable.grossAt_insert hadjusted.liquidity_eq]

theorem RangeAdjusted.netAt_eq
    (hadjusted : pool.RangeAdjusted key delta staged position amounts after) (tick : ℤ) :
    after.positions.netAt tick =
      pool.positions.netAt tick + PositionKey.netWeight tick key * delta := by
  rw [hadjusted.positions_eq, PositionTable.netAt_insert hadjusted.liquidity_eq]

/-- What is written at an end of the range agrees with the positions as they are afterwards. -/
theorem RangeAdjusted.staged_at
    (hadjusted : pool.RangeAdjusted key delta staged position amounts after) (h : pool.Bookkept)
    (hdelta : delta ≠ 0) (rangeEnd : RangeEnd) :
    ∃ boundary, staged.get? (key.tickAt rangeEnd) = some boundary ∧
      boundary.gross = after.positions.grossAt (key.tickAt rangeEnd) ∧
      boundary.net = after.positions.netAt (key.tickAt rangeEnd) := by
  obtain ⟨boundary, hget, hboundary⟩ := hadjusted.boundaries.adjusted hdelta rangeEnd
  obtain ⟨hfindGross, hfindNet⟩ := h.find_eq (key.tickAt rangeEnd)
  have hgross := hadjusted.grossAt_eq (key.tickAt rangeEnd)
  have hgrossSum := hboundary.gross_eq
  rw [PositionKey.endWeight, if_pos (key.isEnd_tickAt rangeEnd), one_mul] at hgross
  rw [hfindGross] at hgrossSum
  refine ⟨boundary, hget, Nat.cast_injective (hgrossSum.trans hgross.symm), ?_⟩
  rw [hboundary.net_eq, hfindNet, hadjusted.netAt_eq,
    PositionKey.netWeight_tickAt_mul hadjusted.lower_lt_upper]

/-- The ends of the range are kept where liquidity refers to them, and taken out where the change
leaves none. -/
theorem RangeAdjusted.agreesAt_end
    (hadjusted : pool.RangeAdjusted key delta staged position amounts after) (h : pool.Bookkept)
    (hdelta : delta ≠ 0) (rangeEnd : RangeEnd) :
    after.ticks.AgreesAt after.positions (key.tickAt rangeEnd) := by
  have hend := key.isEnd_tickAt rangeEnd
  obtain ⟨boundary, hget, hgross, hnet⟩ := hadjusted.staged_at h hdelta rangeEnd
  have hchange := hadjusted.grossAt_eq (key.tickAt rangeEnd)
  rw [PositionKey.endWeight, if_pos hend, one_mul, ← hgross] at hchange
  have hflipped : Flipped pool.ticks staged (key.tickAt rangeEnd) =
      (decide (boundary.gross = 0) !=
        decide (pool.positions.grossAt (key.tickAt rangeEnd) = 0)) := by
    rw [Flipped, (h.find_eq _).1, TickTable.find, hget, Option.getD_some]
  unfold TickTable.AgreesAt
  rw [hadjusted.ticks_eq, hget, hflipped]
  by_cases hzero : boundary.gross = 0
  · have hpos : ¬pool.positions.grossAt (key.tickAt rangeEnd) = 0 := by omega
    rw [if_pos ⟨by omega, hend, by simp [hzero, hpos]⟩]
    exact hgross ▸ hzero
  · rw [if_neg]
    · exact ⟨hzero, hgross, hnet⟩
    · rintro ⟨hneg, -, hflip⟩
      have hpos : ¬pool.positions.grossAt (key.tickAt rangeEnd) = 0 := by omega
      simp [hzero, hpos] at hflip

/-- A change of liquidity keeps the boundary ticks in agreement with the positions. -/
theorem RangeAdjusted.agreesAt
    (hadjusted : pool.RangeAdjusted key delta staged position amounts after) (h : pool.Bookkept)
    (tick : ℤ) : after.ticks.AgreesAt after.positions tick := by
  have hgross := hadjusted.grossAt_eq tick
  have hnet := hadjusted.netAt_eq tick
  have hticks := hadjusted.ticks_eq tick
  by_cases hdelta : delta = 0
  · rw [hdelta, mul_zero, add_zero] at hgross hnet
    rw [if_neg fun hneg ↦ lt_irrefl 0 (hdelta ▸ hneg.1), hadjusted.boundaries.unchanged hdelta]
      at hticks
    exact agreesAt_congr (h.ticks tick) (by rw [liquidityAt, hticks, liquidityAt])
      (Nat.cast_injective hgross) hnet
  by_cases hend : key.IsEnd tick
  · obtain ⟨rangeEnd, rfl⟩ := PositionKey.isEnd_iff.mp hend
    exact hadjusted.agreesAt_end h hdelta rangeEnd
  · rw [PositionKey.endWeight, if_neg hend, zero_mul, add_zero] at hgross
    rw [PositionKey.netWeight_eq_zero hend, zero_mul, add_zero] at hnet
    rw [if_neg fun hin ↦ hend hin.2.1, hadjusted.boundaries.off_ends tick hend] at hticks
    exact agreesAt_congr (h.ticks tick) (by rw [liquidityAt, hticks, liquidityAt])
      (Nat.cast_injective hgross) hnet

/-- A change of liquidity keeps the books. -/
theorem RangeAdjusted.bookkept
    (hadjusted : pool.RangeAdjusted key delta staged position amounts after) (h : pool.Bookkept)
    (hopen : pool.IsOpen) : after.Bookkept := by
  have hspacing : after.tickSpacing = pool.tickSpacing := by rw [hadjusted.pool_eq]
  have htick : after.tick = pool.tick := by rw [hadjusted.pool_eq]
  have hprice : after.sqrtPrice = pool.sqrtPrice := by rw [hadjusted.pool_eq]
  refine ⟨fun other hother ↦ ?_, hadjusted.agreesAt h, ?_, ?_, ?_⟩
  · rw [hspacing]
    by_cases hkey : other = key
    · rw [hkey]
      exact ⟨hadjusted.lower_lt_upper, hadjusted.minTick_le, hadjusted.le_maxTick,
        hadjusted.spacing_dvd⟩
    · rw [hadjusted.positions_eq, OrderedMap.get?_insert_of_ne _ _ hkey] at hother
      exact h.ranges other hother
  · rw [liquidity_of_rangeAmounts hadjusted.amounts_eq, htick, hadjusted.positions_eq,
      PositionTable.weigh_insert hadjusted.liquidity_eq, ← h.liquidity, PositionKey.rangeWeight,
      ite_mul, one_mul, zero_mul]
  · intro _
    rw [htick, hprice]
    exact h.stands hopen
  · intro hclosed
    rw [IsOpen, hprice] at hclosed
    exact absurd hopen hclosed

end Adjusted

/-! ### Swaps -/

/-- Steps of a swap change no more than growth at the ticks. -/
theorem liquidityAt_applyStep (paid : Token) (pool : Pool) (step : SwapStep) (tick : ℤ) :
    liquidityAt (applyStep paid pool step).ticks tick = liquidityAt pool.ticks tick := by
  cases step with
  | moved move =>
    cases hcrossing : move.crossing? with
    | none => simp only [applyStep, hcrossing]
    | some crossing =>
      simp only [applyStep, hcrossing, liquidityAt, TickTable.get?_cross]
      split
      · rename_i hat
        rw [hat, Option.map_map]
        rfl
      · rfl
  | usedUp tick fill => rfl
  | filledInPart tick fill left => rfl

theorem liquidityAt_midSwap (pool : Pool) (request : SwapRequest) (steps : List SwapStep)
    (state : SwapState) (tick : ℤ) :
    liquidityAt (pool.midSwap request steps state).ticks tick = liquidityAt pool.ticks tick := by
  change liquidityAt (steps.foldl (applyStep request.paid) pool).ticks tick = _
  induction steps generalizing pool with
  | nil => rfl
  | cons step steps ih => rw [List.foldl_cons, ih, liquidityAt_applyStep]

theorem isSome_midSwap (pool : Pool) (request : SwapRequest) (steps : List SwapStep)
    (state : SwapState) (tick : ℤ) :
    ((pool.midSwap request steps state).ticks.get? tick).isSome = (pool.ticks.get? tick).isSome := by
  have hkept := congrArg Option.isSome (liquidityAt_midSwap pool request steps state tick)
  simpa only [liquidityAt, Option.isSome_map] using hkept

variable {request : SwapRequest} {plan : SwapPlan} {steps : List SwapStep} {state : SwapState}

/-- What ranges count as changes with the tick where one of their ends is passed. -/
theorem weigh_rangeWeight_of_count (h : pool.Bookkept) {paid : Token} {passed? : Option ℤ}
    {before after : ℤ} (hcount : ∀ tick, (pool.ticks.get? tick).isSome →
      (if tick ≤ after then 1 else 0 : ℤ) = (if tick ≤ before then 1 else 0) +
        passed?.elim 0 fun passed ↦ if passed = tick then paid.entering 1 else 0) :
    pool.positions.weigh (PositionKey.rangeWeight after) =
      pool.positions.weigh (PositionKey.rangeWeight before) +
        passed?.elim 0 fun passed ↦ paid.entering (pool.positions.netAt passed) := by
  have hweight : ∀ key position, pool.positions.get? key = some position →
      position.liquidity ≠ 0 →
      PositionKey.rangeWeight after key = PositionKey.rangeWeight before key +
        passed?.elim 0 fun passed ↦ paid.entering 1 * PositionKey.netWeight passed key := by
    intro key position hget hne
    have horder := (h.ranges key (by rw [hget]; rfl)).lower_lt_upper
    rw [PositionKey.rangeWeight_eq horder, PositionKey.rangeWeight_eq horder,
      hcount _ (h.isSome_of_isEnd hget hne (.inl rfl)),
      hcount _ (h.isSome_of_isEnd hget hne (.inr rfl))]
    cases passed? with
    | none => simp only [Option.elim_none, add_zero]
    | some passed =>
      simp only [Option.elim_some, PositionKey.netWeight, eq_comm (a := passed)]
      split_ifs <;> ring
  rw [PositionTable.weigh_congr hweight]
  cases passed? with
  | none => simp only [Option.elim_none, add_zero]
  | some passed =>
    simp only [Option.elim_some]
    rw [PositionTable.weigh_add_mul, ← PositionTable.netAt_eq_weigh, ← Token.entering_eq_mul]

theorem weigh_rangeWeight_of_moved (h : pool.Bookkept) {nextLevel? : Option ℕ} {move : RangeMove}
    {next : SwapState} (hunderway : SwapState.Underway pool request state)
    (hlevel : ∀ level ∈ nextLevel?, request.paid.Past level state.sqrtPrice)
    (hmoved : SwapState.RangeMoved pool request state nextLevel? move next) :
    pool.positions.weigh (PositionKey.rangeWeight next.tick) =
      pool.positions.weigh (PositionKey.rangeWeight state.tick) +
        move.crossing?.elim 0 fun crossing ↦
          request.paid.entering (pool.positions.netAt crossing.tick) := by
  have hcount : ∀ tick, (pool.ticks.get? tick).isSome →
      (if tick ≤ next.tick then 1 else 0 : ℤ) = (if tick ≤ state.tick then 1 else 0) +
        (move.crossing?.map Crossing.tick).elim 0 fun passed ↦
          if passed = tick then request.paid.entering 1 else 0 := by
    intro tick hstored
    rw [hmoved.le_tick_count hunderway hlevel hstored]
    cases move.crossing? <;> rfl
  rw [weigh_rangeWeight_of_count h hcount]
  cases move.crossing? <;> rfl

/-- Wherever a swap stands, its liquidity is that of the positions around its tick. -/
theorem liquidity_of_course (h : pool.Bookkept) (hadmits : pool.Admits request)
    (hcourse : SwapState.Course pool request steps state) :
    (state.liquidity : ℤ) = pool.positions.weigh (PositionKey.rangeWeight state.tick) := by
  have hstands := h.stands hadmits.isOpen
  induction hcourse with
  | start => exact h.liquidity
  | @advanced steps state next step hbefore _ _ hadvanced ih =>
    have hfilled : ∀ {tick level fill},
        SwapState.LevelFilled pool request state tick level fill next →
        (next.liquidity : ℤ) = pool.positions.weigh (PositionKey.rangeWeight next.tick) := by
      intro tick level fill hfilled
      rw [hfilled.state_eq]
      exact ih
    cases hadvanced with
    | moved hlevel hmoved =>
      have hunderway := hadmits.underway h.inBounds hstands hbefore
      rw [weigh_rangeWeight_of_moved h hunderway hlevel.past hmoved, hmoved.liquidity_eq, ih]
      simp only [(h.find_eq _).2]
    | usedUp _ hlevel _ _ => exact hfilled hlevel
    | filledInPart _ hlevel _ _ _ => exact hfilled hlevel

theorem activeAt_of_course (h : pool.Bookkept) (hadmits : pool.Admits request)
    (hcourse : SwapState.Course pool request steps state) :
    state.liquidity = pool.positions.activeAt state.tick := by
  have hliquidity := liquidity_of_course h hadmits hcourse
  rw [← PositionTable.activeAt_eq_weigh] at hliquidity
  exact_mod_cast hliquidity

/-- A swap keeps the books, wherever it stands. -/
theorem Bookkept.midSwap (h : pool.Bookkept) (hplanned : pool.Planned request plan)
    (hcourse : SwapState.Course pool request steps state) :
    (pool.midSwap request steps state).Bookkept := by
  have hunderway := hplanned.underway h.inBounds (h.stands hplanned.isOpen) hcourse
  have hpositions : (pool.midSwap request steps state).positions = pool.positions := by
    rw [Pool.midSwap, foldl_applyStep_eq]
  have hspacing : (pool.midSwap request steps state).tickSpacing = pool.tickSpacing := by
    rw [Pool.midSwap, foldl_applyStep_eq]
  refine ⟨?_, fun tick ↦ ?_, ?_, fun _ ↦ hunderway.stands, fun hclosed ↦ ?_⟩
  · rw [hpositions, hspacing]
    exact h.ranges
  · rw [hpositions]
    exact agreesAt_congr (h.ticks tick) (liquidityAt_midSwap pool request steps state tick) rfl rfl
  · rw [hpositions]
    exact liquidity_of_course h hplanned.admits hcourse
  · exact absurd hunderway.stands.price_pos.ne' hclosed

/-! ### All calls -/

theorem Bookkept.of_create {fee tickSpacing : ℕ} (h : create fee tickSpacing = .ok pool) :
    pool.Bookkept := by
  obtain ⟨-, -, _, -, rfl⟩ := created_of_create h
  exact ⟨fun key hsome ↦ absurd hsome Bool.false_ne_true, fun tick ↦ rfl, rfl,
    fun hopen ↦ absurd rfl hopen, fun _ ↦ rfl⟩

/-- Every call that finishes keeps the books. -/
theorem Bookkept.of_finished (h : pool.Bookkept) {call : Call} {brought : TokenPair ℤ}
    (hfinished : Finished pool call brought after) : after.Bookkept := by
  cases hfinished with
  | firstPriceSet hclosed htick =>
    have hempty := h.closed hclosed
    have hstands := StandsAt.of_tickAt htick
    refine ⟨h.ranges, h.ticks, ?_, fun _ ↦ hstands, fun hclosed' ↦ ?_⟩
    · have hliquidity := h.liquidity
      rw [hempty] at hliquidity
      change (pool.liquidity : ℤ) = PositionTable.weigh pool.positions _
      rw [hliquidity, hempty]
      rfl
    · exact absurd hstands.price_pos.ne' hclosed'
  | liquidityAdded hopen hadjusted => exact hadjusted.bookkept h hopen
  | @liquidityRemoved key amount staged position amounts between hopen hadjusted =>
    have hbetween := hadjusted.bookkept h hopen
    have hget : between.positions.get? key = some position := by
      rw [hadjusted.pool_eq]
      exact OrderedMap.get?_insert_self _ _ _
    have hopen' : between.IsOpen := by
      rw [hadjusted.pool_eq]
      exact hopen
    have hpositions : between.positions.insert key (position.credit (amounts.map Int.natAbs)) =
        OrderedMap.insert pool.positions key (position.credit (amounts.map Int.natAbs)) := by
      rw [hadjusted.pool_eq]
      exact OrderedMap.insert_insert _ _ _ _
    rw [← hpositions]
    exact hbetween.of_insert hget rfl hopen'
  | collected hopen hget => exact h.of_insert hget rfl hopen
  | nothingCollected => exact h
  | swapped hplan =>
    have hplanned := planned_of_planSwap hplan
    rw [applySwap_eq hplanned]
    exact h.midSwap hplanned hplanned.course
  | protocolPartSet => exact ⟨h.ranges, h.ticks, h.liquidity, h.stands, h.closed⟩
  | protocolFeesCollected => exact ⟨h.ranges, h.ticks, h.liquidity, h.stands, h.closed⟩
  | orderPlaced => exact ⟨h.ranges, h.ticks, h.liquidity, h.stands, h.closed⟩
  | orderCancelled => exact ⟨h.ranges, h.ticks, h.liquidity, h.stands, h.closed⟩
  | orderCollected => exact ⟨h.ranges, h.ticks, h.liquidity, h.stands, h.closed⟩

theorem Reachable.bookkept (h : pool.Reachable) : pool.Bookkept :=
  h.of_kept .of_create fun _ hkept hfinished ↦ hkept.of_finished hfinished

/-- A pool that was opened stays open. -/
theorem isOpen_of_finished (h : pool.Bookkept) (hopen : pool.IsOpen) {call : Call}
    {brought : TokenPair ℤ} (hfinished : Finished pool call brought after) : after.IsOpen := by
  cases hfinished with
  | firstPriceSet hclosed _ => exact absurd hopen hclosed
  | liquidityAdded _ hadjusted =>
    rw [hadjusted.pool_eq]
    exact hopen
  | @liquidityRemoved _ _ _ _ _ between _ hadjusted =>
    change between.IsOpen
    rw [hadjusted.pool_eq]
    exact hopen
  | @swapped request plan hplan =>
    have hplanned := planned_of_planSwap hplan
    have hunderway := hplanned.underway h.inBounds (h.stands hopen) hplanned.course
    exact hunderway.stands.price_pos.ne'
  | _ => exact hopen

/-- In every reachable pool the boundary ticks and the liquidity around the tick are what the
positions make them. -/
theorem liquidity_bookkeeping (h : pool.Reachable) : pool.LiquidityBooks := by
  have hbooks := h.bookkept
  have hfound : ∀ tick boundary, pool.ticks.get? tick = some boundary →
      pool.ticks.find tick = boundary := by
    intro tick boundary hget
    rw [TickTable.find, hget, Option.getD_some]
  refine ⟨fun tick ↦ ?_, fun tick boundary hget ↦ ?_, fun tick boundary hget ↦ ?_,
    fun tick hstored ↦ hbooks.of_isSome hstored, ?_, hbooks.liquidity_eq_total_net⟩
  · rw [hbooks.isSome_iff, PositionTable.grossAt_pos_iff]
    simp only [Nat.pos_iff_ne_zero]
  · rw [← hfound tick boundary hget]
    exact (hbooks.find_eq tick).1
  · rw [← hfound tick boundary hget]
    exact (hbooks.find_eq tick).2
  · have hactive := hbooks.liquidity
    rw [← PositionTable.activeAt_eq_weigh] at hactive
    exact_mod_cast hactive

/-- Past the end of a range only the liquidity of the other one is left. -/
theorem liquidity_bookkeeping_pastFirstRange :
    let pool := (Call.swap .pastFirstRange).leaves twoRanges
    pool.LiquidityBooks ∧ pool.tick = 118 ∧ pool.liquidity = 500000 :=
  ⟨liquidity_bookkeeping (.called _ twoRanges_reachable), by decide +kernel, by decide +kernel⟩

end Pool

end RangeBook
