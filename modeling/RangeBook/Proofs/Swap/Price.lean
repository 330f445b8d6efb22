import Mathlib
import RangeBook.Proofs.Swap.Course
import RangeBook.Proofs.Swap.RangeStep
import RangeBook.Proofs.Tick.Boundary
import RangeBook.Proofs.Tick.Floor

/-!
# The price of a swap among the ticks

The price of a pool lies between the prices of its tick and of the next one, both included
(`StandsAt`): a price that has come down to a tick belongs to the tick below. A swap keeps this,
and stays before its limit (`Underway`), although its tick is found in four ways.

A move passes at most one boundary tick, the one that it crosses, and all others stay on the same
side of the tick (`RangeMoved.le_tick_iff`). No boundary tick lies strictly between the price
before a move and the price after it (`RangeMoved.sqrtPrice_sides`).
-/

set_option autoImplicit false
set_option relaxedAutoImplicit false

namespace RangeBook

attribute [local irreducible] tickSqrtPrice tickAt

/-! ### Prices and their ticks -/

/-- Whether a tick is the tick of a price, or the one below where the price is that of a tick. -/
structure StandsAt (tick : ℤ) (price : ℕ) : Prop where
  minTick_le : minTick ≤ tick
  lt_maxTick : tick < maxTick
  le_price : tickSqrtPrice tick ≤ price
  price_le : price ≤ tickSqrtPrice (tick + 1)

namespace StandsAt

variable {tick other : ℤ} {price : ℕ}

theorem of_tickAt (h : tickAt price = .ok tick) : StandsAt tick price := by
  obtain ⟨hge, hlt, hbelow, habove⟩ := spec_of_tickAt h
  exact ⟨hge, hlt, hbelow, habove.le⟩

theorem tickSqrtPrice_le (h : StandsAt tick price) (hmin : minTick ≤ other) (hle : other ≤ tick) :
    tickSqrtPrice other ≤ price :=
  le_trans ((tickSqrtPrice_le_iff hmin (le_trans hle h.lt_maxTick.le) h.minTick_le
    h.lt_maxTick.le).mpr hle) h.le_price

theorem le_tickSqrtPrice (h : StandsAt tick price) (hmax : other ≤ maxTick) (hlt : tick < other) :
    price ≤ tickSqrtPrice other := by
  have hmin := h.minTick_le
  have hlt' := h.lt_maxTick
  exact le_trans h.price_le ((tickSqrtPrice_le_iff (by omega) (by omega) (by omega) hmax).mpr
    (by omega))

theorem minSqrtPrice_le (h : StandsAt tick price) : minSqrtPrice ≤ price := by
  rw [← tickSqrtPrice_minTick]
  exact h.tickSqrtPrice_le le_rfl h.minTick_le

theorem price_pos (h : StandsAt tick price) : 0 < price :=
  lt_of_lt_of_le (by decide) h.minSqrtPrice_le

/-- A price that has come down to a tick stands at the tick below. -/
theorem below {tick : ℤ} (hmin : minTick < tick) (hmax : tick ≤ maxTick) :
    StandsAt (tick - 1) (tickSqrtPrice tick) := by
  refine ⟨by omega, by omega, ?_, ?_⟩
  · exact (tickSqrtPrice_le_iff (by omega) (by omega) hmin.le hmax).mpr (by omega)
  · rw [Int.sub_add_cancel]

/-- A price that has risen to a tick stands at the tick. -/
theorem at_tick {tick : ℤ} (hmin : minTick ≤ tick) (hmax : tick < maxTick) :
    StandsAt tick (tickSqrtPrice tick) := by
  refine ⟨hmin, hmax, le_rfl, ?_⟩
  exact (tickSqrtPrice_le_iff hmin hmax.le (by omega) (by omega)).mpr (by omega)

end StandsAt

/-- The boundary ticks of a table lie within the bounds. -/
def TickTable.InBounds (ticks : TickTable) : Prop :=
  ∀ tick, (ticks.get? tick).isSome → minTick ≤ tick ∧ tick ≤ maxTick

namespace SwapState

variable {pool : Pool} {request : SwapRequest} {state next : SwapState}
  {nextLevel? : Option ℕ} {move : RangeMove} {tick : ℤ}

/-- Whether a swap may end at its limit. -/
def LimitInBounds (request : SwapRequest) : Prop :=
  match request.paid with
  | .zero => minSqrtPrice < request.limit
  | .one => request.limit < maxSqrtPrice

/-- Whether the price and the tick of a swap belong together, before the limit. -/
structure Underway (pool : Pool) (request : SwapRequest) (state : SwapState) : Prop where
  ticks_inBounds : pool.ticks.InBounds
  limit_inBounds : LimitInBounds request
  stands : StandsAt state.tick state.sqrtPrice
  leads_limit : request.paid.Leads state.sqrtPrice request.limit

/-! ### The next boundary tick -/

theorem nextTick_eq (hbounds : pool.ticks.InBounds) :
    nextTick pool request state = (pool.ticks.next state.tick request.paid).1 := by
  have hclamp : ∀ tick : ℤ, minTick ≤ tick → tick ≤ maxTick → max minTick (min maxTick tick) = tick :=
    fun tick hmin hmax ↦ by rw [min_eq_right hmax, max_eq_right hmin]
  unfold nextTick
  cases request.paid with
  | zero =>
    rcases TickTable.next_zero_eq pool.ticks state.tick with ⟨found, hnext, hfound, -⟩ | ⟨hnext, -⟩
    · rw [hnext]
      exact hclamp found (hbounds found hfound).1 (hbounds found hfound).2
    · rw [hnext]
      exact hclamp minTick le_rfl (by decide)
  | one =>
    rcases TickTable.next_one_eq pool.ticks state.tick with ⟨found, hnext, hfound, -⟩ | ⟨hnext, -⟩
    · rw [hnext]
      exact hclamp found (hbounds found hfound).1 (hbounds found hfound).2
    · rw [hnext]
      exact hclamp maxTick (by decide) le_rfl

/-- Where the price falls, the next tick is the greatest boundary that is not above the tick. -/
theorem nextTick_zero (h : Underway pool request state) (hpaid : request.paid = .zero) :
    minTick ≤ nextTick pool request state ∧ nextTick pool request state ≤ state.tick ∧
      ∀ tick, (pool.ticks.get? tick).isSome → tick ≤ state.tick →
        tick ≤ nextTick pool request state := by
  rw [nextTick_eq h.ticks_inBounds, hpaid]
  rcases TickTable.next_zero_eq pool.ticks state.tick with
    ⟨found, hnext, hfound, hle, hgreatest⟩ | ⟨hnext, hnone⟩
  · rw [hnext]
    exact ⟨(h.ticks_inBounds found hfound).1, hle, hgreatest⟩
  · rw [hnext]
    exact ⟨le_rfl, h.stands.minTick_le,
      fun tick hstored hle ↦ absurd (hnone tick hstored) (not_lt.mpr hle)⟩

/-- Where the price rises, the next tick is the least boundary above the tick. -/
theorem nextTick_one (h : Underway pool request state) (hpaid : request.paid = .one) :
    nextTick pool request state ≤ maxTick ∧ state.tick < nextTick pool request state ∧
      ∀ tick, (pool.ticks.get? tick).isSome → state.tick < tick →
        nextTick pool request state ≤ tick := by
  rw [nextTick_eq h.ticks_inBounds, hpaid]
  rcases TickTable.next_one_eq pool.ticks state.tick with
    ⟨found, hnext, hfound, hlt, hleast⟩ | ⟨hnext, hnone⟩
  · rw [hnext]
    exact ⟨(h.ticks_inBounds found hfound).2, hlt, hleast⟩
  · rw [hnext]
    exact ⟨le_rfl, h.stands.lt_maxTick,
      fun tick hstored hlt ↦ absurd (hnone tick hstored) (not_le.mpr hlt)⟩

/-- The price may move up to the price of the next tick. -/
theorem leads_nextTick (h : Underway pool request state) :
    request.paid.Leads state.sqrtPrice (tickSqrtPrice (nextTick pool request state)) := by
  cases hpaid : request.paid with
  | zero =>
    obtain ⟨hmin, hle, -⟩ := nextTick_zero h hpaid
    exact h.stands.tickSqrtPrice_le hmin hle
  | one =>
    obtain ⟨hmax, hlt, -⟩ := nextTick_one h hpaid
    exact h.stands.le_tickSqrtPrice hmax hlt

/-! ### The price after a move -/

/-- Of two prices in the direction of a swap the one that comes first leads to the other. -/
theorem nearer_leads {paid : Token} {price left right : ℕ} (hleft : paid.Leads price left)
    (hright : paid.Leads price right) :
    paid.Leads price (if paid.Past left right then right else left) ∧
      paid.Leads (if paid.Past left right then right else left) left ∧
      paid.Leads (if paid.Past left right then right else left) right := by
  by_cases hpast : paid.Past left right
  · rw [if_pos hpast]
    exact ⟨hright, .of_past hpast, .refl _ _⟩
  · rw [if_neg hpast]
    exact ⟨hleft, .refl _ _, Token.not_past_iff.mp hpast⟩

/-- The target of a move lies in its direction, and past neither the next tick nor the limit. -/
theorem targetPrice_leads {price nextTickPrice : ℕ}
    (htick : request.paid.Leads price nextTickPrice)
    (hlimit : request.paid.Leads price request.limit)
    (hlevel : ∀ level ∈ nextLevel?, request.paid.Past level price) :
    request.paid.Leads price (targetPrice request nextTickPrice nextLevel?) ∧
      request.paid.Leads (targetPrice request nextTickPrice nextLevel?) request.limit ∧
      request.paid.Leads (targetPrice request nextTickPrice nextLevel?) nextTickPrice := by
  obtain ⟨hnear, hnearTick, hnearLimit⟩ := nearer_leads htick hlimit
  unfold targetPrice
  cases nextLevel? with
  | none => exact ⟨hnear, hnearLimit, hnearTick⟩
  | some level =>
    obtain ⟨htarget, hbefore, -⟩ := nearer_leads hnear (.of_past (hlevel level rfl))
    exact ⟨htarget, hbefore.trans hnearLimit, hbefore.trans hnearTick⟩

/-- The target of a move does not lie past the next level. -/
theorem targetPrice_leads_level {price nextTickPrice level : ℕ}
    (htick : request.paid.Leads price nextTickPrice)
    (hlimit : request.paid.Leads price request.limit) (hlevel : request.paid.Past level price) :
    request.paid.Leads (targetPrice request nextTickPrice (some level)) level :=
  (nearer_leads (nearer_leads htick hlimit).1 (.of_past hlevel)).2.2

theorem targetPrice_pos (h : Underway pool request state)
    (hlevel : ∀ level ∈ nextLevel?, request.paid.Past level state.sqrtPrice) :
    0 < targetPrice request (tickSqrtPrice (nextTick pool request state)) nextLevel? := by
  obtain ⟨hleads, hlimit, -⟩ := targetPrice_leads (leads_nextTick h) h.leads_limit hlevel
  have hbound := h.limit_inBounds
  cases hpaid : request.paid with
  | zero =>
    rw [hpaid] at hlimit
    simp only [LimitInBounds, hpaid] at hbound
    exact lt_of_lt_of_le (Nat.zero_lt_of_lt hbound) hlimit
  | one =>
    rw [hpaid] at hleads
    exact lt_of_lt_of_le h.stands.price_pos hleads

/-- A move is favourable to the pool, and keeps the price before the next tick and the limit. -/
theorem RangeMoved.favourable (hmoved : RangeMoved pool request state nextLevel? move next)
    (h : Underway pool request state)
    (hlevel : ∀ level ∈ nextLevel?, request.paid.Past level state.sqrtPrice) :
    RangeStep.Favourable request.paid state.sqrtPrice
        (tickSqrtPrice (nextTick pool request state)) state.liquidity move.step ∧
      request.paid.Leads next.sqrtPrice request.limit := by
  obtain ⟨hleads, hlimit, htick⟩ := targetPrice_leads (leads_nextTick h) h.leads_limit hlevel
  have hstep := RangeStep.favourable_of_compute (targetPrice_pos h hlevel) hleads
    hmoved.compute_eq
  rw [hmoved.sqrtPrice_eq]
  exact ⟨⟨hstep.leads, hstep.stays.trans htick, hstep.exactAmount_le, hstep.le_exactAmount⟩,
    hstep.stays.trans hlimit⟩

/-- No move takes the price past the next level. -/
theorem RangeMoved.leads_level (hmoved : RangeMoved pool request state nextLevel? move next)
    (h : Underway pool request state)
    (hlevel : ∀ level ∈ nextLevel?, request.paid.Past level state.sqrtPrice) {level : ℕ}
    (hmem : level ∈ nextLevel?) : request.paid.Leads next.sqrtPrice level := by
  have hpast := hlevel level hmem
  obtain ⟨hleads, -, -⟩ := targetPrice_leads (leads_nextTick h) h.leads_limit hlevel
  have hstep := RangeStep.favourable_of_compute (targetPrice_pos h hlevel) hleads
    hmoved.compute_eq
  obtain rfl : nextLevel? = some level := hmem
  rw [hmoved.sqrtPrice_eq]
  exact hstep.stays.trans (targetPrice_leads_level (leads_nextTick h) h.leads_limit hpast)

/-- The price before the limit is within the bounds, and not at one of them. -/
theorem price_ne_bound (hlimit : LimitInBounds request) {price : ℕ}
    (hleads : request.paid.Leads price request.limit) :
    (request.paid = .zero → minSqrtPrice < price) ∧
      (request.paid = .one → price < maxSqrtPrice) := by
  constructor <;> intro hpaid <;> simp only [LimitInBounds, Token.Leads, hpaid] at hlimit hleads <;>
    omega

/-- After a move the tick and the price belong together again. -/
theorem RangeMoved.stands (hmoved : RangeMoved pool request state nextLevel? move next)
    (h : Underway pool request state)
    (hlevel : ∀ level ∈ nextLevel?, request.paid.Past level state.sqrtPrice) :
    StandsAt next.tick next.sqrtPrice := by
  have hlimit := (hmoved.favourable h hlevel).2
  obtain ⟨hnotMin, hnotMax⟩ := price_ne_bound h.limit_inBounds hlimit
  have hreached : move.step.price = tickSqrtPrice (nextTick pool request state) →
      next.tick = tickPassed request (nextTick pool request state) →
      StandsAt next.tick next.sqrtPrice := by
    intro hprice htick
    rw [hmoved.sqrtPrice_eq, hprice] at hnotMin hnotMax
    rw [htick, hmoved.sqrtPrice_eq, hprice, tickPassed]
    cases hpaid : request.paid with
    | zero =>
      obtain ⟨hmin, hle, -⟩ := nextTick_zero h hpaid
      refine .below (lt_of_le_of_ne hmin fun heq ↦ ?_) (le_trans hle h.stands.lt_maxTick.le)
      have hgt := hnotMin hpaid
      rw [← heq, tickSqrtPrice_minTick] at hgt
      exact lt_irrefl _ hgt
    | one =>
      obtain ⟨hmax, hlt, -⟩ := nextTick_one h hpaid
      have hne : nextTick pool request state ≠ maxTick := by
        intro heq
        have hlt := hnotMax hpaid
        rw [heq, tickSqrtPrice_maxTick] at hlt
        exact lt_irrefl _ hlt
      exact .at_tick (le_trans h.stands.minTick_le hlt.le) (lt_of_le_of_ne hmax hne)
  cases hmoved.arrival with
  | crossed _ hprice _ htick _ => exact hreached hprice htick
  | bounded _ hprice _ htick _ => exact hreached hprice htick
  | rested _ hprice _ htick _ =>
    rw [htick, hmoved.sqrtPrice_eq, hprice]
    exact h.stands
  | found _ _ _ htick _ =>
    rw [hmoved.sqrtPrice_eq]
    exact .of_tickAt htick

/-! ### The boundary ticks around a move -/

/-- A crossing is of the next boundary tick, with the growth after the move. -/
theorem RangeMoved.crossing_eq (hmoved : RangeMoved pool request state nextLevel? move next)
    (h : Underway pool request state) {crossing : Crossing}
    (hcrossing : move.crossing? = some crossing) :
    crossing.tick = nextTick pool request state ∧ (pool.ticks.get? crossing.tick).isSome ∧
      crossing.growth = pool.growth.set request.paid next.growth := by
  have hnone : move.crossing? ≠ none := by
    rw [hcrossing]
    exact Option.some_ne_none _
  cases hmoved.arrival with
  | crossed hboundary _ heq _ _ =>
    rw [hcrossing] at heq
    obtain rfl := Option.some.inj heq
    refine ⟨rfl, ?_, rfl⟩
    change (pool.ticks.get? (nextTick pool request state)).isSome
    rw [nextTick_eq h.ticks_inBounds]
    cases hpaid : request.paid with
    | zero =>
      rw [hpaid] at hboundary
      rcases TickTable.next_zero_eq pool.ticks state.tick with ⟨_, hnext, hfound, -⟩ | ⟨hnext, -⟩
      · rw [hnext]
        exact hfound
      · rw [hnext] at hboundary
        exact absurd hboundary Bool.false_ne_true
    | one =>
      rw [hpaid] at hboundary
      rcases TickTable.next_one_eq pool.ticks state.tick with ⟨_, hnext, hfound, -⟩ | ⟨hnext, -⟩
      · rw [hnext]
        exact hfound
      · rw [hnext] at hboundary
        exact absurd hboundary Bool.false_ne_true
  | bounded _ _ heq _ _ => exact absurd heq hnone
  | rested _ _ heq _ _ => exact absurd heq hnone
  | found _ _ heq _ _ => exact absurd heq hnone

/-- The liquidity changes by the net liquidity of the tick that is crossed. -/
theorem RangeMoved.liquidity_eq (hmoved : RangeMoved pool request state nextLevel? move next) :
    (next.liquidity : ℤ) = state.liquidity + move.crossing?.elim 0 fun crossing ↦
      request.paid.entering (pool.ticks.find crossing.tick).net := by
  cases hmoved.arrival with
  | crossed _ _ hcrossing _ hliquidity =>
    rw [hcrossing]
    exact hliquidity
  | bounded _ _ hcrossing _ hliquidity => rw [hcrossing, hliquidity, Option.elim_none, add_zero]
  | rested _ _ hcrossing _ hliquidity => rw [hcrossing, hliquidity, Option.elim_none, add_zero]
  | found _ _ hcrossing _ hliquidity => rw [hcrossing, hliquidity, Option.elim_none, add_zero]

/-- Where the tick is found from the price after a move, it stays on the near side of the next
boundary tick. -/
theorem RangeMoved.found_between (hmoved : RangeMoved pool request state nextLevel? move next)
    (h : Underway pool request state)
    (hlevel : ∀ level ∈ nextLevel?, request.paid.Past level state.sqrtPrice)
    (hne : move.step.price ≠ tickSqrtPrice (nextTick pool request state))
    (hneStart : move.step.price ≠ state.sqrtPrice)
    (hfound : tickAt move.step.price = .ok next.tick) :
    match request.paid with
    | .zero => nextTick pool request state ≤ next.tick ∧ next.tick ≤ state.tick
    | .one => state.tick ≤ next.tick ∧ next.tick < nextTick pool request state := by
  have hstep := (hmoved.favourable h hlevel).1
  have hleads := hstep.leads
  have hstays := hstep.stays
  have hmin := h.stands.minTick_le
  have hmax := h.stands.lt_maxTick
  cases hpaid : request.paid with
  | zero =>
    rw [hpaid] at hleads hstays
    obtain ⟨hnextMin, hnextLe, -⟩ := nextTick_zero h hpaid
    constructor
    · exact (tickSqrtPrice_le_iff_of_tickAt hnextMin (by omega) hfound).mp hstays
    · have hbelow : move.step.price < tickSqrtPrice (state.tick + 1) :=
        lt_of_lt_of_le (lt_of_le_of_ne hleads hneStart) h.stands.price_le
      rw [← not_le, tickSqrtPrice_le_iff_of_tickAt (by omega) (by omega) hfound] at hbelow
      omega
  | one =>
    rw [hpaid] at hleads hstays
    obtain ⟨hnextMax, hnextLt, -⟩ := nextTick_one h hpaid
    constructor
    · exact (tickSqrtPrice_le_iff_of_tickAt hmin hmax.le hfound).mp
        (le_trans h.stands.le_price hleads)
    · have hbelow : move.step.price < tickSqrtPrice (nextTick pool request state) :=
        lt_of_le_of_ne hstays hne
      rw [← not_le, tickSqrtPrice_le_iff_of_tickAt (by omega) hnextMax hfound] at hbelow
      omega

/-- Passing the next tick changes the side of that tick, and of no other boundary. -/
theorem le_tickPassed_iff (h : Underway pool request state)
    (hstored : (pool.ticks.get? tick).isSome) :
    tick ≤ tickPassed request (nextTick pool request state) ↔
      if nextTick pool request state = tick then ¬tick ≤ state.tick else tick ≤ state.tick := by
  unfold tickPassed
  cases hpaid : request.paid with
  | zero =>
    obtain ⟨-, hle, hgreatest⟩ := nextTick_zero h hpaid
    have hgreatest := hgreatest tick hstored
    change tick ≤ nextTick pool request state - 1 ↔ _
    split_ifs with hat <;> omega
  | one =>
    obtain ⟨-, hlt, hleast⟩ := nextTick_one h hpaid
    have hleast := hleast tick hstored
    change tick ≤ nextTick pool request state ↔ _
    split_ifs with hat <;> omega

/-- Passing the end of all ticks, where no boundary is left ahead, changes the side of none. -/
theorem le_tickPassed_iff_of_unbounded (h : Underway pool request state)
    (hstored : (pool.ticks.get? tick).isSome)
    (hboundary : (pool.ticks.next state.tick request.paid).2 = false) :
    tick ≤ tickPassed request (nextTick pool request state) ↔ tick ≤ state.tick := by
  unfold tickPassed
  cases hpaid : request.paid with
  | zero =>
    obtain ⟨-, hle, -⟩ := nextTick_zero h hpaid
    rw [hpaid] at hboundary
    rcases TickTable.next_zero_eq pool.ticks state.tick with ⟨_, hnext, -⟩ | ⟨-, hnone⟩
    · rw [hnext] at hboundary
      exact absurd hboundary.symm Bool.false_ne_true
    · have hnone := hnone tick hstored
      change tick ≤ nextTick pool request state - 1 ↔ _
      omega
  | one =>
    obtain ⟨-, hlt, -⟩ := nextTick_one h hpaid
    rw [hpaid] at hboundary
    rcases TickTable.next_one_eq pool.ticks state.tick with ⟨_, hnext, -⟩ | ⟨-, hnone⟩
    · rw [hnext] at hboundary
      exact absurd hboundary.symm Bool.false_ne_true
    · have hnone := hnone tick hstored
      change tick ≤ nextTick pool request state ↔ _
      omega

/-- No boundary tick lies between the tick where a move starts and the one found where it ends. -/
theorem RangeMoved.le_found_iff (hmoved : RangeMoved pool request state nextLevel? move next)
    (h : Underway pool request state)
    (hlevel : ∀ level ∈ nextLevel?, request.paid.Past level state.sqrtPrice)
    (hstored : (pool.ticks.get? tick).isSome)
    (hne : move.step.price ≠ tickSqrtPrice (nextTick pool request state))
    (hneStart : move.step.price ≠ state.sqrtPrice)
    (hfound : tickAt move.step.price = .ok next.tick) :
    tick ≤ next.tick ↔ tick ≤ state.tick := by
  have hbetween := hmoved.found_between h hlevel hne hneStart hfound
  cases hpaid : request.paid with
  | zero =>
    obtain ⟨-, -, hgreatest⟩ := nextTick_zero h hpaid
    have hgreatest := hgreatest tick hstored
    simp only [hpaid] at hbetween
    omega
  | one =>
    obtain ⟨-, -, hleast⟩ := nextTick_one h hpaid
    have hleast := hleast tick hstored
    simp only [hpaid] at hbetween
    omega

/-- A boundary tick changes sides with the tick of the pool exactly where a move crosses it. -/
theorem RangeMoved.le_tick_iff (hmoved : RangeMoved pool request state nextLevel? move next)
    (h : Underway pool request state)
    (hlevel : ∀ level ∈ nextLevel?, request.paid.Past level state.sqrtPrice)
    (hstored : (pool.ticks.get? tick).isSome) :
    tick ≤ next.tick ↔ if move.crossing?.map Crossing.tick = some tick then ¬tick ≤ state.tick
      else tick ≤ state.tick := by
  have hunchanged : move.crossing? = none → (tick ≤ next.tick ↔ tick ≤ state.tick) →
      (tick ≤ next.tick ↔ if move.crossing?.map Crossing.tick = some tick then ¬tick ≤ state.tick
        else tick ≤ state.tick) := by
    intro hnone hiff
    rw [hnone, Option.map_none, if_neg (Option.some_ne_none tick).symm]
    exact hiff
  cases hmoved.arrival with
  | crossed _ _ hcrossing htick _ =>
    rw [hcrossing, Option.map_some, htick]
    simp only [Option.some.injEq]
    exact le_tickPassed_iff h hstored
  | bounded hboundary _ hcrossing htick _ =>
    refine hunchanged hcrossing ?_
    rw [htick]
    exact le_tickPassed_iff_of_unbounded h hstored hboundary
  | rested _ _ hcrossing htick _ => exact hunchanged hcrossing (by rw [htick])
  | found hne hneStart hcrossing htick _ =>
    exact hunchanged hcrossing (hmoved.le_found_iff h hlevel hstored hne hneStart htick)

/-- The next tick lies ahead of the tick of a swap. -/
theorem nextTick_ahead (h : Underway pool request state) :
    match request.paid with
    | .zero => nextTick pool request state ≤ state.tick
    | .one => state.tick < nextTick pool request state := by
  cases hpaid : request.paid with
  | zero => exact (nextTick_zero h hpaid).2.1
  | one => exact (nextTick_one h hpaid).2.1

/-- How a tick counts as being at or below the tick of a swap, where the swap passes a tick ahead of
it. -/
theorem count_of_passed {paid : Token} {passed before after : ℤ}
    (hahead : match paid with
      | .zero => passed ≤ before
      | .one => before < passed)
    (hiff : tick ≤ after ↔ if passed = tick then ¬tick ≤ before else tick ≤ before) :
    (if tick ≤ after then 1 else 0 : ℤ) = (if tick ≤ before then 1 else 0) +
      if passed = tick then paid.entering 1 else 0 := by
  by_cases hat : passed = tick
  · rw [if_pos hat] at hiff ⊢
    rw [hat] at hahead
    cases paid with
    | zero =>
      rw [if_neg fun hle ↦ hiff.mp hle hahead, if_pos hahead]
      rfl
    | one =>
      have hout : ¬tick ≤ before := not_le.mpr hahead
      rw [if_pos (hiff.mpr hout), if_neg hout]
      rfl
  · rw [if_neg hat] at hiff ⊢
    simp only [hiff, add_zero]

/-- How a boundary tick counts as being at or below the tick of the pool, once the next tick is
passed. -/
theorem tickPassed_count (h : Underway pool request state)
    (hstored : (pool.ticks.get? tick).isSome) :
    (if tick ≤ tickPassed request (nextTick pool request state) then 1 else 0 : ℤ) =
      (if tick ≤ state.tick then 1 else 0) +
        if nextTick pool request state = tick then request.paid.entering 1 else 0 :=
  count_of_passed (nextTick_ahead h) (le_tickPassed_iff h hstored)

/-- How a boundary tick counts as being at or below the tick of the pool, after a move. -/
theorem RangeMoved.le_tick_count (hmoved : RangeMoved pool request state nextLevel? move next)
    (h : Underway pool request state)
    (hlevel : ∀ level ∈ nextLevel?, request.paid.Past level state.sqrtPrice)
    (hstored : (pool.ticks.get? tick).isSome) :
    (if tick ≤ next.tick then 1 else 0 : ℤ) = (if tick ≤ state.tick then 1 else 0) +
      move.crossing?.elim 0 fun crossing ↦
        if crossing.tick = tick then request.paid.entering 1 else 0 := by
  have hiff := hmoved.le_tick_iff h hlevel hstored
  cases hcrossing : move.crossing? with
  | none =>
    rw [hcrossing, Option.map_none, if_neg (Option.some_ne_none tick).symm] at hiff
    simp only [hiff, Option.elim_none, add_zero]
  | some crossing =>
    rw [hcrossing, Option.map_some] at hiff
    simp only [Option.some.injEq] at hiff
    have hahead := nextTick_ahead h
    rw [← (hmoved.crossing_eq h hcrossing).1] at hahead
    rw [Option.elim_some]
    exact count_of_passed hahead hiff

/-- The price after a move lies on the same side of each boundary tick as the price before it. -/
theorem RangeMoved.sqrtPrice_sides (hmoved : RangeMoved pool request state nextLevel? move next)
    (h : Underway pool request state)
    (hlevel : ∀ level ∈ nextLevel?, request.paid.Past level state.sqrtPrice)
    (hstored : (pool.ticks.get? tick).isSome) :
    (tick ≤ state.tick → tickSqrtPrice tick ≤ next.sqrtPrice) ∧
      (state.tick < tick → next.sqrtPrice ≤ tickSqrtPrice tick) := by
  have hstep := (hmoved.favourable h hlevel).1
  have hleads := hstep.leads
  have hstays := hstep.stays
  rw [← hmoved.sqrtPrice_eq] at hleads hstays
  obtain ⟨hmin, hmax⟩ := h.ticks_inBounds tick hstored
  cases hpaid : request.paid with
  | zero =>
    rw [hpaid] at hleads hstays
    obtain ⟨hnextMin, hnextLe, hgreatest⟩ := nextTick_zero h hpaid
    refine ⟨fun hle ↦ ?_, fun hlt ↦ le_trans hleads (h.stands.le_tickSqrtPrice hmax hlt)⟩
    have hnextMax := le_trans hnextLe h.stands.lt_maxTick.le
    exact le_trans ((tickSqrtPrice_le_iff hmin hmax hnextMin hnextMax).mpr
      (hgreatest tick hstored hle)) hstays
  | one =>
    rw [hpaid] at hleads hstays
    obtain ⟨hnextMax, hnextLt, hleast⟩ := nextTick_one h hpaid
    refine ⟨fun hle ↦ le_trans (h.stands.tickSqrtPrice_le hmin hle) hleads, fun hlt ↦ ?_⟩
    have hnextMin := le_trans h.stands.minTick_le hnextLt.le
    exact le_trans hstays ((tickSqrtPrice_le_iff hnextMin hnextMax hmin hmax).mpr
      (hleast tick hstored hlt))

/-- A level is filled once the price has reached it. -/
theorem LevelFilled.leads_reached {level : Level} {fill : LevelFill}
    (h : LevelFilled pool request state tick level fill next) :
    request.paid.Leads (tickSqrtPrice tick) state.sqrtPrice := by
  obtain ⟨levelPrice, hprice, hreached⟩ := h.reached
  rw [(sqrtPriceAt_eq_ok.mp hprice).2]
  exact Token.not_past_iff.mp hreached

/-! ### The whole course -/

theorem Advanced.underway {step : SwapStep} (hadvanced : Advanced pool request state step next)
    (h : Underway pool request state) : Underway pool request next := by
  have hfilled : ∀ {tick level fill}, LevelFilled pool request state tick level fill next →
      Underway pool request next := by
    intro tick level fill hfilled
    refine ⟨h.ticks_inBounds, h.limit_inBounds, ?_, ?_⟩ <;> rw [hfilled.state_eq]
    · exact h.stands
    · exact h.leads_limit
  cases hadvanced with
  | moved hlevel hmoved =>
    exact ⟨h.ticks_inBounds, h.limit_inBounds, hmoved.stands h hlevel.past,
      (hmoved.favourable h hlevel.past).2⟩
  | usedUp _ hlevel _ _ => exact hfilled hlevel
  | filledInPart _ hlevel _ _ _ => exact hfilled hlevel

end SwapState

open SwapState

namespace Pool

variable {pool : Pool} {request : SwapRequest} {steps : List SwapStep} {state : SwapState}

/-- The price and the tick of a swap belong together wherever it stands. -/
theorem Admits.underway (hadmits : pool.Admits request) (hbounds : pool.ticks.InBounds)
    (hstands : StandsAt pool.tick pool.sqrtPrice) (hcourse : Course pool request steps state) :
    Underway pool request state := by
  induction hcourse with
  | start =>
    obtain ⟨hpast, hlimit⟩ := hadmits.limitAllowed
    exact ⟨hbounds, hlimit, hstands, .of_past hpast⟩
  | advanced _ _ _ hadvanced ih => exact hadvanced.underway ih

theorem Planned.underway {plan : SwapPlan} (hplanned : pool.Planned request plan)
    (hbounds : pool.ticks.InBounds) (hstands : StandsAt pool.tick pool.sqrtPrice)
    (hcourse : Course pool request steps state) : Underway pool request state :=
  hplanned.admits.underway hbounds hstands hcourse

end Pool

end RangeBook
