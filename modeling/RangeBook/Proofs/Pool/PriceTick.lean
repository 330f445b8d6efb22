import Mathlib
import RangeBook.Proofs.Pool.SwapTerms
import RangeBook.Proofs.Swap.Passes

/-!
# The tick of a pool is that of its price

A pool keeps its tick beside its price and does not compute it anew. The tick belongs to the price
all the same (`Coherent`): it is the greatest tick that the price reaches, or one less where the
price is that of a tick. This holds of every open pool that is reached, and at the start of every
pass of a swap, whether the swap finishes or fails later (`price_tick_coherent`).

Along a swap the tick follows the price by `Underway.stands`. That the price stays below the upper
bound is seen from the limit where it rises, and from the price before the swap where it falls.
-/

set_option autoImplicit false
set_option relaxedAutoImplicit false

namespace RangeBook

attribute [local irreducible] tickSqrtPrice tickAt

/-- Whether a tick belongs to a price: both lie within their bounds, the price lies between those of
the tick and the next one, and the tick is the one found from the price, or one less exactly where
the price is that of the next tick. -/
structure Coherent (tick : ℤ) (price : ℕ) : Prop where
  tick_bounds : minTick ≤ tick ∧ tick < maxTick
  price_bounds : minSqrtPrice ≤ price ∧ price < maxSqrtPrice
  between : ∃ low high, sqrtPriceAt tick = .ok low ∧ sqrtPriceAt (tick + 1) = .ok high ∧
    low ≤ price ∧ price ≤ high ∧ tickAt price = .ok (if price = high then tick + 1 else tick)

/-- The tick found from a price is the one at which the price stands, or the next one where the
price is that of the next tick. -/
theorem StandsAt.tickAt_eq {tick : ℤ} {price : ℕ} (h : StandsAt tick price)
    (hmax : price < maxSqrtPrice) :
    tickAt price = .ok (if price = tickSqrtPrice (tick + 1) then tick + 1 else tick) := by
  have hmin := h.minTick_le
  have hlt := h.lt_maxTick
  split_ifs with hat
  · have hne : tick + 1 ≠ maxTick := by
      intro heq
      rw [hat, heq, tickSqrtPrice_maxTick] at hmax
      exact lt_irrefl _ hmax
    rw [hat]
    exact tickAt_tickSqrtPrice (by omega) (by omega)
  · obtain ⟨found, hfound, -⟩ := tickAt_spec h.minSqrtPrice_le hmax
    have hbelow : tick ≤ found :=
      (tickSqrtPrice_le_iff_of_tickAt hmin hlt.le hfound).mp h.le_price
    have habove : ¬tick + 1 ≤ found := by
      rw [← tickSqrtPrice_le_iff_of_tickAt (by omega) (by omega) hfound, not_le]
      exact lt_of_le_of_ne h.price_le hat
    obtain rfl : found = tick := by omega
    exact hfound

theorem StandsAt.coherent {tick : ℤ} {price : ℕ} (h : StandsAt tick price)
    (hmax : price < maxSqrtPrice) : Coherent tick price := by
  have hmin := h.minTick_le
  have hlt := h.lt_maxTick
  refine ⟨⟨hmin, hlt⟩, ⟨h.minSqrtPrice_le, hmax⟩, ?_⟩
  exact ⟨_, _, sqrtPriceAt_of_bounds hmin hlt.le, sqrtPriceAt_of_bounds (by omega) (by omega),
    h.le_price, h.price_le, h.tickAt_eq hmax⟩

namespace Pool

open SwapState

variable {pool : Pool} {request : SwapRequest} {steps : List SwapStep} {state : SwapState}

/-- The price of a swap stays below the upper bound. -/
theorem Admits.sqrtPrice_lt (hadmits : pool.Admits request) (h : pool.Bookkept)
    (hbook : pool.book.Sound) (hmax : pool.sqrtPrice < maxSqrtPrice)
    (hcourse : Course pool request steps state) : state.sqrtPrice < maxSqrtPrice := by
  have hunderway := hadmits.underway h.inBounds (h.stands hadmits.isOpen) hcourse
  have hleads := (h.withinAmount hbook hadmits hcourse).2
  cases hpaid : request.paid with
  | zero =>
    rw [hpaid] at hleads
    exact lt_of_le_of_lt hleads hmax
  | one => exact (price_ne_bound hunderway.limit_inBounds hunderway.leads_limit).2 hpaid

theorem Reachable.sqrtPrice_lt (hreachable : pool.Reachable) : pool.sqrtPrice < maxSqrtPrice := by
  refine @Reachable.of_kept (fun pool ↦ pool.sqrtPrice < maxSqrtPrice) (fun hcreate ↦ ?_)
    (fun hbefore hmax hfinished ↦ ?_) pool hreachable
  · obtain ⟨-, -, _, -, rfl⟩ := created_of_create hcreate
    exact Nat.zero_lt_succ _
  · cases hfinished with
    | firstPriceSet _ htick =>
      obtain ⟨hmin, hmaxTick, -, hlt⟩ := spec_of_tickAt htick
      have hle : tickSqrtPrice _ ≤ tickSqrtPrice maxTick :=
        (tickSqrtPrice_le_iff (by omega) (by omega) (by decide) le_rfl).mpr hmaxTick
      rw [tickSqrtPrice_maxTick] at hle
      exact lt_of_lt_of_le hlt hle
    | liquidityAdded _ hadjusted =>
      rw [hadjusted.pool_eq]
      exact hmax
    | @liquidityRemoved _ _ _ _ _ between _ hadjusted =>
      change between.sqrtPrice < maxSqrtPrice
      rw [hadjusted.pool_eq]
      exact hmax
    | @swapped request plan hplan =>
      have hplanned := planned_of_planSwap hplan
      exact hplanned.admits.sqrtPrice_lt hbefore.bookkept hbefore.sound_book hmax hplanned.course
    | _ => exact hmax

/-- In every open pool that is reached, and at the start of every pass of a swap, the tick belongs
to the price. -/
theorem price_tick_coherent (h : pool.Reachable) (hopen : pool.IsOpen) :
    Coherent pool.tick pool.sqrtPrice ∧
      ∀ request, pool.Admits request → ∀ allowed,
        ∀ state ∈ passes pool request allowed (.start pool request),
          Coherent state.tick state.sqrtPrice := by
  have hbookkept := h.bookkept
  have hstands := hbookkept.stands hopen
  refine ⟨hstands.coherent h.sqrtPrice_lt, ?_⟩
  intro request hadmits allowed state hstate
  refine of_mem_passes (fun state ↦ Coherent state.tick state.sqrtPrice)
    (fun steps state hcourse _ ↦ ?_) hstate
  have hunderway := hadmits.underway hbookkept.inBounds hstands hcourse
  exact hunderway.stands.coherent
    (hadmits.sqrtPrice_lt hbookkept h.sound_book h.sqrtPrice_lt hcourse)

/-- A price that falls from a boundary tick crosses it before it moves. In the second pass the tick
is one less than the one found from the price. -/
theorem price_tick_coherent_atBoundary :
    let request : SwapRequest := ⟨.zero, 1000, minSqrtPrice + 1⟩
    let states := passes twoRanges request 20 (.start twoRanges request)
    states.map (fun state ↦ (state.tick, state.sqrtPrice)) = [(0, q96), (-1, q96)] ∧
      ∀ state ∈ states, Coherent state.tick state.sqrtPrice := by
  have hopen : twoRanges.IsOpen := by decide +kernel
  have hlimit : twoRanges.LimitAllowed ⟨.zero, 1000, minSqrtPrice + 1⟩ := by decide +kernel
  refine ⟨by decide +kernel, ?_⟩
  exact (price_tick_coherent twoRanges_reachable hopen).2 _ ⟨hopen, hlimit⟩ 20

end Pool

end RangeBook
