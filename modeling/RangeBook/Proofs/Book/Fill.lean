import Mathlib
import RangeBook.Proofs.Book.Claims

/-!
# What fills do to a book

A fill that uses a level up takes the level out, and what rested at its tick was filled completely
(`claims_removeLevel`). A fill in part writes a level with a new share, which says what was taken of
the orders. The exact worth of that part is what the fill adds to their claims
(`claims_replaceLevel`).
-/

set_option autoImplicit false
set_option relaxedAutoImplicit false

namespace RangeBook

attribute [local irreducible] tickSqrtPrice tickAt

/-! ### Levels that fills write -/

namespace Side

variable {side : Side} {tick : ℤ} {level left : Level} {nextBatch : ℕ}

/-- A level that is filled in part scales what rests at its tick by the ratio of the shares. -/
theorem scaled_withLevel (hlevel : side.levels.get? tick = some level)
    (hbatch : left.batch = level.batch) (hvalue : left.unfilled.value ≤ level.unfilled.value)
    (havailable : level.available * (left.unfilled.value / level.unfilled.value) ≤
      left.available) :
    side.Scaled tick (left.unfilled.value / level.unfilled.value) (side.withLevel tick left) := by
  have hget := side.get?_withLevel tick left
  have hpos := level.unfilled.value_pos
  refine ⟨rfl, fun other hother ↦ OrderedMap.get?_insert_of_ne _ _ hother, fun order ↦ ?_, ?_,
    (div_pos left.unfilled.value_pos hpos).le, (div_le_one hpos).mpr hvalue⟩
  · rw [hget, hlevel]
    by_cases hsame : level.batch = order.batch
    · have hlast := order.lastUnfilled.value_pos
      rw [LimitOrder.resting_of_eq hsame, LimitOrder.resting_of_eq (hbatch.trans hsame)]
      field_simp
    · rw [LimitOrder.resting_of_ne hsame, LimitOrder.resting_of_ne (hbatch ▸ hsame), mul_zero]
  · rw [availableAt_of_get? hget, availableAt_of_get? hlevel, mul_comm]
    exact havailable

theorem Sound.withLevel (h : side.Sound nextBatch) (hlevel : side.levels.get? tick = some level)
    (hbatch : left.batch = level.batch) (hvalue : left.unfilled.value ≤ level.unfilled.value)
    (havailable : level.available * (left.unfilled.value / level.unfilled.value) ≤ left.available)
    (hle : left.available ≤ level.available) : (side.withLevel tick left).Sound nextBatch := by
  have hget := side.get?_withLevel tick left
  have hfits := h.levels tick level hlevel
  refine (scaled_withLevel hlevel hbatch hvalue havailable).sound h (fun found hfound ↦ ?_)
    fun order horder ↦ ⟨horder.amount_lt, horder.batch_lt, fun found hfound hsame ↦ ?_⟩
  · rw [hget] at hfound
    rw [← Option.mem_some_iff.mp hfound]
    exact ⟨lt_of_le_of_lt hle hfits.available_lt, hbatch ▸ hfits.batch_lt⟩
  · rw [hget] at hfound
    obtain rfl := Option.mem_some_iff.mp hfound
    exact le_trans hvalue (horder.unfilled_le level hlevel (hbatch ▸ hsame))

end Side

namespace OrderBook

variable {book : OrderBook} {sold : Token} {tick : ℤ} {level left : Level}

theorem side_removeLevel (book : OrderBook) (sold : Token) (tick : ℤ) :
    (book.removeLevel sold tick).side sold = (book.side sold).withoutLevel tick :=
  TokenPair.get_set_self _ _ _

theorem side_replaceLevel (book : OrderBook) (sold : Token) (tick : ℤ) (left : Level) :
    (book.replaceLevel sold tick left).side sold = (book.side sold).withLevel tick left :=
  TokenPair.get_set_self _ _ _

/-- Using a level up takes what it offers off the claims, and adds the exact worth of what rests at
its tick. -/
theorem claims_removeLevel (h : book.Sound) (hlevel : book.level? sold tick = some level)
    (fee : ℕ) :
    (book.removeLevel sold tick).Sound ∧
      (book.removeLevel sold tick).claims sold fee ≤ book.claims sold fee + -level.available ∧
      (book.removeLevel sold tick).claims sold.other fee ≤ book.claims sold.other fee +
        (book.side sold).restingAt tick * Book.charge (Book.tickPrice tick) fee sold.other := by
  have hscaled := (book.side sold).scaled_withoutLevel tick
  have hsold := hscaled.claims_sold sold fee
  have hbought := hscaled.claims_bought sold fee
  rw [Side.availableAt_of_none ((book.side sold).get?_withoutLevel tick),
    Side.availableAt_of_get? hlevel] at hsold
  rw [sub_zero, mul_one] at hbought
  have hsoldLe : ((book.side sold).withoutLevel tick).claims sold sold fee ≤
      (book.side sold).claims sold sold fee + -level.available := by linarith
  exact ⟨h.setSide le_rfl ((h sold).withoutLevel tick), claims_setSide_le hsoldLe,
    claims_setSide_le hbought.le⟩

/-- Filling a level in part takes what it offers no more off the claims, and adds the exact worth of
the part of what rests at its tick that the new share says was taken. -/
theorem claims_replaceLevel (h : book.Sound) (left : Level)
    (hlevel : book.level? sold tick = some level) (hbatch : left.batch = level.batch)
    (hvalue : left.unfilled.value ≤ level.unfilled.value)
    (havailable : level.available * (left.unfilled.value / level.unfilled.value) ≤ left.available)
    (hle : left.available ≤ level.available) (fee : ℕ) :
    (book.replaceLevel sold tick left).Sound ∧
      (book.replaceLevel sold tick left).claims sold fee ≤
        book.claims sold fee + (left.available - level.available) ∧
      (book.replaceLevel sold tick left).claims sold.other fee ≤ book.claims sold.other fee +
        (book.side sold).restingAt tick * (1 - left.unfilled.value / level.unfilled.value) *
          Book.charge (Book.tickPrice tick) fee sold.other := by
  have hscaled := Side.scaled_withLevel hlevel hbatch hvalue havailable
  have hsold := hscaled.claims_sold sold fee
  have hbought := hscaled.claims_bought sold fee
  rw [Side.availableAt_of_get? ((book.side sold).get?_withLevel tick left),
    Side.availableAt_of_get? hlevel] at hsold
  have hsoldLe : ((book.side sold).withLevel tick left).claims sold sold fee ≤
      (book.side sold).claims sold sold fee + (left.available - level.available) := by linarith
  exact ⟨h.setSide le_rfl ((h sold).withLevel hlevel hbatch hvalue havailable hle),
    claims_setSide_le hsoldLe, claims_setSide_le hbought.le⟩

end OrderBook

end RangeBook
