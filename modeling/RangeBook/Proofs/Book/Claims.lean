import Mathlib
import RangeBook.Book.Basic
import RangeBook.Proofs.Book.Order
import RangeBook.Proofs.OrderedMap

/-!
# What a book of orders has to hold

A side of the book has to hold what its levels offer, what is owed to the owners of its orders and
the exact worth of what was filled of them (`Side.claims`). It is sound when no level offers less
than what rests at its tick (`Side.Sound`).

Two kinds of change make up all operations. Owners rewrite one order and what the level at its
tick offers (`Rewritten`); swaps scale what rests at one tick (`Scaled`). Both keep a side sound
and say what they do to its claims.
-/

set_option autoImplicit false
set_option relaxedAutoImplicit false

namespace RangeBook

attribute [local irreducible] tickSqrtPrice tickAt

/-! ### Levels of the same share -/

/-- What a level of a book keeps to: it offers an amount of 128 bits, and its batch was given
out. -/
structure Level.Fits (level : Level) (nextBatch : ℕ) : Prop where
  available_lt : level.available < twoPow 128
  batch_lt : level.batch < nextBatch

theorem Level.Fits.mono {level : Level} {nextBatch nextBatch' : ℕ} (h : level.Fits nextBatch)
    (hle : nextBatch ≤ nextBatch') : level.Fits nextBatch' :=
  ⟨h.available_lt, lt_of_lt_of_le h.batch_lt hle⟩

/-- A tick continues when its level keeps its batch and its share, or when a level of a new batch
is opened where there was none. -/
inductive Level.Continues (nextBatch : ℕ) : Option Level → Option Level → Prop
  | gone : Continues nextBatch none none
  | kept {level : Level} (available : ℕ) :
    Continues nextBatch (some level) (some { level with available })
  | opened {level : Level} (batch_eq : level.batch = nextBatch) :
    Continues nextBatch none (some level)

theorem Level.Continues.refl (nextBatch : ℕ) (level? : Option Level) :
    Level.Continues nextBatch level? level? := by
  cases level? with
  | none => exact .gone
  | some level => exact .kept level.available

namespace LimitOrder

variable {order : LimitOrder} {level? level'? : Option Level} {nextBatch nextBatch' : ℕ}

theorem resting_of_continues (h : Level.Continues nextBatch level? level'?)
    (hbatch : order.batch < nextBatch) : order.resting level'? = order.resting level? := by
  cases h with
  | gone => rfl
  | @kept level available =>
    by_cases hsame : level.batch = order.batch
    · rw [resting_of_eq hsame, @resting_of_eq order { level with available } hsame]
    · rw [resting_of_ne hsame, @resting_of_ne order { level with available } hsame]
  | opened hopened => exact resting_of_ne (by omega)

theorem Fits.of_continues (hfits : order.Fits level? nextBatch)
    (h : Level.Continues nextBatch level? level'?) (hle : nextBatch ≤ nextBatch') :
    order.Fits level'? nextBatch' := by
  refine ⟨hfits.amount_lt, lt_of_lt_of_le hfits.batch_lt hle, ?_⟩
  cases h with
  | gone => exact hfits.unfilled_le
  | @kept level available =>
    intro other hother hbatch
    obtain rfl := Option.mem_some_iff.mp hother
    exact hfits.unfilled_le level rfl hbatch
  | opened hopened =>
    intro level hlevel hbatch
    obtain rfl := Option.mem_some_iff.mp hlevel
    have hlt := hfits.batch_lt
    omega

end LimitOrder

/-! ### Sound sides and their claims -/

namespace Side

variable {side after : Side} {sold token : Token} {fee nextBatch nextBatch' : ℕ} {key : OrderKey}
  {tick : ℤ}

/-- The exact unfilled amount of an order of a side. -/
def restingOf (side : Side) (key : OrderKey) (order : LimitOrder) : ℚ :=
  order.resting (side.levels.get? key.tick)

/-- The exact unfilled amount of all orders at a tick. -/
def restingAt (side : Side) (tick : ℤ) : ℚ :=
  side.orders.total fun key order ↦ if key.tick = tick then side.restingOf key order else 0

/-- What is offered at a tick. -/
def availableAt (side : Side) (tick : ℤ) : ℚ :=
  side.levels.amountAt (fun _ level ↦ (level.available : ℚ)) tick

/-- What an order of a side has a claim to besides its unfilled amount. -/
def claimOf (side : Side) (sold token : Token) (fee : ℕ) (key : OrderKey) (order : LimitOrder) :
    ℚ :=
  order.claim (side.levels.get? key.tick) sold token (Book.tickPrice key.tick) fee

/-- All that a side has to hold of a token. -/
def claims (side : Side) (sold token : Token) (fee : ℕ) : ℚ :=
  (if token = sold then side.levels.total fun _ level ↦ (level.available : ℚ) else 0) +
    side.orders.total (side.claimOf sold token fee)

/-- What every side keeps to: no level offers less than what rests at its tick. -/
structure Sound (side : Side) (nextBatch : ℕ) : Prop where
  levels : ∀ tick level, side.levels.get? tick = some level → level.Fits nextBatch
  orders : ∀ key order, side.orders.get? key = some order →
    order.Fits (side.levels.get? key.tick) nextBatch
  resting_le : ∀ tick, side.restingAt tick ≤ side.availableAt tick

theorem availableAt_of_get? {level : Level} (h : side.levels.get? tick = some level) :
    side.availableAt tick = level.available := by
  rw [availableAt, OrderedMap.amountAt, h, Option.elim_some]

theorem availableAt_of_none (h : side.levels.get? tick = none) : side.availableAt tick = 0 := by
  rw [availableAt, OrderedMap.amountAt, h, Option.elim_none]

theorem restingAt_nonneg (side : Side) (tick : ℤ) : 0 ≤ side.restingAt tick := by
  refine OrderedMap.total_nonneg fun key order _ ↦ ?_
  split
  · exact order.resting_nonneg _
  · exact le_rfl

/-- What rests of one order is part of what rests at its tick. -/
theorem restingOf_le_restingAt (side : Side) {order : LimitOrder}
    (hget : side.orders.get? key = some order) :
    side.restingOf key order ≤ side.restingAt key.tick := by
  have hnonneg : ∀ other order, side.orders.get? other = some order →
      0 ≤ if other.tick = key.tick then side.restingOf other order else 0 := by
    intro other order _
    split
    · exact order.resting_nonneg _
    · exact le_rfl
  have hle := OrderedMap.le_total hnonneg hget
  rwa [if_pos rfl] at hle

theorem claims_nonneg (h : side.Sound nextBatch) : 0 ≤ side.claims sold token fee := by
  have horders : 0 ≤ side.orders.total (side.claimOf sold token fee) :=
    OrderedMap.total_nonneg fun key order hget ↦ LimitOrder.claim_nonneg (h.orders key order hget)
  have hlevels : 0 ≤ side.levels.total fun _ level ↦ (level.available : ℚ) :=
    OrderedMap.total_nonneg fun _ level _ ↦ Nat.cast_nonneg level.available
  unfold claims
  split
  · exact add_nonneg hlevels horders
  · exact add_nonneg le_rfl horders

/-! ### Writing an order -/

/-- A change of one order and of what the level at its tick offers. -/
structure Rewritten (side : Side) (nextBatch : ℕ) (key : OrderKey) (after : Side) : Prop where
  orders_eq : ∀ other, other ≠ key → after.orders.get? other = side.orders.get? other
  levels_eq : ∀ tick, tick ≠ key.tick → after.levels.get? tick = side.levels.get? tick
  continues : Level.Continues nextBatch (side.levels.get? key.tick) (after.levels.get? key.tick)

theorem Rewritten.continues_all (hw : side.Rewritten nextBatch key after) (tick : ℤ) :
    Level.Continues nextBatch (side.levels.get? tick) (after.levels.get? tick) := by
  by_cases htick : tick = key.tick
  · rw [htick]
    exact hw.continues
  · rw [hw.levels_eq tick htick]
    exact .refl _ _

/-- The other orders rest as before. -/
theorem Rewritten.restingOf_eq (hw : side.Rewritten nextBatch key after)
    (h : side.Sound nextBatch) {other : OrderKey} {order : LimitOrder}
    (hget : side.orders.get? other = some order) :
    after.restingOf other order = side.restingOf other order :=
  LimitOrder.resting_of_continues (hw.continues_all other.tick) (h.orders other order hget).batch_lt

/-- No more rests at any tick than its level offers, where the order that is written rests on no more
than is added for it. -/
theorem Rewritten.resting_le (hw : side.Rewritten nextBatch key after) (h : side.Sound nextBatch)
    (hresting : after.orders.amountAt after.restingOf key + side.availableAt key.tick ≤
      side.orders.amountAt side.restingOf key + after.availableAt key.tick) (tick : ℤ) :
    after.restingAt tick ≤ after.availableAt tick := by
  have htotal := OrderedMap.total_add_amountAt
    (fun key order ↦ if key.tick = tick then side.restingOf key order else 0)
    (fun key order ↦ if key.tick = tick then after.restingOf key order else 0) key
    hw.orders_eq fun other order _ hget ↦ by rw [hw.restingOf_eq h hget]
  have hbefore := h.resting_le tick
  unfold restingAt at hbefore ⊢
  by_cases htick : key.tick = tick
  · rw [← htick] at htotal hbefore ⊢
    have hat : ∀ side' : Side, side'.orders.amountAt
        (fun other order ↦ if other.tick = key.tick then side'.restingOf other order else 0) key =
          side'.orders.amountAt side'.restingOf key := by
      intro side'
      unfold OrderedMap.amountAt
      simp only [if_true]
    rw [hat side, hat after] at htotal
    linarith
  · have hat : ∀ side' : Side, side'.orders.amountAt
        (fun other order ↦ if other.tick = tick then side'.restingOf other order else 0) key =
          0 := by
      intro side'
      unfold OrderedMap.amountAt
      cases side'.orders.get? key <;> simp [htick]
    rw [hat side, hat after] at htotal
    have havailable : after.availableAt tick = side.availableAt tick := by
      unfold availableAt OrderedMap.amountAt
      rw [hw.levels_eq tick (Ne.symm htick)]
    linarith

/-- A side stays sound where the order that is written rests on no more than is added for it. -/
theorem Rewritten.sound (hw : side.Rewritten nextBatch key after) (h : side.Sound nextBatch)
    (hbatch : nextBatch ≤ nextBatch')
    (hlevel : ∀ level ∈ after.levels.get? key.tick, level.Fits nextBatch')
    (horder : ∀ order ∈ after.orders.get? key,
      order.Fits (after.levels.get? key.tick) nextBatch')
    (hresting : after.orders.amountAt after.restingOf key + side.availableAt key.tick ≤
      side.orders.amountAt side.restingOf key + after.availableAt key.tick) :
    after.Sound nextBatch' := by
  refine ⟨fun tick level hget ↦ ?_, fun other order hget ↦ ?_, hw.resting_le h hresting⟩
  · by_cases htick : tick = key.tick
    · rw [htick] at hget
      exact hlevel level hget
    · rw [hw.levels_eq tick htick] at hget
      exact (h.levels tick level hget).mono hbatch
  · by_cases hother : other = key
    · rw [hother] at hget ⊢
      exact horder order hget
    · rw [hw.orders_eq other hother] at hget
      exact (h.orders other order hget).of_continues (hw.continues_all other.tick) hbatch

/-- Writing an order changes the claims by its own and by what its level offers. -/
theorem Rewritten.claims_eq (hw : side.Rewritten nextBatch key after) (h : side.Sound nextBatch)
    (sold token : Token) (fee : ℕ) :
    after.claims sold token fee + side.orders.amountAt (side.claimOf sold token fee) key +
        (if token = sold then side.availableAt key.tick else 0) =
      side.claims sold token fee + after.orders.amountAt (after.claimOf sold token fee) key +
        (if token = sold then after.availableAt key.tick else 0) := by
  have horders := OrderedMap.total_add_amountAt (side.claimOf sold token fee)
    (after.claimOf sold token fee) key hw.orders_eq fun other order _ hget ↦ by
      have hresting := hw.restingOf_eq h hget
      unfold restingOf at hresting
      rw [claimOf, claimOf, LimitOrder.claim, LimitOrder.claim, hresting]
  have hlevels := OrderedMap.total_add_amountAt
    (fun _ level ↦ (level.available : ℚ)) (fun _ level ↦ (level.available : ℚ)) key.tick
    hw.levels_eq fun _ _ _ _ ↦ rfl
  unfold claims availableAt
  split <;> linarith

/-! ### Scaling what rests at a tick -/

/-- A side with a level written at a tick. -/
def withLevel (side : Side) (tick : ℤ) (level : Level) : Side :=
  { side with levels := side.levels.insert tick level }

/-- A side with the level at a tick taken out. -/
def withoutLevel (side : Side) (tick : ℤ) : Side :=
  { side with levels := side.levels.erase tick }

theorem get?_withLevel (side : Side) (tick : ℤ) (level : Level) :
    (side.withLevel tick level).levels.get? tick = some level :=
  OrderedMap.get?_insert_self _ _ _

theorem get?_withoutLevel (side : Side) (tick : ℤ) :
    (side.withoutLevel tick).levels.get? tick = none :=
  OrderedMap.get?_erase_self _ _

/-- A change of the level at a tick that scales what rests there, and offers no less. -/
structure Scaled (side : Side) (tick : ℤ) (ratio : ℚ) (after : Side) : Prop where
  orders_eq : after.orders = side.orders
  levels_eq : ∀ other, other ≠ tick → after.levels.get? other = side.levels.get? other
  resting_eq : ∀ order : LimitOrder, order.resting (after.levels.get? tick) =
    ratio * order.resting (side.levels.get? tick)
  available_ge : ratio * side.availableAt tick ≤ after.availableAt tick
  ratio_nonneg : 0 ≤ ratio
  ratio_le_one : ratio ≤ 1

variable {ratio : ℚ}

theorem Scaled.restingAt_eq (hs : side.Scaled tick ratio after) :
    after.restingAt tick = ratio * side.restingAt tick := by
  unfold restingAt
  rw [← OrderedMap.total_mul_left, hs.orders_eq]
  refine OrderedMap.total_congr fun key order _ ↦ ?_
  by_cases hkey : key.tick = tick
  · rw [if_pos hkey, if_pos hkey, restingOf, restingOf, hkey, hs.resting_eq]
  · rw [if_neg hkey, if_neg hkey, mul_zero]

theorem Scaled.restingOf_eq (hs : side.Scaled tick ratio after) {key : OrderKey}
    (hkey : key.tick ≠ tick) (order : LimitOrder) :
    after.restingOf key order = side.restingOf key order := by
  rw [restingOf, restingOf, hs.levels_eq key.tick hkey]

/-- A side stays sound where the level that is scaled fits. -/
theorem Scaled.sound (hs : side.Scaled tick ratio after) (h : side.Sound nextBatch)
    (hlevel : ∀ level ∈ after.levels.get? tick, level.Fits nextBatch)
    (hfits : ∀ order : LimitOrder, order.Fits (side.levels.get? tick) nextBatch →
      order.Fits (after.levels.get? tick) nextBatch) : after.Sound nextBatch := by
  refine ⟨fun other level hget ↦ ?_, fun key order hget ↦ ?_, fun other ↦ ?_⟩
  · by_cases hother : other = tick
    · rw [hother] at hget
      exact hlevel level hget
    · rw [hs.levels_eq other hother] at hget
      exact h.levels other level hget
  · rw [hs.orders_eq] at hget
    have hbefore := h.orders key order hget
    by_cases hkey : key.tick = tick
    · rw [hkey] at hbefore ⊢
      exact hfits order hbefore
    · rw [hs.levels_eq key.tick hkey]
      exact hbefore
  · have hbefore := h.resting_le other
    by_cases hother : other = tick
    · rw [hother] at hbefore ⊢
      rw [hs.restingAt_eq]
      exact le_trans (mul_le_mul_of_nonneg_left hbefore hs.ratio_nonneg) hs.available_ge
    · have hresting : after.restingAt other = side.restingAt other := by
        unfold restingAt
        rw [hs.orders_eq]
        refine OrderedMap.total_congr fun key order _ ↦ ?_
        by_cases hkey : key.tick = other
        · rw [if_pos hkey, if_pos hkey, hs.restingOf_eq (by rw [hkey]; exact hother)]
        · rw [if_neg hkey, if_neg hkey]
      rw [hresting, availableAt, OrderedMap.amountAt, hs.levels_eq other hother]
      exact hbefore

/-- Taking a level out scales what rests at its tick to nothing. -/
theorem scaled_withoutLevel (side : Side) (tick : ℤ) :
    side.Scaled tick 0 (side.withoutLevel tick) := by
  have hnone := side.get?_withoutLevel tick
  refine ⟨rfl, fun other hother ↦ OrderedMap.get?_erase_of_ne _ hother, fun order ↦ ?_, ?_, le_rfl,
    zero_le_one⟩
  · rw [hnone, LimitOrder.resting_none, zero_mul]
  · rw [zero_mul, availableAt_of_none hnone]

theorem Sound.withoutLevel (h : side.Sound nextBatch) (tick : ℤ) :
    (side.withoutLevel tick).Sound nextBatch := by
  have hnone := side.get?_withoutLevel tick
  refine (side.scaled_withoutLevel tick).sound h (fun level hlevel ↦ ?_) fun order hfits ↦ ?_
  · rw [hnone] at hlevel
    exact absurd hlevel (Option.not_mem_none level)
  · rw [hnone]
    exact ⟨hfits.amount_lt, hfits.batch_lt,
      fun level hlevel ↦ absurd hlevel (Option.not_mem_none level)⟩

/-- In the token sold, scaling changes the claims by what is offered. -/
theorem Scaled.claims_sold (hs : side.Scaled tick ratio after) (sold : Token) (fee : ℕ) :
    after.claims sold sold fee + side.availableAt tick =
      side.claims sold sold fee + after.availableAt tick := by
  have horders : after.orders.total (after.claimOf sold sold fee) =
      side.orders.total (side.claimOf sold sold fee) := by
    rw [hs.orders_eq]
    refine OrderedMap.total_congr fun key order _ ↦ ?_
    rw [claimOf, claimOf, LimitOrder.claim, LimitOrder.claim, if_pos rfl, if_pos rfl]
  have hlevels := OrderedMap.total_add_amountAt
    (fun _ level ↦ (level.available : ℚ)) (fun _ level ↦ (level.available : ℚ)) tick
    hs.levels_eq fun _ _ _ _ ↦ rfl
  unfold claims availableAt
  rw [if_pos rfl, if_pos rfl, horders]
  linarith

/-- In the token bought, scaling adds to the claims the exact worth of what it takes of what
rests. -/
theorem Scaled.claims_bought (hs : side.Scaled tick ratio after) (sold : Token) (fee : ℕ) :
    after.claims sold sold.other fee = side.claims sold sold.other fee +
      side.restingAt tick * (1 - ratio) * Book.charge (Book.tickPrice tick) fee sold.other := by
  have hne : sold.other ≠ sold := by cases sold <;> decide
  have hclaim : after.orders.total (after.claimOf sold sold.other fee) =
      side.orders.total (side.claimOf sold sold.other fee) +
        (1 - ratio) * Book.charge (Book.tickPrice tick) fee sold.other * side.restingAt tick := by
    rw [hs.orders_eq, restingAt, ← OrderedMap.total_mul_left, ← OrderedMap.total_add]
    refine OrderedMap.total_congr fun key order _ ↦ ?_
    rw [claimOf, claimOf, LimitOrder.claim, LimitOrder.claim, if_neg hne, if_neg hne]
    by_cases hkey : key.tick = tick
    · rw [if_pos hkey, restingOf, hkey, hs.resting_eq]
      ring
    · rw [if_neg hkey, hs.levels_eq key.tick hkey]
      ring
  unfold claims
  rw [if_neg hne, if_neg hne, hclaim]
  ring

/-- Taking a level out that offers nothing adds nothing to the claims. -/
theorem claims_withoutLevel_le (h : side.Sound nextBatch) (hempty : side.availableAt tick = 0)
    (sold token : Token) (fee : ℕ) :
    (side.withoutLevel tick).claims sold token fee ≤ side.claims sold token fee := by
  have hgone : (side.withoutLevel tick).availableAt tick = 0 :=
    availableAt_of_none (side.get?_withoutLevel tick)
  by_cases hsold : token = sold
  · have hclaims := (side.scaled_withoutLevel tick).claims_sold sold fee
    rw [hempty, hgone, add_zero, add_zero] at hclaims
    rw [hsold]
    exact hclaims.le
  · have hclaims := (side.scaled_withoutLevel tick).claims_bought sold fee
    have hnothing : side.restingAt tick = 0 :=
      le_antisymm (hempty ▸ h.resting_le tick) (side.restingAt_nonneg tick)
    rw [hnothing, zero_mul, zero_mul, add_zero] at hclaims
    rw [Token.eq_other_of_ne hsold]
    exact hclaims.le

theorem Sound.mono (h : side.Sound nextBatch) (hle : nextBatch ≤ nextBatch') :
    side.Sound nextBatch' :=
  ⟨fun tick level hget ↦ (h.levels tick level hget).mono hle,
    fun key order hget ↦ (h.orders key order hget).of_continues (.refl _ _) hle, h.resting_le⟩

end Side

/-! ### Books -/

namespace OrderBook

variable {book : OrderBook} {side : Side} {sold : Token} {nextBatch : ℕ}

/-- A book is sound when both its sides are. -/
def Sound (book : OrderBook) : Prop :=
  ∀ sold, (book.side sold).Sound book.nextBatch

/-- All that a book has to hold of a token. -/
def claims (book : OrderBook) (token : Token) (fee : ℕ) : ℚ :=
  (book.side .zero).claims .zero token fee + (book.side .one).claims .one token fee

theorem claims_nonneg (h : book.Sound) (token : Token) (fee : ℕ) : 0 ≤ book.claims token fee :=
  add_nonneg (Side.claims_nonneg (h .zero)) (Side.claims_nonneg (h .one))

/-- After a side is written, each side is that one or as it was before. -/
theorem side_setSide (book : OrderBook) (sold : Token) (side : Side) (nextBatch : ℕ)
    (token : Token) :
    (token = sold ∧ ({ book.setSide sold side with nextBatch } : OrderBook).side token = side) ∨
      (token = sold.other ∧
        ({ book.setSide sold side with nextBatch } : OrderBook).side token = book.side token) := by
  by_cases htoken : token = sold
  · rw [htoken]
    exact .inl ⟨rfl, TokenPair.get_set_self _ _ _⟩
  · rw [Token.eq_other_of_ne htoken]
    exact .inr ⟨rfl, TokenPair.get_set_other _ _ _⟩

theorem Sound.setSide (h : book.Sound) (hle : book.nextBatch ≤ nextBatch)
    (hside : side.Sound nextBatch) :
    ({ book.setSide sold side with nextBatch } : OrderBook).Sound := by
  intro token
  rcases book.side_setSide sold side nextBatch token with ⟨-, hset⟩ | ⟨-, hset⟩
  · rw [hset]
    exact hside
  · rw [hset]
    exact (h token).mono hle

/-- Writing a side changes the claims by those of the side. -/
theorem claims_setSide (book : OrderBook) (sold : Token) (side : Side) (token : Token) (fee : ℕ) :
    (book.setSide sold side).claims token fee + (book.side sold).claims sold token fee =
      book.claims token fee + side.claims sold token fee := by
  cases sold <;> simp only [claims, OrderBook.side, OrderBook.setSide, TokenPair.get, TokenPair.set]
    <;> ring

theorem claims_setSide_le {gain : ℚ} {token : Token} {fee : ℕ}
    (h : side.claims sold token fee ≤ (book.side sold).claims sold token fee + gain) :
    (book.setSide sold side).claims token fee ≤ book.claims token fee + gain := by
  have hbook := book.claims_setSide sold side token fee
  linarith

end OrderBook

end RangeBook
