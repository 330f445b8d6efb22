import Mathlib
import RangeBook.Proofs.Book.Price
import RangeBook.Proofs.Book.Settling
import RangeBook.Proofs.Pool.Failure
import RangeBook.Proofs.Pool.LiquidityRoom
import RangeBook.Proofs.Pool.OrderLiabilities

/-!
# When the owner of an order can leave

An order was placed when the pool was open, at a tick that has a price, and no more can be left of
it than the cap allows (`Reachable.ordersPlaceable`). So nothing stands in the way of its owner but
what the order earned since it was settled last, which has to fit 256 bits (`orders_settle`). It
always does where token one is sold, and where the fee leaves no smaller part of an amount than the
cap leaves of 128 bits. That is so for every fee up to 99 percent, whatever the tick spacing.

A higher fee with a high price can keep an order from ever being settled again: the earnings of many
fills together do not fit, though each swap that filled it did (`overfilled_stuck`).
-/

set_option autoImplicit false
set_option relaxedAutoImplicit false

namespace RangeBook

attribute [local irreducible] tickSqrtPrice tickAt

/-! ### What is left of orders -/

namespace OrderBook

variable {book between after : OrderBook} {side : Side} {sold token : Token} {key other : OrderKey}
  {order : LimitOrder} {amount price fee cap taken nextBatch : ℕ} {requested paid : TokenPair ℕ}

/-- Whether every order of a book was there before, with no less left of it. -/
def Lessened (book after : OrderBook) : Prop :=
  ∀ sold key order, after.order? sold key = some order →
    ∃ old, book.order? sold key = some old ∧ order.amount ≤ old.amount

theorem Lessened.refl (book : OrderBook) : book.Lessened book :=
  fun _ _ order horder ↦ ⟨order, horder, le_rfl⟩

theorem Lessened.of_orders_eq
    (h : ∀ sold, (after.side sold).orders = (book.side sold).orders) : book.Lessened after := by
  intro sold key order horder
  rw [order?, h] at horder
  exact ⟨order, horder, le_rfl⟩

/-- Writing a side lessens the orders of a book where it lessens those of the side. -/
theorem lessened_setSide (h : ∀ key order, side.orders.get? key = some order →
      ∃ old, book.order? sold key = some old ∧ order.amount ≤ old.amount) (nextBatch : ℕ) :
    book.Lessened { book.setSide sold side with nextBatch } := by
  intro token key order horder
  rcases book.side_setSide sold side nextBatch token with ⟨rfl, hset⟩ | ⟨rfl, hset⟩
  · rw [order?, hset] at horder
    exact h key order horder
  · rw [order?, hset] at horder
    exact ⟨order, horder, le_rfl⟩

/-- Keeping an order of which no more is left than there was lessens the orders of a side. -/
theorem lessened_keep {old : LimitOrder} (horders : side.orders = (book.side sold).orders)
    (hold : book.order? sold key = some old) (hle : order.amount ≤ old.amount) :
    book.Lessened (book.setSide sold (side.keep key order)) := by
  have hside : ∀ other found, side.orders.get? other = some found →
      ∃ old, book.order? sold other = some old ∧ found.amount ≤ old.amount := by
    intro other found hfound
    rw [horders] at hfound
    exact ⟨found, hfound, le_rfl⟩
  refine lessened_setSide ?_ book.nextBatch
  unfold Side.keep
  split
  · exact OrderedMap.forall_erase hside
  · exact OrderedMap.forall_insert hside ⟨old, hold, hle⟩

theorem lessened_of_cancel (h : book.Sound)
    (hcancel : book.cancel sold key amount price fee = .ok (taken, after)) :
    book.Lessened after := by
  have hamount : ∀ {old settled : LimitOrder}, book.order? sold key = some old →
      old.settle ((book.side sold).levels.get? key.tick) sold price fee = .ok settled →
        settled.amount ≤ old.amount := fun {old _} hold hsettle ↦
    (LimitOrder.settled_of_settle ((h sold).orders key old hold) hsettle).amount_le_amount
      ((h sold).orders key old hold)
  cases cancelled_of_cancel hcancel with
  | nothing hold hsettle => exact lessened_keep rfl hold (hamount hold hsettle)
  | something hold hsettle _ hdrained =>
    refine lessened_keep ?_ hold (le_trans (Nat.sub_le _ _) (hamount hold hsettle))
    cases hdrained <;> rfl

theorem lessened_of_collect (h : book.Sound)
    (hcollect : book.collect sold key requested price fee = .ok (paid, after)) :
    book.Lessened after := by
  cases collected_of_collect hcollect with
  | nothing => exact .refl book
  | @something old settled hold hsettle =>
    have hfits := (h sold).orders key old hold
    exact lessened_keep rfl hold
      ((LimitOrder.settled_of_settle hfits hsettle).amount_le_amount hfits)

/-- What is left of the order that rests in a level, as more is added to it, is no more than what
the level offers then. -/
theorem amount_of_place (h : book.Sound)
    (hplace : book.place sold key amount price fee cap = .ok after)
    (horder : after.order? token other = some order) :
    (token = sold ∧ other = key ∧ order.amount ≤ cap) ∨ book.order? token other = some order := by
  obtain ⟨level, nextBatch, settled, hopen, hsettle, -, hcap, -, rfl⟩ := placed_of_place hplace
  rcases book.side_setSide sold ((book.side sold).grown key level (settled.joining level) amount)
    nextBatch token with ⟨rfl, hset⟩ | ⟨rfl, hset⟩
  · rw [order?, hset] at horder
    by_cases hother : other = key
    · refine .inl ⟨rfl, hother, ?_⟩
      have hopened := opened_of_openLevel h hopen
      obtain ⟨old, hold, hfits, hold_eq⟩ := hopened.exists_holdsAt h
      rw [hold_eq] at hsettle
      have hsettled := LimitOrder.settled_of_settle hfits hsettle
      have hjoins := (hopened.joins hsettled).1
      have hwritten : order.amount = settled.amount + amount := by
        rw [hother] at horder
        rw [← Option.some.inj ((OrderedMap.get?_insert_self _ _ _).symm.trans horder), hjoins]
      have hleft : settled.amount ≤ level.available := by
        have hone : (settled.amount : ℚ) ≤ (book.side token).availableAt key.tick :=
          le_trans (hsettled.amount_le.trans hold.resting_le) ((h token).resting_le key.tick)
        rw [hopened.availableAt_eq] at hone
        exact_mod_cast hone
      omega
    · refine .inr ?_
      rw [← horder]
      exact (OrderedMap.get?_insert_of_ne _ _ hother).symm
  · rw [order?, hset] at horder
    exact .inr horder

end OrderBook

namespace Pool

variable {pool after : Pool} {sold : Token} {key : OrderKey} {order : LimitOrder} {tick : ℤ}
  {price : ℕ}

/-! ### Orders that could be placed -/

theorem ordersKept_applyStep (paid : Token) (pool : Pool) (step : SwapStep) :
    pool.book.OrdersKept paid (applyStep paid pool step).book := by
  cases step with
  | moved move =>
    have hbook : (applyStep paid pool (.moved move)).book = pool.book := by
      cases hcrossing : move.crossing? <;> simp only [applyStep, hcrossing]
    rw [hbook]
    exact .refl _ _
  | usedUp => exact OrderBook.ordersKept_setSide rfl
  | filledInPart => exact OrderBook.ordersKept_setSide rfl

/-- A swap leaves all orders as they are. -/
theorem ordersKept_applySwap (pool : Pool) (paid : Token) (plan : SwapPlan) :
    pool.book.OrdersKept paid (pool.applySwap paid plan).book := by
  change pool.book.OrdersKept paid (plan.steps.foldl (applyStep paid) pool).book
  induction plan.steps generalizing pool with
  | nil => exact .refl _ _
  | cons step steps ih => exact (ordersKept_applyStep paid pool step).trans (ih _)

/-- Whether every order of a pool could be placed: the pool is open, the tick has a price, and no
more is left of the order than may rest at a tick. -/
def OrdersPlaceable (pool : Pool) : Prop :=
  ∀ sold key order, pool.book.order? sold key = some order →
    pool.IsOpen ∧ (∃ price, pool.orderPrice key.tick = .ok price) ∧
      order.amount ≤ pool.liquidityCap

/-- The price of a tick does not depend on anything but the tick spacing. -/
theorem orderPrice_congr (h : after.tickSpacing = pool.tickSpacing) (tick : ℤ) :
    after.orderPrice tick = pool.orderPrice tick := by
  unfold orderPrice
  rw [h]

/-- A call that finishes keeps orders placeable: at most one order is new or has grown, and that one
was placed. -/
theorem OrdersPlaceable.of_finished (h : pool.OrdersPlaceable) (hbooks : pool.Bookkept)
    (hbook : pool.book.Sound) {call : Call} {brought : TokenPair ℤ}
    (hfinished : Finished pool call brought after) : after.OrdersPlaceable := by
  obtain ⟨-, hspacing, hcap⟩ := settings_of_finished hfinished
  have hopens : pool.IsOpen → after.IsOpen :=
    fun hopen ↦ isOpen_of_finished hbooks hopen hfinished
  have hlessened : pool.book.Lessened after.book → after.OrdersPlaceable := by
    intro hless sold key order horder
    obtain ⟨old, hold, hle⟩ := hless sold key order horder
    obtain ⟨hopen, hprice, hamount⟩ := h sold key old hold
    rw [orderPrice_congr hspacing, hcap]
    exact ⟨hopens hopen, hprice, le_trans hle hamount⟩
  by_cases htouches : call.TouchesBook
  · cases hfinished with
    | @swapped request plan =>
      exact hlessened (.of_orders_eq (ordersKept_applySwap pool request.paid plan).orders_eq)
    | orderCancelled _ _ hcancel => exact hlessened (OrderBook.lessened_of_cancel hbook hcancel)
    | orderCollected _ _ hcollect => exact hlessened (OrderBook.lessened_of_collect hbook hcollect)
    | @orderPlaced sold key amount price book hopen _ hprice hplace =>
      intro token other order horder
      rcases OrderBook.amount_of_place hbook hplace horder with ⟨-, rfl, hamount⟩ | hbefore
      · exact ⟨hopen, ⟨price, hprice⟩, hamount⟩
      · exact h token other order hbefore
    | _ => exact absurd htouches id
  · refine hlessened ?_
    rw [(claims_le_of_untouched hbooks htouches hfinished).1]
    exact .refl _

theorem Reachable.ordersPlaceable (h : pool.Reachable) : pool.OrdersPlaceable := by
  refine h.of_kept (fun hcreate sold key order horder ↦ ?_) fun hbefore hplaceable hfinished ↦
    hplaceable.of_finished hbefore.bookkept hbefore.sound_book hfinished
  rw [(create_eq_ok hcreate).2.2] at horder
  cases sold <;> exact absurd horder (Option.some_ne_none order).symm

/-! ### Prices of ticks -/

theorem pos_of_orderPrice (h : pool.orderPrice tick = .ok price) : 0 < price := by
  unfold orderPrice at h
  obtain ⟨_, -, h⟩ := bind_eq_ok.mp h
  obtain ⟨found, -, h⟩ := bind_eq_ok.mp h
  obtain ⟨_, hpos, h⟩ := bind_eq_ok.mp h
  rw [← Except.ok.inj h]
  exact Nat.pos_of_ne_zero (require_eq_ok.mp hpos)

/-- The price at which an order rests has 224 bits. -/
theorem orderPrice_le (h : pool.orderPrice tick = .ok price) : price ≤ twoPow 224 := by
  obtain ⟨_, -, h⟩ := bind_eq_ok.mp h
  obtain ⟨found, hfound, h⟩ := bind_eq_ok.mp h
  obtain ⟨_, -, h⟩ := bind_eq_ok.mp h
  rw [← Except.ok.inj h]
  exact Book.priceAt_le hfound

/-! ### Leaving -/

/-- What an order of a pool has earned since it was settled last. -/
def earnedSince (pool : Pool) (sold : Token) (key : OrderKey) (order : LimitOrder) : ℕ :=
  LimitOrder.worth (order.filledSince (pool.book.level? sold key.tick)) sold
    (Book.tickPrice key.tick) pool.fee

/-- Whether the fee of a pool leaves no smaller part of an amount than its cap leaves of 128 bits:
the part of one of its usable ticks. -/
def FeeLeavesRoom (pool : Pool) : Prop :=
  feeDenominator ≤ (2 * (maxTick.toNat / pool.tickSpacing) + 1) * (feeDenominator - pool.fee)

instance (pool : Pool) : Decidable pool.FeeLeavesRoom :=
  inferInstanceAs (Decidable (_ ≤ _))

/-- A fee of at most 99 percent leaves room, whatever the tick spacing. -/
theorem WithinCaps.feeLeavesRoom (h : pool.WithinCaps) (hfee : pool.fee ≤ 990000) :
    pool.FeeLeavesRoom := by
  have hticks : 54 ≤ maxTick.toNat / pool.tickSpacing := by
    rw [Nat.le_div_iff_mul_le h.spacing_pos]
    calc 54 * pool.tickSpacing ≤ 54 * maxTickSpacing := Nat.mul_le_mul_left 54 h.spacing_lt.le
      _ ≤ maxTick.toNat := by decide
  have hrest : 10000 ≤ feeDenominator - pool.fee := Nat.sub_le_sub_left hfee feeDenominator
  calc feeDenominator ≤ (2 * 54 + 1) * 10000 := by decide
    _ ≤ (2 * (maxTick.toNat / pool.tickSpacing) + 1) * (feeDenominator - pool.fee) :=
        Nat.mul_le_mul (by omega) hrest

/-- The owner of an order can cancel any part of it, and collect what is owed, exactly while what it
earned since it was settled last fits 256 bits. It always does where token one is sold, and in pools
whose fee leaves room. -/
theorem orders_settle (h : pool.Reachable) (horder : pool.book.order? sold key = some order) :
    (∀ amount, (∃ returned after, cancelOrder sold key amount pool = .ok returned after) ↔
      pool.earnedSince sold key order < twoPow 256) ∧
    (∀ requested, (∃ paid after, collectOrder sold key requested pool = .ok paid after) ↔
      pool.earnedSince sold key order < twoPow 256) ∧
    (sold = .one ∨ pool.FeeLeavesRoom → pool.earnedSince sold key order < twoPow 256) := by
  have hcaps := h.withinCaps
  have hfits := (h.sound_book sold).orders key order horder
  obtain ⟨hopen, ⟨price, hprice⟩, hamount⟩ := h.ordersPlaceable sold key order horder
  have hfee : pool.fee < feeDenominator := hcaps.fee_lt
  have hpos := pos_of_orderPrice hprice
  have hle := orderPrice_le hprice
  have heq := orderPrice_eq hprice
  have hsettles := hfits.settle_finishes_iff hpos hle hfee sold
  have hearned : pool.earnedSince sold key order =
      LimitOrder.worth (order.filledSince ((pool.book.side sold).levels.get? key.tick)) sold price
        pool.fee := by
    rw [earnedSince, heq]
    rfl
  have hfilled := order.filledSince_le ((pool.book.side sold).levels.get? key.tick)
  rw [hearned, ← hsettles]
  refine ⟨fun amount ↦ ?_, fun requested ↦ ?_, fun hroom ↦ ?_⟩
  · rw [cancelOrder_eq, atOrderPrice_finishes_iff hopen hprice]
    exact OrderBook.cancel_finishes_iff h.sound_book horder amount
  · rw [collectOrder_eq, atOrderPrice_finishes_iff hopen hprice]
    exact OrderBook.collect_finishes_iff horder requested
  · rw [hsettles]
    rcases hroom with rfl | hroom
    · exact LimitOrder.worth_sold_one_lt hfee (lt_of_le_of_lt hfilled hfits.amount_lt)
    · have hcap := (cap_spec hcaps.spacing_pos hcaps.spacing_lt hcaps.cap_eq).1
      exact LimitOrder.worth_lt_of_le_cap hfee hroom hle hcap (le_trans hfilled hamount)

/-- A run in which a swap fills a part of an order. -/
def partlyFilled : List Call := [
  .setFirstPrice q96,
  .placeOrder .zero ⟨1, 60⟩ 7000,
  .swap ⟨.one, 1000, maxSqrtPrice - 1⟩]

theorem orders_settle_partlyFilled :
    let reached := ((Ledger.start standard).enterAll partlyFilled).pool
    ∃ order, reached.book.order? .zero ⟨1, 60⟩ = some order ∧
      (∃ returned after, cancelOrder .zero ⟨1, 60⟩ 100 reached = .ok returned after) ∧
      ∃ paid after, collectOrder .zero ⟨1, 60⟩ ⟨0, 1000⟩ reached = .ok paid after := by
  intro reached
  have hreachable : reached.Reachable := Ledger.reachable_enterAll _ (.created create_standard) _
  have hroom := hreachable.withinCaps.feeLeavesRoom (by decide +kernel)
  have hsome : (reached.book.order? .zero ⟨1, 60⟩).isSome := by decide +kernel
  obtain ⟨order, horder⟩ := Option.isSome_iff_exists.mp hsome
  obtain ⟨hcancel, hcollect, hfits⟩ := orders_settle hreachable horder
  exact ⟨order, horder, (hcancel 100).mpr (hfits (.inr hroom)),
    (hcollect ⟨0, 1000⟩).mpr (hfits (.inr hroom))⟩

/-- A pool that charges all but a millionth of an input as its fee, before it is opened. -/
def steep : Pool :=
  { standard with fee := 999999 }

/-- A run in which three swaps fill parts of an order at a tick whose price has nearly 224 bits. The
fee on what each of them pays fits 256 bits, but that on all they pay together does not. -/
def overfilled : List Call := [
  .setFirstPrice (maxSqrtPrice - 1000),
  .placeOrder .zero ⟨1, 887220⟩ (twoPow 110),
  .swap ⟨.one, twoPow 255 - 1, maxSqrtPrice - 1⟩,
  .swap ⟨.one, twoPow 255 - 1, maxSqrtPrice - 1⟩,
  .swap ⟨.one, twoPow 255 - 1, maxSqrtPrice - 1⟩]

/-- The owner of the order can neither cancel it nor collect anything. -/
theorem overfilled_stuck :
    let reached := ((Ledger.start steep).enterAll overfilled).pool
    create 999999 60 = .ok steep ∧ (reached.book.order? .zero ⟨1, 887220⟩).isSome ∧
      (cancelOrder .zero ⟨1, 887220⟩ 0).leftover reached =
        some (.rejected .quotientOverflow, reached) ∧
      (collectOrder .zero ⟨1, 887220⟩ (.both 0)).leftover reached =
        some (.rejected .quotientOverflow, reached) := by
  decide +kernel

end Pool

end RangeBook
