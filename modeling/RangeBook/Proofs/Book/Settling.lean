import Mathlib
import RangeBook.Fee
import RangeBook.Proofs.Book.Stock

/-!
# When an order can be settled

Taking note of the fills of an order works out whatever they were (`Fits.advance_eq_ok`): what was
filled is its amount less what rests of it, rounded up. But all fills since the order was settled
last are turned into one price and one fee (`worth`), and what comes out need not fit 256 bits where
each of the swaps that filled the order did. Settling finishes exactly where it fits
(`Fits.settle_finishes_iff`), and so do cancelling and collecting, for which nothing else is missing
(`cancel_finishes_iff`, `collect_finishes_iff`).
-/

set_option autoImplicit false
set_option relaxedAutoImplicit false

namespace RangeBook

attribute [local irreducible] tickSqrtPrice tickAt

/-! ### What fills are worth -/

namespace Book

/-- The cost of an amount bought, rounded down. -/
def wholeCost (bought price : ℕ) (paid : Token) : ℕ :=
  match paid with
  | .zero => bought * q96 / price
  | .one => bought * price / q96

variable {price amount result : ℕ} {paid : Token}

theorem wholeCost_zero_le (amount price : ℕ) : wholeCost amount price .zero ≤ amount * q96 :=
  Nat.div_le_self _ _

theorem wholeCost_le (hprice : price ≤ twoPow 224) (amount : ℕ) (paid : Token) :
    wholeCost amount price paid ≤ amount * twoPow 128 := by
  cases paid with
  | zero => exact le_trans (wholeCost_zero_le amount price) (Nat.mul_le_mul_left _ (by decide))
  | one =>
    refine Nat.div_le_of_le_mul ?_
    calc amount * price ≤ amount * twoPow 224 := Nat.mul_le_mul_left _ hprice
      _ = q96 * (amount * twoPow 128) := by rw [Nat.mul_left_comm]; rfl

/-- A cost that fits 256 bits can be worked out. -/
theorem costFloor_eq_ok_of_lt (hpos : 0 < price)
    (hwidth : wholeCost amount price paid < twoPow 256) :
    costFloor amount price paid = .ok (wholeCost amount price paid) := by
  cases paid with
  | zero => exact mulDivFloor_eq_ok.mpr ⟨hpos.ne', hwidth, rfl⟩
  | one => exact mulDivFloor_eq_ok.mpr ⟨(twoPow_pos 96).ne', hwidth, rfl⟩

/-- At the prices of ticks the cost of 128 bits fits. -/
theorem costFloor_eq_ok (hpos : 0 < price) (hprice : price ≤ twoPow 224)
    (hamount : amount < twoPow 128) (paid : Token) :
    costFloor amount price paid = .ok (wholeCost amount price paid) :=
  costFloor_eq_ok_of_lt hpos <|
    calc wholeCost amount price paid ≤ amount * twoPow 128 := wholeCost_le hprice amount paid
      _ < twoPow 128 * twoPow 128 := Nat.mul_lt_mul_of_pos_right hamount (twoPow_pos 128)
      _ = twoPow 256 := by decide

end Book

namespace LimitOrder

variable {order settled : LimitOrder} {level? : Option Level} {sold : Token}
  {price fee filled nextBatch : ℕ}

/-- What an order earns for an amount that was filled: its cost and the fee on top, both rounded
down. -/
def worth (filled : ℕ) (sold : Token) (price fee : ℕ) : ℕ :=
  Book.wholeCost filled price sold.other +
    Book.wholeCost filled price sold.other * fee / (feeDenominator - fee)

theorem worth_zero (sold : Token) (price fee : ℕ) : worth 0 sold price fee = 0 := by
  have hcost : Book.wholeCost 0 price sold.other = 0 := by
    cases sold <;> simp [Book.wholeCost, Token.other]
  rw [worth, hcost, Nat.zero_mul, Nat.zero_div]

/-- Earnings that fit 256 bits can be worked out, whatever the price. -/
theorem earnings_eq_ok (hpos : 0 < price) (hfee : fee < feeDenominator)
    (hworth : worth filled sold price fee < twoPow 256) :
    earnings filled sold price fee = .ok (worth filled sold price fee) := by
  have hrest := Nat.sub_pos_of_lt hfee
  have hcost := lt_of_le_of_lt (Nat.le_add_right _ _) hworth
  have hfees := lt_of_le_of_lt (Nat.le_add_left _ _) hworth
  exact bind_eq_ok.mpr ⟨_, Book.costFloor_eq_ok_of_lt hpos hcost, bind_eq_ok.mpr
    ⟨_, remainder_eq_ok.mpr ⟨hfee.le, rfl⟩, bind_eq_ok.mpr
      ⟨_, mulDivFloor_eq_ok.mpr ⟨hrest.ne', hfees, rfl⟩, within_eq_ok.mpr ⟨hworth, rfl⟩⟩⟩⟩

/-- At the prices of ticks earnings can be worked out exactly where they fit 256 bits. -/
theorem earnings_eq_ok_iff {earned : ℕ} (hpos : 0 < price) (hprice : price ≤ twoPow 224)
    (hfee : fee < feeDenominator) (hfilled : filled < twoPow 128) :
    earnings filled sold price fee = .ok earned ↔
      worth filled sold price fee < twoPow 256 ∧ earned = worth filled sold price fee := by
  have hcost := Book.costFloor_eq_ok hpos hprice hfilled sold.other
  constructor
  · intro h
    obtain ⟨bought, hbought, h⟩ := bind_eq_ok.mp h
    obtain ⟨rest, hremainder, h⟩ := bind_eq_ok.mp h
    obtain ⟨fees, hfees, h⟩ := bind_eq_ok.mp h
    obtain ⟨-, rfl⟩ := remainder_eq_ok.mp hremainder
    obtain ⟨-, -, rfl⟩ := mulDivFloor_eq_ok.mp hfees
    obtain rfl := Except.ok.inj (hcost.symm.trans hbought)
    obtain ⟨hwidth, rfl⟩ := within_eq_ok.mp h
    exact ⟨hwidth, rfl⟩
  · rintro ⟨hworth, rfl⟩
    exact earnings_eq_ok hpos hfee hworth

/-- Earnings are at most as many times the cost as the fee leaves parts of a whole. -/
theorem worth_le {parts : ℕ} (hfee : fee < feeDenominator)
    (hparts : feeDenominator ≤ parts * (feeDenominator - fee)) :
    worth filled sold price fee ≤ Book.wholeCost filled price sold.other * parts := by
  have hrest := Nat.sub_pos_of_lt hfee
  unfold worth
  generalize Book.wholeCost filled price sold.other = cost
  refine Nat.le_of_mul_le_mul_right ?_ hrest
  calc (cost + cost * fee / (feeDenominator - fee)) * (feeDenominator - fee)
      ≤ cost * (feeDenominator - fee) + cost * fee := by
        rw [Nat.add_mul]
        exact Nat.add_le_add_left (Nat.div_mul_le_self _ _) _
    _ = cost * feeDenominator := by
        rw [← Nat.mul_add, Nat.sub_add_cancel hfee.le]
    _ ≤ cost * parts * (feeDenominator - fee) := by
        rw [Nat.mul_assoc]
        exact Nat.mul_le_mul_left _ hparts

/-- What is earned for token one always fits. -/
theorem worth_sold_one_lt (hfee : fee < feeDenominator) (hfilled : filled < twoPow 128) :
    worth filled .one price fee < twoPow 256 := by
  have hparts : feeDenominator ≤ feeDenominator * (feeDenominator - fee) :=
    Nat.le_mul_of_pos_right _ (Nat.sub_pos_of_lt hfee)
  calc worth filled .one price fee ≤ Book.wholeCost filled price .zero * feeDenominator :=
        worth_le hfee hparts
    _ ≤ filled * q96 * feeDenominator := Nat.mul_le_mul_right _ (Book.wholeCost_zero_le _ _)
    _ ≤ twoPow 128 * q96 * feeDenominator :=
        Nat.mul_le_mul_right _ (Nat.mul_le_mul_right _ hfilled.le)
    _ < twoPow 256 := by decide

/-- What is earned fits where the fee leaves no smaller part of the whole than the cap leaves of
128 bits. -/
theorem worth_lt_of_le_cap {cap parts : ℕ} (hfee : fee < feeDenominator)
    (hparts : feeDenominator ≤ parts * (feeDenominator - fee)) (hprice : price ≤ twoPow 224)
    (hcap : parts * cap < twoPow 128) (hfilled : filled ≤ cap) :
    worth filled sold price fee < twoPow 256 := by
  calc worth filled sold price fee ≤ Book.wholeCost filled price sold.other * parts :=
        worth_le hfee hparts
    _ ≤ filled * twoPow 128 * parts := Nat.mul_le_mul_right _ (Book.wholeCost_le hprice _ _)
    _ ≤ cap * twoPow 128 * parts := Nat.mul_le_mul_right _ (Nat.mul_le_mul_right _ hfilled)
    _ = parts * cap * twoPow 128 := by ring
    _ < twoPow 128 * twoPow 128 := Nat.mul_lt_mul_of_pos_right hcap (twoPow_pos 128)
    _ = twoPow 256 := by decide

/-! ### Settling that finishes -/

/-- What was filled of an order since it was settled last: its amount less what rests of it, rounded
up. -/
def filledSince (order : LimitOrder) (level? : Option Level) : ℕ :=
  order.amount - ⌈order.resting level?⌉₊

theorem filledSince_le (order : LimitOrder) (level? : Option Level) :
    order.filledSince level? ≤ order.amount :=
  Nat.sub_le _ _

/-- The share of its batch that an order saw last, once it has taken note of its fills: the present
one, unless the batch is gone. -/
def lastSeen (order : LimitOrder) (level? : Option Level) : Share :=
  match level?.filter fun level ↦ level.batch == order.batch with
  | some level => level.unfilled
  | none => order.lastUnfilled

/-- An order that has taken note of its fills: what rests of it, rounded down. -/
def advanced (order : LimitOrder) (level? : Option Level) : LimitOrder :=
  { order with
    amount := ⌊order.resting level?⌋₊
    lastUnfilled := order.lastSeen level? }

/-- Taking note of the fills of an order finishes with what was filled. -/
theorem Fits.advance_eq_ok (h : order.Fits level? nextBatch) :
    order.advance level? = .ok (order.advanced level?, order.filledSince level?) := by
  have hwide : order.amount < twoPow 256 := lt_trans h.amount_lt (by decide)
  unfold advance
  split
  · rename_i level hlevel
    obtain ⟨hmem, hbatch⟩ := Option.filter_eq_some_iff.mp hlevel
    have hle := Share.value_le_value_iff.mp (h.unfilled_le level hmem (beq_iff_eq.mp hbatch))
    have hresting : order.resting level? =
        order.amount * (level.unfilled.value / order.lastUnfilled.value) := by
      rw [resting, hlevel]
    have hseen : order.lastSeen level? = level.unfilled := by rw [lastSeen, hlevel]
    have hportion := Share.portion_eq hwide hle
    rw [← hresting] at hportion
    have hfloor : ⌊order.resting level?⌋₊ < twoPow 128 :=
      lt_of_le_of_lt (Nat.floor_le_of_le (resting_le h)) h.amount_lt
    have hceiling : ⌈order.resting level?⌉₊ ≤ order.amount := Nat.ceil_le.mpr (resting_le h)
    refine bind_eq_ok.mpr ⟨_, hportion, ?_⟩
    refine bind_eq_ok.mpr ⟨_, remainder_eq_ok.mpr ⟨hceiling, rfl⟩, ?_⟩
    rw [wrap128_of_lt hfloor, advanced, hseen]
    rfl
  · rename_i hlevel
    have hresting : order.resting level? = 0 := by rw [resting, hlevel]
    have hseen : order.lastSeen level? = order.lastUnfilled := by rw [lastSeen, hlevel]
    rw [advanced, filledSince, hresting, hseen, Nat.floor_zero, Nat.ceil_zero, Nat.sub_zero]
    rfl

/-- Settling finishes exactly where what the order earned since it was settled last fits
256 bits. -/
theorem Fits.settle_finishes_iff (h : order.Fits level? nextBatch) (hpos : 0 < price)
    (hprice : price ≤ twoPow 224) (hfee : fee < feeDenominator) (sold : Token) :
    (∃ settled, order.settle level? sold price fee = .ok settled) ↔
      worth (order.filledSince level?) sold price fee < twoPow 256 := by
  have hfilled := lt_of_le_of_lt (order.filledSince_le level?) h.amount_lt
  unfold settle
  rw [h.advance_eq_ok]
  simp only [bind_eq_ok, Except.ok.injEq, exists_eq_left']
  split
  · rename_i hnothing
    rw [hnothing, worth_zero]
    exact iff_of_true ⟨_, rfl⟩ (twoPow_pos 256)
  · constructor
    · rintro ⟨settled, h⟩
      obtain ⟨earned, hearned, -⟩ := bind_eq_ok.mp h
      exact ((earnings_eq_ok_iff hpos hprice hfee hfilled).mp hearned).1
    · intro hworth
      have hearned : earnings (order.filledSince level?) sold price fee =
          .ok (worth (order.filledSince level?) sold price fee) :=
        (earnings_eq_ok_iff hpos hprice hfee hfilled).mpr ⟨hworth, rfl⟩
      exact ⟨_, bind_eq_ok.mpr ⟨_, hearned, rfl⟩⟩

end LimitOrder

/-! ### Cancelling and collecting -/

namespace OrderBook

variable {book : OrderBook} {sold : Token} {key : OrderKey} {order : LimitOrder} {price fee : ℕ}

/-- An order of a book can be cancelled exactly where it can be settled. -/
theorem cancel_finishes_iff (h : book.Sound) (horder : book.order? sold key = some order)
    (amount : ℕ) :
    (∃ result, book.cancel sold key amount price fee = .ok result) ↔
      ∃ settled, order.settle (book.level? sold key.tick) sold price fee = .ok settled := by
  have hget : (book.side sold).orders.get? key = some order := horder
  constructor
  · rintro ⟨⟨taken, after⟩, hcancel⟩
    cases cancelled_of_cancel hcancel with
    | nothing hold hsettle | something hold hsettle =>
      obtain rfl := Option.some.inj (hget.symm.trans hold)
      exact ⟨_, hsettle⟩
  · rintro ⟨settled, hsettle⟩
    exact (cancel_failsOnly h horder amount (.of_eq_ok hsettle)).exists_eq_ok

/-- What an order of a book is owed can be collected exactly where the order can be settled. -/
theorem collect_finishes_iff (horder : book.order? sold key = some order)
    (requested : TokenPair ℕ) :
    (∃ result, book.collect sold key requested price fee = .ok result) ↔
      ∃ settled, order.settle (book.level? sold key.tick) sold price fee = .ok settled := by
  have hget : (book.side sold).orders.get? key = some order := horder
  constructor
  · rintro ⟨⟨paid, after⟩, hcollect⟩
    cases collected_of_collect hcollect with
    | nothing hnone => exact absurd (hget.symm.trans hnone) (Option.some_ne_none order)
    | something hold hsettle =>
      obtain rfl := Option.some.inj (hget.symm.trans hold)
      exact ⟨_, hsettle⟩
  · rintro ⟨settled, hsettle⟩
    unfold collect
    dsimp only
    rw [hget]
    exact ⟨_, bind_eq_ok.mpr ⟨settled, hsettle, rfl⟩⟩

end OrderBook

end RangeBook
