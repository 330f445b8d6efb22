import Mathlib
import RangeBook.Proofs.Book.Claims
import RangeBook.Proofs.Failure

/-!
# How the operations of owners end

An operation that finishes has settled one order and written it back, and what else it has done is
one of few cases (`Placed`, `Cancelled`, `Collected`). Draining a level for an order leaves a
smaller level, or none (`Drained`).

Settling fails because a number does not fit, or because the level at the tick is less filled than
the order saw (`settle_failsOnly`).
-/

set_option autoImplicit false
set_option relaxedAutoImplicit false

namespace RangeBook

/-! ### Settling that fails -/

section

variable {allowed : Failure → Prop}

theorem Share.portion_failsOnly {amount : ℕ} {numerator denominator : Share}
    (hquotient : allowed (.rejected .quotientOverflow))
    (hwidth : allowed (.rejected .uint256Range))
    (hrange : ¬numerator ≤ denominator → allowed (.rejected .fractionOutOfRange)) :
    FailsOnly allowed (portion amount numerator denominator) := by
  refine .bind (.require hrange) fun _ _ ↦ ?_
  refine .bind (.orReject fun _ ↦ hquotient) fun floor _ ↦ ?_
  split
  · exact .pure _
  · exact .bind (.within fun _ ↦ hwidth) fun _ _ ↦ .pure _

theorem LimitOrder.earnings_failsOnly {filled : ℕ} {sold : Token} {price fee : ℕ}
    (haborted : allowed .aborted) (hquotient : allowed (.rejected .quotientOverflow))
    (hwidth : allowed (.rejected .uint256Range)) :
    FailsOnly allowed (earnings filled sold price fee) := by
  have hcost : FailsOnly allowed (Book.costFloor filled price sold.other) := by
    unfold Book.costFloor
    split
    · exact .mulDivFloor hquotient
    · exact .mulDivFloor hquotient
  refine .bind hcost fun _ _ ↦ .bind (.remainder haborted) fun _ _ ↦ ?_
  exact .bind (.mulDivFloor hquotient) fun _ _ ↦ .within fun _ ↦ hwidth

/-- Settling fails where a number does not fit, or where the level of the order is less filled than
the order saw. -/
theorem LimitOrder.settle_failsOnly {order : LimitOrder} {level? : Option Level} {sold : Token}
    {price fee : ℕ} (haborted : allowed .aborted)
    (hquotient : allowed (.rejected .quotientOverflow))
    (hwidth : allowed (.rejected .uint256Range))
    (hrange : ∀ level ∈ level?, level.batch = order.batch → ¬level.unfilled ≤ order.lastUnfilled →
      allowed (.rejected .fractionOutOfRange)) :
    FailsOnly allowed (order.settle level? sold price fee) := by
  have hadvance : FailsOnly allowed (order.advance level?) := by
    unfold advance
    split
    · rename_i level hlevel
      obtain ⟨hmem, hbatch⟩ := Option.filter_eq_some_iff.mp hlevel
      refine .bind (Share.portion_failsOnly hquotient hwidth ?_) fun _ _ ↦ ?_
      · exact hrange level hmem (beq_iff_eq.mp hbatch)
      · exact .bind (.remainder haborted) fun _ _ ↦ .pure _
    · exact .pure _
  refine .bind hadvance fun _ _ ↦ ?_
  dsimp only
  split
  · exact .pure _
  · exact .bind (earnings_failsOnly haborted hquotient hwidth) fun _ _ ↦ .pure _

end

/-! ### What is written -/

namespace LimitOrder

/-- A settled order as more is added to it: where nothing is left of it, it joins the level. -/
def joining (settled : LimitOrder) (level : Level) : LimitOrder :=
  if settled.amount = 0 then
    { settled with batch := level.batch, lastUnfilled := level.unfilled }
  else settled

/-- A settled order that an amount is taken out of and owed to the owner. -/
def reduced (settled : LimitOrder) (sold : Token) (taken : ℕ) : LimitOrder :=
  LimitOrder.credit { settled with amount := settled.amount - taken } sold taken

theorem fits_reduced {settled : LimitOrder} {level? : Option Level} {nextBatch : ℕ}
    (h : settled.Fits level? nextBatch) (sold : Token) (taken : ℕ) :
    (settled.reduced sold taken).Fits level? nextBatch :=
  ⟨lt_of_le_of_lt (Nat.sub_le _ _) h.amount_lt, h.batch_lt, h.unfilled_le⟩

end LimitOrder

namespace Side

variable {side drained : Side} {tick : ℤ} {amount : ℕ}

/-- A side after an amount is added to a level and to an order. -/
def grown (side : Side) (key : OrderKey) (level : Level) (order : LimitOrder) (amount : ℕ) : Side where
  levels := side.levels.insert key.tick { level with available := level.available + amount }
  orders := side.orders.insert key { order with amount := order.amount + amount }

/-- What draining a level does: it is gone where nothing is left of it. -/
inductive Drained (side : Side) (tick : ℤ) (amount : ℕ) : Side → Prop
  | gone {level : Level} (level_eq : side.levels.get? tick = some level)
    (amount_eq : amount = level.available) : Drained side tick amount (side.withoutLevel tick)
  | smaller {level : Level} (level_eq : side.levels.get? tick = some level)
    (amount_lt : amount < level.available) :
    Drained side tick amount
      (side.withLevel tick { level with available := level.available - amount })

theorem drained_of_drain (h : side.drain tick amount = .ok drained) :
    side.Drained tick amount drained := by
  unfold drain at h
  obtain ⟨level, hlevel, h⟩ := bind_eq_ok.mp h
  obtain ⟨_, hamount, h⟩ := bind_eq_ok.mp h
  rw [orReject_eq_ok] at hlevel
  rw [require_eq_ok] at hamount
  obtain rfl := Except.ok.inj h
  by_cases hempty : level.available - amount = 0
  · rw [if_pos hempty]
    exact .gone hlevel (by omega)
  · rw [if_neg hempty]
    exact .smaller hlevel (by omega)

end Side

/-! ### Operations that finish -/

namespace OrderBook

variable {book after : OrderBook} {sold : Token} {key : OrderKey} {amount price fee cap taken : ℕ}
  {requested paid : TokenPair ℕ}

/-- What placing an order does, given the level that it rests in, the batch that the next new level
gets and the order once it is settled. -/
structure Placed (book : OrderBook) (sold : Token) (key : OrderKey) (amount price fee cap : ℕ)
    (level : Level) (nextBatch : ℕ) (settled : LimitOrder) (after : OrderBook) : Prop where
  open_eq : book.openLevel sold key.tick = .ok (level, nextBatch)
  settle_eq : (((book.side sold).orders.get? key).getD (.blank level)).settle
    ((book.side sold).levels.get? key.tick) sold price fee = .ok settled
  available_lt : level.available + amount < twoPow 128
  available_le : level.available + amount ≤ cap
  amount_lt : (settled.joining level).amount + amount < twoPow 128
  book_eq : after = { book.setSide sold
    ((book.side sold).grown key level (settled.joining level) amount) with nextBatch }

theorem placed_of_place (h : book.place sold key amount price fee cap = .ok after) :
    ∃ level nextBatch settled,
      Placed book sold key amount price fee cap level nextBatch settled after := by
  unfold place at h
  obtain ⟨⟨level, nextBatch⟩, hopen, h⟩ := bind_eq_ok.mp h
  obtain ⟨settled, hsettle, h⟩ := bind_eq_ok.mp h
  obtain ⟨_, hwidth, h⟩ := bind_eq_ok.mp h
  obtain ⟨_, hcap, h⟩ := bind_eq_ok.mp h
  obtain ⟨_, hamount, h⟩ := bind_eq_ok.mp h
  rw [require_eq_ok] at hwidth hcap hamount
  exact ⟨level, nextBatch, settled, hopen, hsettle, hwidth, hcap, hamount, (Except.ok.inj h).symm⟩

/-- What cancelling an order does: nothing is taken out of it, or something is taken out of it and
of its level. -/
inductive Cancelled (book : OrderBook) (sold : Token) (key : OrderKey) (amount price fee : ℕ) :
    ℕ → OrderBook → Prop
  | nothing {old settled : LimitOrder} (order_eq : (book.side sold).orders.get? key = some old)
    (settle_eq : old.settle ((book.side sold).levels.get? key.tick) sold price fee = .ok settled)
    (taken_eq : min amount settled.amount = 0) :
    Cancelled book sold key amount price fee 0
      (book.setSide sold ((book.side sold).keep key settled))
  | something {old settled : LimitOrder} {left : Side}
    (order_eq : (book.side sold).orders.get? key = some old)
    (settle_eq : old.settle ((book.side sold).levels.get? key.tick) sold price fee = .ok settled)
    (taken_ne : min amount settled.amount ≠ 0)
    (drained : (book.side sold).Drained key.tick (min amount settled.amount) left) :
    Cancelled book sold key amount price fee (min amount settled.amount)
      (book.setSide sold (left.keep key (settled.reduced sold (min amount settled.amount))))

theorem cancelled_of_cancel (h : book.cancel sold key amount price fee = .ok (taken, after)) :
    Cancelled book sold key amount price fee taken after := by
  unfold cancel at h
  obtain ⟨old, hold, h⟩ := bind_eq_ok.mp h
  obtain ⟨settled, hsettle, h⟩ := bind_eq_ok.mp h
  rw [orReject_eq_ok] at hold
  dsimp only at h
  split at h
  · rename_i hnothing
    obtain ⟨rfl, rfl⟩ := Prod.mk.inj (Except.ok.inj h)
    exact .nothing hold hsettle hnothing
  · rename_i hsomething
    obtain ⟨left, hdrain, h⟩ := bind_eq_ok.mp h
    obtain ⟨rfl, rfl⟩ := Prod.mk.inj (Except.ok.inj h)
    exact .something hold hsettle hsomething (Side.drained_of_drain hdrain)

/-- What collecting does: there is no order, or it is kept with what is still owed. -/
inductive Collected (book : OrderBook) (sold : Token) (key : OrderKey) (requested : TokenPair ℕ)
    (price fee : ℕ) : TokenPair ℕ → OrderBook → Prop
  | nothing (order_eq : (book.side sold).orders.get? key = none) :
    Collected book sold key requested price fee (.both 0) book
  | something {old settled : LimitOrder} (order_eq : (book.side sold).orders.get? key = some old)
    (settle_eq : old.settle ((book.side sold).levels.get? key.tick) sold price fee = .ok settled) :
    Collected book sold key requested price fee (requested.zipWith min settled.owed)
      (book.setSide sold ((book.side sold).keep key { settled with
        owed := settled.owed.zipWith (· - ·) (requested.zipWith min settled.owed) }))

theorem collected_of_collect (h : book.collect sold key requested price fee = .ok (paid, after)) :
    Collected book sold key requested price fee paid after := by
  unfold collect at h
  dsimp only at h
  split at h
  · rename_i hnone
    obtain ⟨rfl, rfl⟩ := Prod.mk.inj (Except.ok.inj h)
    exact .nothing hnone
  · rename_i old hold
    obtain ⟨settled, hsettle, h⟩ := bind_eq_ok.mp h
    obtain ⟨rfl, rfl⟩ := Prod.mk.inj (Except.ok.inj h)
    exact .something hold hsettle

end OrderBook

end RangeBook
