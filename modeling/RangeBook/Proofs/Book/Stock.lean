import Mathlib
import RangeBook.Proofs.Book.Operations

/-!
# What the levels of a book offer

Every level offers something, and no more than the cap on it (`OrderBook.Stocked`). Each operation
on a book puts an amount into the levels of one side or takes one out (`OrderBook.Restocked`), and
leaves no level behind that offers nothing.

No more rests at a tick than is offered there, so what an owner takes out of an order is always
there to be taken out (`Side.Sound.amount_le_available`). A cancellation can fail for other reasons,
but not because the order or its level is missing or short (`cancel_noShortage`).
-/

set_option autoImplicit false
set_option relaxedAutoImplicit false

namespace RangeBook

attribute [local irreducible] tickSqrtPrice tickAt

/-! ### Sides -/

namespace Side

variable {side drained : Side} {tick : ℤ} {level : Level} {cap amount : ℕ}

/-- All that the levels of a side offer. -/
def offered (side : Side) : ℕ :=
  side.levels.total fun _ level ↦ level.available

/-- What is offered at a tick, as a natural number. -/
def stockAt (side : Side) (tick : ℤ) : ℕ :=
  side.levels.amountAt (fun _ level ↦ level.available) tick

theorem stockAt_of_get? (h : side.levels.get? tick = some level) :
    side.stockAt tick = level.available := by
  rw [stockAt, OrderedMap.amountAt, h, Option.elim_some]

theorem stockAt_of_none (h : side.levels.get? tick = none) : side.stockAt tick = 0 := by
  rw [stockAt, OrderedMap.amountAt, h, Option.elim_none]

theorem offered_withLevel (side : Side) (tick : ℤ) (level : Level) :
    (side.withLevel tick level).offered + side.stockAt tick = side.offered + level.available :=
  OrderedMap.total_insert _ _ _ _

theorem offered_withoutLevel (side : Side) (tick : ℤ) :
    (side.withoutLevel tick).offered + side.stockAt tick = side.offered :=
  OrderedMap.total_erase _ _ _

/-- Whether every level of a side offers something, and no more than a cap. -/
def Stocked (side : Side) (cap : ℕ) : Prop :=
  ∀ tick level, side.levels.get? tick = some level → 0 < level.available ∧ level.available ≤ cap

theorem Stocked.withLevel (h : side.Stocked cap) (tick : ℤ) {level : Level}
    (hlevel : 0 < level.available ∧ level.available ≤ cap) :
    (side.withLevel tick level).Stocked cap :=
  OrderedMap.forall_insert h hlevel

theorem Stocked.withoutLevel (h : side.Stocked cap) (tick : ℤ) :
    (side.withoutLevel tick).Stocked cap :=
  OrderedMap.forall_erase h

/-- Draining takes the amount out of what is offered, and the level with it where nothing is
left. -/
theorem stocked_of_drained (h : side.Stocked cap) (hdrained : side.Drained tick amount drained) :
    drained.Stocked cap ∧ drained.offered + amount = side.offered := by
  cases hdrained with
  | @gone level hlevel hamount =>
    have hstock := stockAt_of_get? hlevel
    have hoffered := side.offered_withoutLevel tick
    exact ⟨h.withoutLevel tick, by omega⟩
  | @smaller level hlevel hamount =>
    have hstock := stockAt_of_get? hlevel
    have hcap := (h tick level hlevel).2
    have hoffered := side.offered_withLevel tick
      { level with available := level.available - amount }
    dsimp only at hoffered
    exact ⟨h.withLevel tick ⟨Nat.sub_pos_of_lt hamount, le_trans (Nat.sub_le _ _) hcap⟩, by omega⟩

/-! ### Enough for every order -/

variable {nextBatch price fee : ℕ} {key : OrderKey} {sold : Token} {old settled : LimitOrder}

/-- What is left of a settled order is still offered by the level at its tick. -/
theorem Sound.amount_le_available (h : side.Sound nextBatch)
    (hold : side.orders.get? key = some old)
    (hsettled : LimitOrder.Settled old (side.levels.get? key.tick) sold price fee settled)
    (hleft : settled.amount ≠ 0) :
    ∃ level, side.levels.get? key.tick = some level ∧ settled.amount ≤ level.available := by
  obtain ⟨level, hlevel, -, -⟩ := hsettled.upToDate.resolve_left hleft
  refine ⟨level, hlevel, ?_⟩
  have hone := side.restingOf_le_restingAt hold
  have hall := h.resting_le key.tick
  rw [availableAt_of_get? hlevel] at hall
  have hamount : (settled.amount : ℚ) ≤ level.available :=
    le_trans (le_trans hsettled.amount_le hone) hall
  exact_mod_cast hamount

end Side

/-! ### Books -/

namespace OrderBook

variable {book between after : OrderBook} {side : Side} {sold : Token} {key : OrderKey} {tick : ℤ}
  {level : Level} {amount price fee cap added added' taken taken' nextBatch : ℕ}
  {requested paid : TokenPair ℕ}

/-- All that the levels on which a token is sold offer. -/
def offered (book : OrderBook) (sold : Token) : ℕ :=
  (book.side sold).offered

/-- Whether every level of a book offers something, and no more than a cap. -/
def Stocked (book : OrderBook) (cap : ℕ) : Prop :=
  ∀ sold, (book.side sold).Stocked cap

/-- A change of a book that puts an amount into the levels of one side and takes one out. -/
structure Restocked (book : OrderBook) (cap : ℕ) (sold : Token) (added taken : ℕ)
    (after : OrderBook) : Prop where
  stocked : after.Stocked cap
  offered_eq : after.offered sold + taken = book.offered sold + added
  other_eq : after.side sold.other = book.side sold.other

theorem Restocked.refl (h : book.Stocked cap) (sold : Token) : Restocked book cap sold 0 0 book :=
  ⟨h, rfl, rfl⟩

theorem Restocked.trans (h : Restocked book cap sold added taken between)
    (h' : Restocked between cap sold added' taken' after) :
    Restocked book cap sold (added + added') (taken + taken') after := by
  have hfirst := h.offered_eq
  have hsecond := h'.offered_eq
  exact ⟨h'.stocked, by omega, h'.other_eq.trans h.other_eq⟩

theorem Restocked.offered_other_eq (h : Restocked book cap sold added taken after) :
    after.offered sold.other = book.offered sold.other :=
  congrArg Side.offered h.other_eq

/-- Writing a side puts into its levels and takes out of them what the side does. -/
theorem restocked_setSide (h : book.Stocked cap) (hside : side.Stocked cap)
    (hoffered : side.offered + taken = (book.side sold).offered + added) :
    Restocked book cap sold added taken { book.setSide sold side with nextBatch } := by
  have hother : ({ book.setSide sold side with nextBatch } : OrderBook).side sold.other =
      book.side sold.other := TokenPair.get_set_other _ _ _
  have hself : ({ book.setSide sold side with nextBatch } : OrderBook).side sold = side :=
    TokenPair.get_set_self _ _ _
  refine ⟨fun token ↦ ?_, ?_, hother⟩
  · rcases book.side_setSide sold side nextBatch token with ⟨-, hset⟩ | ⟨-, hset⟩
    · rw [hset]
      exact hside
    · rw [hset]
      exact h token
  · rw [offered, hself]
    exact hoffered

/-- The level of a tick once it is open offers what was offered at the tick. -/
theorem available_of_openLevel (h : book.openLevel sold tick = .ok (level, nextBatch)) :
    level.available = (book.side sold).stockAt tick := by
  unfold openLevel level? at h
  split at h
  · rename_i found hfound
    obtain ⟨rfl, -⟩ := Prod.mk.inj (Except.ok.inj h)
    exact (Side.stockAt_of_get? hfound).symm
  · rename_i hnone
    obtain ⟨_, -, h⟩ := bind_eq_ok.mp h
    obtain ⟨rfl, -⟩ := Prod.mk.inj (Except.ok.inj h)
    exact (Side.stockAt_of_none hnone).symm

theorem restocked_of_place (h : book.Stocked cap) (hpos : 0 < amount)
    (hplace : book.place sold key amount price fee cap = .ok after) :
    Restocked book cap sold amount 0 after := by
  obtain ⟨level, nextBatch, settled, hopen, -, -, hcap, -, rfl⟩ := placed_of_place hplace
  have hstock := available_of_openLevel hopen
  have hoffered := (book.side sold).offered_withLevel key.tick
    { level with available := level.available + amount }
  dsimp only at hoffered
  refine restocked_setSide h ((h sold).withLevel key.tick ⟨?_, hcap⟩) ?_
  · exact Nat.add_pos_right _ hpos
  change ((book.side sold).withLevel key.tick _).offered + 0 = _
  omega

theorem restocked_of_cancel (h : book.Stocked cap)
    (hcancel : book.cancel sold key amount price fee = .ok (taken, after)) :
    Restocked book cap sold 0 taken after := by
  cases cancelled_of_cancel hcancel with
  | nothing => exact restocked_setSide h (h sold) rfl
  | something _ _ _ hdrained =>
    obtain ⟨hstocked, hoffered⟩ := Side.stocked_of_drained (h sold) hdrained
    exact restocked_setSide h hstocked hoffered

theorem restocked_of_collect (h : book.Stocked cap)
    (hcollect : book.collect sold key requested price fee = .ok (paid, after)) :
    Restocked book cap sold 0 0 after := by
  cases collected_of_collect hcollect with
  | nothing => exact .refl h sold
  | something => exact restocked_setSide h (h sold) rfl

theorem restocked_removeLevel (h : book.Stocked cap)
    (hlevel : book.level? sold tick = some level) :
    Restocked book cap sold 0 level.available (book.removeLevel sold tick) := by
  refine restocked_setSide h ((h sold).withoutLevel tick) ?_
  rw [← Side.stockAt_of_get? hlevel]
  exact (book.side sold).offered_withoutLevel tick

/-- A level that is filled in part, but not used up, offers less by what was taken. -/
theorem restocked_replaceLevel (h : book.Stocked cap)
    (hlevel : book.level? sold tick = some level) (left : Level) (taken : ℕ)
    (hleft : 0 < left.available) (htaken : left.available + taken = level.available) :
    Restocked book cap sold 0 taken (book.replaceLevel sold tick left) := by
  have hcap := (h sold tick level hlevel).2
  have hoffered := (book.side sold).offered_withLevel tick left
  have hstock := Side.stockAt_of_get? hlevel
  refine restocked_setSide h ((h sold).withLevel tick ⟨hleft, by omega⟩) ?_
  change ((book.side sold).withLevel tick left).offered + taken = _
  omega

end OrderBook

/-! ### Cancellations that fail -/

/-- Whether an operation fails because an order is missing, or holds less than it is asked for. -/
def Failure.IsShortage (failure : Failure) : Prop :=
  failure = .rejected .orderNotFound ∨ failure = .rejected .liquidityUnderflow

instance : DecidablePred Failure.IsShortage := fun _ ↦
  inferInstanceAs (Decidable (_ ∨ _))

/-- Settling does not look for anything else than the order and its level. -/
theorem LimitOrder.settle_noShortage (order : LimitOrder) (level? : Option Level) (sold : Token)
    (price fee : ℕ) : FailsOnly (¬·.IsShortage) (order.settle level? sold price fee) :=
  settle_failsOnly (by decide) (by decide) (by decide) fun _ _ _ _ ↦ by decide

namespace OrderBook

variable {book : OrderBook} {sold : Token} {key : OrderKey} {order : LimitOrder}

/-- An order that is in the book is found when it is cancelled, and so is what is left of it. So
cancelling fails only where settling does. -/
theorem cancel_failsOnly {allowed : Failure → Prop} {price fee : ℕ} (h : book.Sound)
    (horder : book.order? sold key = some order) (amount : ℕ)
    (hsettles : FailsOnly allowed
      (order.settle ((book.side sold).levels.get? key.tick) sold price fee)) :
    FailsOnly allowed (book.cancel sold key amount price fee) := by
  have hget : (book.side sold).orders.get? key = some order := horder
  unfold cancel
  refine .bind (.orReject fun hnone ↦ ?_) fun old hold ↦ ?_
  · rw [hget] at hnone
    exact absurd hnone (Option.some_ne_none order)
  obtain rfl := Option.some.inj (hget.symm.trans (orReject_eq_ok.mp hold))
  refine .bind hsettles fun settled hsettle ↦ ?_
  have hsettled := LimitOrder.settled_of_settle ((h sold).orders key order hget) hsettle
  dsimp only
  split
  · exact .pure _
  rename_i htaken
  have hleft : settled.amount ≠ 0 := by
    intro hzero
    rw [hzero, Nat.min_zero] at htaken
    exact htaken rfl
  obtain ⟨level, hlevel, havailable⟩ := (h sold).amount_le_available hget hsettled hleft
  refine .bind ?_ fun _ _ ↦ .pure _
  refine .bind (.orReject fun hnone ↦ ?_) fun found hfound ↦ ?_
  · rw [hlevel] at hnone
    exact absurd hnone (Option.some_ne_none level)
  obtain rfl := Option.some.inj (hlevel.symm.trans (orReject_eq_ok.mp hfound))
  refine .bind (.require fun hshort ↦ ?_) fun _ _ ↦ .pure _
  exact absurd (le_trans (min_le_right _ _) havailable) hshort

theorem cancel_noShortage (h : book.Sound) (horder : book.order? sold key = some order)
    (amount price fee : ℕ) :
    FailsOnly (¬·.IsShortage) (book.cancel sold key amount price fee) :=
  cancel_failsOnly h horder amount (order.settle_noShortage _ _ _ _)

end OrderBook

end RangeBook
