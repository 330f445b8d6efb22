import Mathlib
import RangeBook.Proofs.Book.Owners
import RangeBook.Proofs.Book.Settling

/-!
# What an owner finds of an order

All orders at a tick are settled against the one level there, and whoever rests at the tick can open
the level, fill it up, drain it, and take it away with the last of it. An owner finds of an order
what is unfilled and what is owed (`LimitOrder.Standing`). What the order would show if it was
settled now is its `outlook?`, and cancelling and collecting show nothing else (`shown_cancel`,
`shown_collect`).

Settling reads the batch and the share of a level but not what it offers, and a level that offers
nothing holds nothing of any order (`Side.Sound.outlook?_withoutLevel`). So what another owner does
leaves an order and its outlook alone (`outlook?_of_place`, `outlook?_of_cancel`,
`outlook?_of_collect`).
-/

set_option autoImplicit false
set_option relaxedAutoImplicit false

namespace RangeBook

attribute [local irreducible] tickSqrtPrice tickAt

/-! ### How an order stands -/

namespace LimitOrder

/-- What an owner finds of an order: what is unfilled of it, and what is owed for it. -/
structure Standing where
  amount : ℕ
  owed : TokenPair ℕ
  deriving DecidableEq

namespace Standing

/-- How an order is found once it is kept: not at all where it is blank. -/
def kept (standing : Standing) : Option Standing :=
  if standing.amount = 0 ∧ standing.owed = .both 0 then none else some standing

/-- Takes an amount out of what is unfilled, and owes it to the owner. -/
def lessened (standing : Standing) (sold : Token) (taken : ℕ) : Standing :=
  if taken = 0 then standing
  else ⟨standing.amount - taken,
    standing.owed.set sold (wrap128 (standing.owed.get sold + taken))⟩

end Standing

/-- How an order stands. -/
def standing (order : LimitOrder) : Standing :=
  ⟨order.amount, order.owed⟩

variable {order : LimitOrder} {level? level'? : Option Level} {sold : Token}
  {price fee nextBatch : ℕ}

/-- Settling reads the batch and the share of the level, and a level of a batch that is yet to come
is not the one that an order rests in. -/
theorem settle_of_continues (h : Level.Continues nextBatch level? level'?)
    (hbatch : order.batch < nextBatch) :
    order.settle level'? sold price fee = order.settle level? sold price fee := by
  have hadvance : order.advance level'? = order.advance level? := by
    cases h with
    | gone => rfl
    | @kept level available =>
      by_cases hsame : level.batch = order.batch
      · simp [advance, Option.filter_some, hsame]
      · simp [advance, Option.filter_some, hsame]
    | @opened level hopened =>
      have hne : level.batch ≠ order.batch := by omega
      simp [advance, Option.filter_some, hne]
  unfold settle
  rw [hadvance]

/-- Nothing can have been filled of an order of which nothing is left. -/
theorem standing_settle_of_amount_eq_zero (hfits : order.Fits level? nextBatch)
    (hzero : order.amount = 0) :
    standing <$> order.settle level? sold price fee = .ok ⟨0, order.owed⟩ := by
  have hadvanced := hfits.advance_eq_ok
  have hfilled : order.filledSince level? = 0 := by
    have hle := order.filledSince_le level?
    omega
  obtain ⟨-, howed, hamount, -, -⟩ := advance_bounds hfits hadvanced
  rw [resting_of_amount_eq_zero hzero] at hamount
  have hnothing : (order.advanced level?).amount = 0 := Nat.le_zero.mp (by exact_mod_cast hamount)
  have hsettle : order.settle level? sold price fee = .ok (order.advanced level?) := by
    unfold settle
    rw [hadvanced, hfilled]
    rfl
  rw [hsettle, ← howed, ← hnothing]
  rfl

/-- Where nothing rests of an order, its level may go. -/
theorem standing_settle_none (hfits : order.Fits level? nextBatch)
    (hresting : order.resting level? = 0) :
    standing <$> order.settle none sold price fee =
      standing <$> order.settle level? sold price fee := by
  have hnone : order.Fits none nextBatch :=
    ⟨hfits.amount_lt, hfits.batch_lt, fun level hlevel ↦ absurd hlevel (Option.not_mem_none level)⟩
  by_cases hzero : order.amount = 0
  · rw [standing_settle_of_amount_eq_zero hnone hzero,
      standing_settle_of_amount_eq_zero hfits hzero]
  · -- The level is one of another batch, which settling passes over.
    have hother : level?.filter (·.batch == order.batch) = none := by
      cases hfound : level?.filter (·.batch == order.batch) with
      | none => rfl
      | some level =>
        have hratio := div_pos level.unfilled.value_pos order.lastUnfilled.value_pos
        have hamount : (order.amount : ℚ) ≠ 0 := Nat.cast_ne_zero.mpr hzero
        simp only [resting, hfound] at hresting
        exact absurd hresting (mul_ne_zero hamount hratio.ne')
    unfold settle advance
    rw [hother]
    rfl

end LimitOrder

open LimitOrder (Standing)

/-! ### Sides -/

namespace Side

variable {side after left : Side} {sold : Token} {key other : OrderKey} {order old settled : LimitOrder}
  {tick : ℤ} {price fee taken nextBatch : ℕ}

/-- How the order at a key stands once it is settled. -/
def outlook? (side : Side) (sold : Token) (key : OrderKey) (price fee : ℕ) :
    Option (Outcome Standing) :=
  (side.orders.get? key).map fun order ↦
    LimitOrder.standing <$> order.settle (side.levels.get? key.tick) sold price fee

theorem outlook?_of_get? (h : side.orders.get? key = some order) :
    side.outlook? sold key price fee =
      some (LimitOrder.standing <$> order.settle (side.levels.get? key.tick) sold price fee) := by
  rw [outlook?, h, Option.map_some]

theorem outlook?_of_none (h : side.orders.get? key = none) :
    side.outlook? sold key price fee = none := by
  rw [outlook?, h, Option.map_none]

/-- Two sides with the same order at a key, which settles to the same, have the same outlook. -/
theorem outlook?_congr (horders : after.orders.get? key = side.orders.get? key)
    (hsettle : ∀ order, side.orders.get? key = some order →
      LimitOrder.standing <$> order.settle (after.levels.get? key.tick) sold price fee =
        LimitOrder.standing <$> order.settle (side.levels.get? key.tick) sold price fee) :
    after.outlook? sold key price fee = side.outlook? sold key price fee := by
  cases hget : side.orders.get? key with
  | none => rw [outlook?_of_none hget, outlook?_of_none (horders.trans hget)]
  | some order =>
    rw [outlook?_of_get? hget, outlook?_of_get? (horders.trans hget), hsettle order hget]

/-- Writing one order, and what the level at its tick offers, leaves the others alone. -/
theorem Rewritten.outlook?_eq (hw : side.Rewritten nextBatch key after) (h : side.Sound nextBatch)
    (hne : other ≠ key) :
    after.outlook? sold other price fee = side.outlook? sold other price fee := by
  refine outlook?_congr (hw.orders_eq other hne) fun order hget ↦ ?_
  rw [LimitOrder.settle_of_continues (hw.continues_all other.tick)
    (h.orders other order hget).batch_lt]

/-- Taking out a level that offers nothing leaves all orders alone: nothing rests in it. -/
theorem Sound.outlook?_withoutLevel (h : side.Sound nextBatch) (hempty : side.availableAt tick = 0) :
    (side.withoutLevel tick).outlook? sold other price fee =
      side.outlook? sold other price fee := by
  refine outlook?_congr rfl fun order hget ↦ ?_
  by_cases htick : other.tick = tick
  · have hall := h.resting_le other.tick
    rw [htick, hempty, ← htick] at hall
    have hresting : order.resting (side.levels.get? other.tick) = 0 :=
      le_antisymm (le_trans (side.restingOf_le_restingAt hget) hall) (order.resting_nonneg _)
    have hgone : (side.withoutLevel tick).levels.get? other.tick = none := by
      rw [htick]
      exact side.get?_withoutLevel tick
    rw [hgone]
    exact LimitOrder.standing_settle_none (h.orders other order hget) hresting
  · have hsame : (side.withoutLevel tick).levels.get? other.tick = side.levels.get? other.tick :=
      OrderedMap.get?_erase_of_ne _ htick
    rw [hsame]

/-- Draining the level of a settled order for its owner leaves the other orders alone, also where
the level goes. -/
theorem Drained.outlook?_eq (hdrained : side.Drained key.tick taken left) (h : side.Sound nextBatch)
    (hold : side.orders.get? key = some old)
    (hsettled : LimitOrder.Settled old (side.levels.get? key.tick) sold
      (Book.tickPrice key.tick) fee settled)
    (htaken : taken ≤ settled.amount) (hne : other ≠ key) (token : Token) (price fee' : ℕ) :
    (left.keep key (settled.reduced sold taken)).outlook? token other price fee' =
      side.outlook? token other price fee' := by
  cases hdrained with
  | @gone level hlevel hamount =>
    -- First the level is lowered to nothing, and then it is taken out.
    have hrewritten := rewritten_lowered hlevel nextBatch (level.available - taken)
      (settled.reduced sold taken)
    obtain ⟨hsound, -⟩ := sound_of_lowered h hold hsettled hlevel htaken hamount.le
    have hempty : ((side.withLevel key.tick { level with
        available := level.available - taken }).keep key
          (settled.reduced sold taken)).availableAt key.tick = 0 := by
      rw [availableAt_lowered, hamount, Nat.sub_self, Nat.cast_zero]
    rw [← side.withoutLevel_keep key { level with available := level.available - taken },
      hsound.outlook?_withoutLevel hempty, hrewritten.outlook?_eq h hne]
  | smaller hlevel => exact (rewritten_lowered hlevel nextBatch _ _).outlook?_eq h hne

/-- How an order stands once it is kept. -/
theorem standing_keep (side : Side) (key : OrderKey) (order : LimitOrder) :
    ((side.keep key order).orders.get? key).map LimitOrder.standing = order.standing.kept := by
  by_cases hblank : order.IsBlank
  · have hkept : order.standing.kept = none := if_pos hblank
    have hgone : (side.keep key order).orders.get? key = none := by
      simp only [keep, if_pos hblank]
      exact OrderedMap.get?_erase_self _ _
    rw [hgone, hkept, Option.map_none]
  · have hkept : order.standing.kept = some order.standing := if_neg hblank
    have hthere : (side.keep key order).orders.get? key = some order := by
      simp only [keep, if_neg hblank]
      exact OrderedMap.get?_insert_self _ _ _
    rw [hthere, hkept, Option.map_some]

end Side

/-! ### Books -/

namespace OrderBook

variable {book after : OrderBook} {side : Side} {sold token : Token} {key other : OrderKey}
  {amount price fee cap taken : ℕ} {requested paid : TokenPair ℕ}

/-- How an order of a book stands. -/
def standing? (book : OrderBook) (sold : Token) (key : OrderKey) : Option Standing :=
  (book.order? sold key).map LimitOrder.standing

/-- How an order of a book stands once it is settled. -/
def outlook? (book : OrderBook) (sold : Token) (key : OrderKey) (price fee : ℕ) :
    Option (Outcome Standing) :=
  (book.side sold).outlook? sold key price fee

/-- What the owner of an order is shown of an operation: what it gives, and how the order stands
afterwards. -/
def shown {α : Type} (sold : Token) (key : OrderKey) (result : α × OrderBook) :
    α × Option Standing :=
  (result.1, result.2.standing? sold key)

theorem standing?_setSide_keep (book : OrderBook) (sold : Token) (side : Side) (key : OrderKey)
    (order : LimitOrder) :
    (book.setSide sold (side.keep key order)).standing? sold key = order.standing.kept := by
  have hside : (book.setSide sold (side.keep key order)).side sold = side.keep key order :=
    TokenPair.get_set_self _ _ _
  rw [standing?, order?, hside, side.standing_keep]

/-- Cancelling shows the outlook of an order, and takes out of it. -/
theorem shown_cancel (h : book.Sound) (sold : Token) (key : OrderKey) (amount price fee : ℕ) :
    shown sold key <$> book.cancel sold key amount price fee = (do
      let outlook ← orReject .orderNotFound (book.outlook? sold key price fee)
      let standing ← outlook
      let taken := min amount standing.amount
      return (taken, (standing.lessened sold taken).kept)) := by
  cases hget : (book.side sold).orders.get? key with
  | none =>
    rw [outlook?, Side.outlook?_of_none hget]
    simp only [cancel, hget]
    rfl
  | some old =>
    rw [outlook?, Side.outlook?_of_get? hget]
    cases hsettle : old.settle ((book.side sold).levels.get? key.tick) sold price fee with
    | error failure =>
      have hfails : book.cancel sold key amount price fee = .error failure := by
        simp only [cancel, hget]
        exact bind_eq_error.mpr (.inr ⟨old, rfl, bind_eq_error.mpr (.inl hsettle)⟩)
      rw [hfails]
      rfl
    | ok settled =>
      obtain ⟨⟨taken, after⟩, hcancel⟩ :=
        (cancel_finishes_iff h hget amount).mpr ⟨settled, hsettle⟩
      rw [hcancel]
      refine congrArg Except.ok (Prod.ext_iff.mpr ?_)
      cases cancelled_of_cancel hcancel with
      | nothing hold hsettle' htaken =>
        obtain rfl := Option.some.inj (hget.symm.trans hold)
        obtain rfl := Except.ok.inj (hsettle.symm.trans hsettle')
        have hzero : min amount settled.standing.amount = 0 := htaken
        rw [hzero, Standing.lessened, if_pos rfl]
        exact ⟨rfl, standing?_setSide_keep _ _ _ _ _⟩
      | something hold hsettle' htaken =>
        obtain rfl := Option.some.inj (hget.symm.trans hold)
        obtain rfl := Except.ok.inj (hsettle.symm.trans hsettle')
        have hne : min amount settled.standing.amount ≠ 0 := htaken
        rw [Standing.lessened, if_neg hne]
        exact ⟨rfl, standing?_setSide_keep _ _ _ _ _⟩

/-- Collecting shows the outlook of an order, and pays out of it. -/
theorem shown_collect (book : OrderBook) (sold : Token) (key : OrderKey)
    (requested : TokenPair ℕ) (price fee : ℕ) :
    shown sold key <$> book.collect sold key requested price fee =
      match book.outlook? sold key price fee with
      | none => .ok (.both 0, none)
      | some outlook => do
        let standing ← outlook
        let paid := requested.zipWith min standing.owed
        return (paid, Standing.kept { standing with owed := standing.owed.zipWith (· - ·) paid }) := by
  cases hget : (book.side sold).orders.get? key with
  | none =>
    have hstanding : book.standing? sold key = none := by rw [standing?, order?, hget]; rfl
    rw [outlook?, Side.outlook?_of_none hget]
    simp only [collect, hget]
    exact congrArg (fun standing ↦ Except.ok ((.both 0 : TokenPair ℕ), standing)) hstanding
  | some old =>
    rw [outlook?, Side.outlook?_of_get? hget]
    simp only [collect, hget]
    cases old.settle ((book.side sold).levels.get? key.tick) sold price fee with
    | error failure => rfl
    | ok settled =>
      exact congrArg (fun standing ↦ Except.ok (requested.zipWith min settled.owed, standing))
        (standing?_setSide_keep _ _ _ _ _)

/-! ### What others do -/

/-- Writing a side leaves an order alone where the side does. -/
theorem order?_setSide (hside : side.orders.get? other = (book.side sold).orders.get? other)
    (nextBatch : ℕ) (token : Token) :
    ({ book.setSide sold side with nextBatch } : OrderBook).order? token other =
      book.order? token other := by
  rcases book.side_setSide sold side nextBatch token with ⟨rfl, hset⟩ | ⟨-, hset⟩
  · rw [order?, order?, hset, hside]
  · rw [order?, order?, hset]

theorem outlook?_setSide (hside : ∀ token price fee, side.outlook? token other price fee =
      (book.side sold).outlook? token other price fee) (nextBatch : ℕ) (token : Token)
    (price fee : ℕ) :
    ({ book.setSide sold side with nextBatch } : OrderBook).outlook? token other price fee =
      book.outlook? token other price fee := by
  rcases book.side_setSide sold side nextBatch token with ⟨rfl, hset⟩ | ⟨-, hset⟩
  · rw [outlook?, outlook?, hset, hside]
  · rw [outlook?, outlook?, hset]

theorem order?_of_place (hne : other ≠ key)
    (hplace : book.place sold key amount price fee cap = .ok after) (token : Token) :
    after.order? token other = book.order? token other := by
  obtain ⟨level, nextBatch, settled, -, -, -, -, -, rfl⟩ := placed_of_place hplace
  exact order?_setSide (OrderedMap.get?_insert_of_ne _ _ hne) nextBatch token

theorem order?_of_cancel (hne : other ≠ key)
    (hcancel : book.cancel sold key amount price fee = .ok (taken, after)) (token : Token) :
    after.order? token other = book.order? token other := by
  cases cancelled_of_cancel hcancel with
  | nothing => exact order?_setSide (Side.orders_keep _ key _ hne) _ token
  | something _ _ _ hdrained =>
    refine order?_setSide ((Side.orders_keep _ key _ hne).trans ?_) _ token
    cases hdrained <;> rfl

theorem order?_of_collect (hne : other ≠ key)
    (hcollect : book.collect sold key requested price fee = .ok (paid, after)) (token : Token) :
    after.order? token other = book.order? token other := by
  cases collected_of_collect hcollect with
  | nothing => rfl
  | something => exact order?_setSide (Side.orders_keep _ key _ hne) _ token

theorem outlook?_of_place (h : book.Sound) (hne : other ≠ key)
    (hplace : book.place sold key amount price fee cap = .ok after) (token : Token)
    (price' fee' : ℕ) :
    after.outlook? token other price' fee' = book.outlook? token other price' fee' := by
  obtain ⟨level, nextBatch, settled, hopen, -, -, -, -, rfl⟩ := placed_of_place hplace
  have hrewritten := (opened_of_openLevel h hopen).rewritten_grown (settled.joining level) amount
  exact outlook?_setSide (fun _ _ _ ↦ hrewritten.outlook?_eq (h sold) hne) nextBatch _ _ _

theorem outlook?_of_cancel (h : book.Sound) (hne : other ≠ key)
    (hcancel : book.cancel sold key amount (Book.tickPrice key.tick) fee = .ok (taken, after))
    (token : Token) (price' fee' : ℕ) :
    after.outlook? token other price' fee' = book.outlook? token other price' fee' := by
  cases cancelled_of_cancel hcancel with
  | nothing =>
    have hrewritten := (book.side sold).rewritten_keep book.nextBatch key
    exact outlook?_setSide (fun _ _ _ ↦ (hrewritten _).outlook?_eq (h sold) hne) _ _ _ _
  | something hold hsettle _ hdrained =>
    have hsettled := LimitOrder.settled_of_settle ((h sold).orders key _ hold) hsettle
    exact outlook?_setSide (fun _ _ _ ↦
      hdrained.outlook?_eq (h sold) hold hsettled (min_le_right _ _) hne _ _ _) _ _ _ _

theorem outlook?_of_collect (h : book.Sound) (hne : other ≠ key)
    (hcollect : book.collect sold key requested price fee = .ok (paid, after)) (token : Token)
    (price' fee' : ℕ) :
    after.outlook? token other price' fee' = book.outlook? token other price' fee' := by
  cases collected_of_collect hcollect with
  | nothing => rfl
  | something =>
    have hrewritten := (book.side sold).rewritten_keep book.nextBatch key
    exact outlook?_setSide (fun _ _ _ ↦ (hrewritten _).outlook?_eq (h sold) hne) _ _ _ _

end OrderBook

end RangeBook
