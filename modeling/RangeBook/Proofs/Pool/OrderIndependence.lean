import Mathlib
import RangeBook.Proofs.Book.Independence
import RangeBook.Proofs.Pool.Failure
import RangeBook.Proofs.Pool.OrderLiabilities

/-!
# Orders do not bear on each other

The owners of orders share the levels that their orders rest in. An owner who cancels the last of a
level takes it away from the tick, and one who places an order at an empty tick opens a new batch
there. None of this matters to the owner of another order (`orders_independent`): cancelling and
collecting end in the same way before and after, with the same amounts or the same failure, and leave
the order standing in the same way, or gone.

An operation on an order shows no more than the price of the tick, the fee of the pool and what the
book shows of the order (`seen_atOrderPrice`, `seen_congr`), and what the others do to the book keeps
the outlook of the order (`outlook?_of_other`).
-/

set_option autoImplicit false
set_option relaxedAutoImplicit false

namespace RangeBook

attribute [local irreducible] tickSqrtPrice tickAt

open LimitOrder (Standing)

/-- The owner of the order that a call is about. -/
def Call.orderOwner? : Call → Option Owner
  | .placeOrder _ key _ | .cancelOrder _ key _ | .collectOrder _ key _ => some key.owner
  | _ => none

namespace Pool

variable {pool after : Pool} {sold : Token} {key : OrderKey} {tick : ℤ} {owner : Owner} {call : Call}
  {brought : TokenPair ℤ}

/-! ### What the owner of an order sees -/

/-- How an order of a pool stands. -/
def standing? (pool : Pool) (sold : Token) (key : OrderKey) : Option Standing :=
  pool.book.standing? sold key

/-- What the owner of an order sees of an action on a pool: how it ends, and how the order stands in
the pool that it leaves behind. -/
def seen {α : Type} (sold : Token) (key : OrderKey) (action : Action Pool α) (pool : Pool) :
    Outcome α × Option Standing :=
  match action pool with
  | .ok value after => (.ok value, after.standing? sold key)
  | .error failure after => (.error failure, after.standing? sold key)

/-- What the owner of an order sees of an operation that shows something, where the order stands in a
given way before. -/
def reported {α : Type} (result : α → TokenPair ℕ) (standing? : Option Standing) :
    Outcome (α × Option Standing) → Outcome (TokenPair ℕ) × Option Standing
  | .ok (value, standing) => (.ok (result value), standing)
  | .error failure => (.error failure, standing?)

section AtOrderPrice

variable {α : Type} {operation : Pool → ℕ → Outcome (α × OrderBook)} {result : α → TokenPair ℕ}

/-- An operation on orders shows what the book shows, at the price of the tick. -/
theorem seen_atOrderPrice :
    seen sold key (atOrderPrice tick operation result) pool =
      reported result (pool.standing? sold key) (do
        require pool.IsOpen .notInitialized
        let price ← pool.orderPrice tick
        OrderBook.shown sold key <$> operation pool price) := by
  unfold seen atOrderPrice
  by_cases hopen : pool.IsOpen
  · rw [require, if_pos hopen, Action.bind_of_eq_ok (opened_eq_ok.mpr ⟨hopen, rfl, rfl⟩)]
    cases pool.orderPrice tick with
    | error failure =>
      rw [Action.bind_of_eq_error (Action.lift_eq_error.mpr ⟨rfl, rfl⟩)]
      rfl
    | ok price =>
      rw [Action.bind_of_eq_ok (Action.lift_eq_ok.mpr ⟨rfl, rfl⟩)]
      change _ = reported _ _ (OrderBook.shown sold key <$> operation pool price)
      cases operation pool price with
      | error failure => rfl
      | ok outcome => rfl
  · have hclosed : opened pool = .error (.rejected .notInitialized) pool := by
      unfold opened
      rw [Action.bind_of_eq_ok (Action.get_eq_ok.mpr ⟨rfl, rfl⟩), require, if_neg hopen]
      rfl
    rw [require, if_neg hopen, Action.bind_of_eq_error hclosed]
    rfl

/-- Where two pools differ in their books only, and the books show the same, an operation on orders
is seen to do the same. -/
theorem seen_congr {book : OrderBook}
    (hstanding : book.standing? sold key = pool.book.standing? sold key)
    (hshown : ∀ price, OrderBook.shown sold key <$> operation { pool with book } price =
      OrderBook.shown sold key <$> operation pool price) :
    seen sold key (atOrderPrice tick operation result) { pool with book } =
      seen sold key (atOrderPrice tick operation result) pool := by
  have hsame : ({ pool with book } : Pool).standing? sold key = pool.standing? sold key := hstanding
  rw [seen_atOrderPrice, seen_atOrderPrice, hsame]
  simp only [hshown]
  rfl

end AtOrderPrice

/-! ### What others do -/

theorem ne_of_owner_ne {other : OrderKey} (hne : owner ≠ key.owner) (howner : other.owner = owner) :
    key ≠ other := by
  rintro rfl
  exact hne howner.symm

/-- A call on an order of another owner leaves an order alone, in any pool. -/
theorem order?_of_other (hcall : call.orderOwner? = some owner) (hne : owner ≠ key.owner)
    (hfinished : Finished pool call brought after) (sold : Token) :
    after.book.order? sold key = pool.book.order? sold key := by
  cases hfinished with
  | orderPlaced _ _ _ hplace =>
    exact OrderBook.order?_of_place (ne_of_owner_ne hne (Option.some.inj hcall)) hplace sold
  | orderCancelled _ _ hcancel =>
    exact OrderBook.order?_of_cancel (ne_of_owner_ne hne (Option.some.inj hcall)) hcancel sold
  | orderCollected _ _ hcollect =>
    exact OrderBook.order?_of_collect (ne_of_owner_ne hne (Option.some.inj hcall)) hcollect sold
  | _ => exact absurd hcall (by simp [Call.orderOwner?])

theorem standing?_leaves_of_other (hcall : call.orderOwner? = some owner) (hne : owner ≠ key.owner)
    (sold : Token) : (call.leaves pool).standing? sold key = pool.standing? sold key := by
  cases hrun : call.run pool with
  | ok brought after =>
    rw [Call.leaves_of_ok hrun]
    exact congrArg (Option.map LimitOrder.standing)
      (order?_of_other hcall hne (Call.finished_of_run hrun) sold)
  | error failure after => rw [Call.leaves_of_error hrun]

/-- A call on an order of another owner changes the book only, and leaves the outlook of an order
alone. -/
theorem outlook?_of_other (h : pool.book.Sound) (hcall : call.orderOwner? = some owner)
    (hne : owner ≠ key.owner) (hfinished : Finished pool call brought after) :
    ∃ book, after = { pool with book } ∧ ∀ sold price fee,
      book.outlook? sold key price fee = pool.book.outlook? sold key price fee := by
  cases hfinished with
  | orderPlaced _ _ _ hplace =>
    have hother := ne_of_owner_ne hne (Option.some.inj hcall)
    exact ⟨_, rfl, OrderBook.outlook?_of_place h hother hplace⟩
  | orderCancelled _ hprice hcancel =>
    obtain rfl := orderPrice_eq hprice
    have hother := ne_of_owner_ne hne (Option.some.inj hcall)
    exact ⟨_, rfl, OrderBook.outlook?_of_cancel h hother hcancel⟩
  | orderCollected _ _ hcollect =>
    have hother := ne_of_owner_ne hne (Option.some.inj hcall)
    exact ⟨_, rfl, OrderBook.outlook?_of_collect h hother hcollect⟩
  | _ => exact absurd hcall (by simp [Call.orderOwner?])

/-! ### Independence -/

/-- Whatever another owner does with an order, at this tick or elsewhere, the owner of an order sees
the same of cancelling any part of it, and of collecting any amounts, before and after. Nor does the
other leave the order standing in another way when it comes second. -/
theorem orders_independent (h : pool.Reachable) (hcall : call.orderOwner? = some owner)
    (hne : owner ≠ key.owner) (hrun : call.run pool = .ok brought after) (sold : Token) :
    (∀ amount, seen sold key (cancelOrder sold key amount) after =
      seen sold key (cancelOrder sold key amount) pool) ∧
    (∀ requested, seen sold key (collectOrder sold key requested) after =
      seen sold key (collectOrder sold key requested) pool) ∧
    ∀ left : Pool, (call.leaves left).standing? sold key = left.standing? sold key := by
  have hfinished := Call.finished_of_run hrun
  have hbefore := h.sound_book
  have hafter := (h.of_run hrun).sound_book
  have hstanding : after.standing? sold key = pool.standing? sold key :=
    congrArg (Option.map LimitOrder.standing) (order?_of_other hcall hne hfinished sold)
  obtain ⟨book, rfl, houtlook⟩ := outlook?_of_other hbefore hcall hne hfinished
  refine ⟨fun amount ↦ ?_, fun requested ↦ ?_, fun left ↦ standing?_leaves_of_other hcall hne sold⟩
  · rw [cancelOrder_eq]
    refine seen_congr hstanding fun price ↦ ?_
    dsimp only
    rw [OrderBook.shown_cancel hafter, OrderBook.shown_cancel hbefore, houtlook]
  · rw [collectOrder_eq]
    refine seen_congr hstanding fun price ↦ ?_
    dsimp only
    rw [OrderBook.shown_collect, OrderBook.shown_collect, houtlook]

/-- An order that a swap filled completely. -/
def usedUpOrder : List Call := [
  .setFirstPrice q96,
  .placeOrder .one ⟨1, 0⟩ 7000,
  .swap ⟨.zero, 8000, minSqrtPrice + 1⟩]

/-- Another owner opens a new batch at the tick of the order that was filled. -/
theorem orders_independent_usedUpOrder :
    let reached := ((Ledger.start standard).enterAll usedUpOrder).pool
    let call : Call := .placeOrder .one ⟨2, 0⟩ 500
    (call.finishes reached ∧ reached.book.level? .one 0 = none ∧
      (call.leaves reached).book.level? .one 0 ≠ none) ∧
    seen .one ⟨1, 0⟩ (collectOrder .one ⟨1, 0⟩ ⟨5000, 0⟩) reached =
      (.ok ⟨5000, 0⟩, some ⟨0, ⟨2021, 0⟩⟩) ∧
    seen .one ⟨1, 0⟩ (collectOrder .one ⟨1, 0⟩ ⟨5000, 0⟩) (call.leaves reached) =
      (.ok ⟨5000, 0⟩, some ⟨0, ⟨2021, 0⟩⟩) := by
  intro reached call
  have hreachable : reached.Reachable := Ledger.reachable_enterAll _ (.created create_standard) _
  have hfinishes : call.finishes reached = true := by decide +kernel
  obtain ⟨brought, hrun⟩ := Call.run_of_finishes hfinishes
  obtain ⟨-, hcollect, -⟩ :=
    @orders_independent reached (call.leaves reached) ⟨1, 0⟩ 2 call brought hreachable rfl
      (by decide) hrun .one
  have hbefore : seen .one ⟨1, 0⟩ (collectOrder .one ⟨1, 0⟩ ⟨5000, 0⟩) reached =
      (.ok ⟨5000, 0⟩, some ⟨0, ⟨2021, 0⟩⟩) := by decide +kernel
  exact ⟨⟨hfinishes, by decide +kernel, by decide +kernel⟩, hbefore,
    (hcollect ⟨5000, 0⟩).trans hbefore⟩

end Pool

end RangeBook
