import Mathlib
import RangeBook.Proofs.Pool.Run

/-!
# Calls that fail leave no trace

A call can fail after it has written something: a change of liquidity writes the lower boundary
tick of its range before it finds that the upper one has no room. Whatever the call and wherever
it fails, the pool is left as it was (`failed_call_leaves_pool`). So the calls that fail can be
struck from a run, and the ledger at its end is the same (`Ledger.enterAll_finishing`).

The calls on orders fail where the tick has no price, or where the book fails
(`placeOrder_failsOnly`, `atOrderPrice_failsOnly`), and in an open pool nowhere else
(`atOrderPrice_finishes_iff`).
-/

set_option autoImplicit false
set_option relaxedAutoImplicit false

namespace RangeBook

/-- How an action fails, and the state that it leaves behind. -/
def Action.leftover {σ α : Type} (action : Action σ α) (state : σ) : Option (Failure × σ) :=
  match action state with
  | .ok _ _ => none
  | .error failure after => some (failure, after)

namespace Ledger

/-- The calls of a sequence that finish when all of them are run one after the other. -/
def finishing : Ledger → List Call → List Call
  | _, [] => []
  | ledger, call :: calls =>
    if call.finishes ledger.pool then call :: finishing (ledger.enter call) calls
    else finishing (ledger.enter call) calls

/-- A run is the run of those of its calls that finish. -/
theorem enterAll_finishing (ledger : Ledger) (calls : List Call) :
    ledger.enterAll (ledger.finishing calls) = ledger.enterAll calls := by
  induction calls generalizing ledger with
  | nil => rfl
  | cons call calls ih =>
    change _ = (ledger.enter call).enterAll calls
    rw [finishing]
    split
    · exact ih (ledger.enter call)
    · rename_i hfails
      cases hrun : call.run ledger.pool with
      | ok brought after =>
        rw [Call.finishes, hrun] at hfails
        exact absurd rfl hfails
      | error failure after =>
        rw [enter_of_error hrun]
        exact ih ledger

end Ledger

namespace Pool

/-- A call that fails, for whatever cause and at whatever point, leaves the whole pool as it was. -/
theorem failed_call_leaves_pool {call : Call} {pool after : Pool} {failure : Failure}
    (h : call.run pool = .error failure after) : after = pool :=
  call.run_atomic pool failure after h

/-- A pool with a range whose ends have no room for more liquidity. -/
def fullRange : Pool :=
  ((Ledger.start standard).enterAll [
    .setFirstPrice q96,
    .addLiquidity ⟨1, -60, 60⟩ standard.liquidityCap]).pool

/-- Adding to a range that ends where the full one does: the boundary tick at its lower end is
written, there is no room at the upper one, and the lower one is gone again. -/
theorem failed_call_leaves_pool_fullRange :
    (stageChange ⟨2, -120, 60⟩ 1).leftover fullRange = some (.rejected .liquidityCap,
        { fullRange with ticks := fullRange.ticks.insert (-120) ⟨1, 1, .both 0⟩ }) ∧
      ∃ failure after, (Call.addLiquidity ⟨2, -120, 60⟩ 1).run fullRange = .error failure after ∧
        after = fullRange := by
  refine ⟨by decide +kernel, ?_⟩
  have hfails : (Call.addLiquidity ⟨2, -120, 60⟩ 1).finishes fullRange = false := by
    decide +kernel
  cases hrun : (Call.addLiquidity ⟨2, -120, 60⟩ 1).run fullRange with
  | ok brought after =>
    rw [Call.finishes, hrun] at hfails
    exact absurd hfails.symm Bool.false_ne_true
  | error failure after => exact ⟨failure, after, rfl, failed_call_leaves_pool hrun⟩

/-! ### Calls on orders -/

/-- How a tick can fail to have a price for orders. -/
def orderPriceFailures : List Failure := [
  .rejected .tickBelowMinimum, .rejected .tickAboveMaximum, .rejected .tickSpacingLimit,
  .rejected .tickOffSpacing, .rejected .tickOutOfRange, .rejected .quotientOverflow]

theorem orderPrice_failsOnly (pool : Pool) (tick : ℤ) :
    FailsOnly (· ∈ orderPriceFailures) (pool.orderPrice tick) := by
  unfold orderPrice
  refine .bind ?_ fun _ _ ↦ .bind ?_ fun _ _ ↦ ?_
  · unfold checkTick
    refine .bind (.require fun _ ↦ by decide) fun _ _ ↦ ?_
    refine .bind (.require fun _ ↦ by decide) fun _ _ ↦ ?_
    exact .bind (.require fun _ ↦ by decide) fun _ _ ↦ .require fun _ ↦ by decide
  · unfold Book.priceAt sqrtPriceAt
    refine .bind (.bind (.require fun _ ↦ by decide) fun _ _ ↦ .pure _) fun _ _ ↦ ?_
    exact .mulDivFloor (by decide)
  · exact .bind (.require fun _ ↦ by decide) fun _ _ ↦ .pure _

section

variable {allowed : Failure → Prop} {pool : Pool} {sold : Token} {key : OrderKey} {amount : ℕ}

theorem opened_failsOnly (hopen : ¬pool.IsOpen → allowed (.rejected .notInitialized)) :
    opened.FailsOnly allowed pool :=
  .get_bind (.bind (.lift (.require hopen)) fun _ _ _ ↦ .lift (.pure _))

theorem set_pure_failsOnly {α : Type} (written : Pool) (result : α) :
    Action.FailsOnly allowed (do set written; return result : Action Pool α) pool :=
  .set_bind (.pure result)

theorem placeOrder_failsOnly (hopen : allowed (.rejected .notInitialized))
    (hamount : allowed (.rejected .zeroMintAmount))
    (hprice : FailsOnly allowed (pool.orderPrice key.tick))
    (hplace : ∀ price,
      FailsOnly allowed (pool.book.place sold key amount price pool.fee pool.liquidityCap)) :
    (placeOrder sold key amount).FailsOnly allowed pool := by
  unfold placeOrder
  refine .bind (opened_failsOnly fun _ ↦ hopen) fun _ _ hopened ↦ ?_
  obtain ⟨-, rfl, rfl⟩ := opened_eq_ok.mp hopened
  refine .bind (.lift (.require fun _ ↦ hamount)) fun _ _ _ ↦ ?_
  refine .bind (.lift hprice) fun price _ _ ↦ ?_
  exact .bind (.lift (hplace price)) fun _ _ _ ↦ set_pure_failsOnly _ _

/-- An operation on the orders at a tick: an open pool runs it at the price of the tick and keeps
the book that it gives. -/
def atOrderPrice {α : Type} (tick : ℤ) (operation : Pool → ℕ → Outcome (α × OrderBook))
    (result : α → TokenPair ℕ) : Action Pool (TokenPair ℕ) := do
  let pool ← opened
  let price ← pool.orderPrice tick
  let (value, book) ← operation pool price
  set { pool with book }
  return result value

theorem cancelOrder_eq (sold : Token) (key : OrderKey) (amount : ℕ) :
    cancelOrder sold key amount = atOrderPrice key.tick
      (fun pool price ↦ pool.book.cancel sold key amount price pool.fee)
      fun taken ↦ .paired sold taken 0 :=
  rfl

theorem collectOrder_eq (sold : Token) (key : OrderKey) (requested : TokenPair ℕ) :
    collectOrder sold key requested = atOrderPrice key.tick
      (fun pool price ↦ pool.book.collect sold key requested price pool.fee) id :=
  rfl

section AtOrderPrice

variable {α : Type} {tick : ℤ} {operation : Pool → ℕ → Outcome (α × OrderBook)}
  {result : α → TokenPair ℕ}

theorem atOrderPrice_failsOnly (hopen : allowed (.rejected .notInitialized))
    (hprice : FailsOnly allowed (pool.orderPrice tick))
    (hoperation : ∀ price, FailsOnly allowed (operation pool price)) :
    (atOrderPrice tick operation result).FailsOnly allowed pool := by
  unfold atOrderPrice
  refine .bind (opened_failsOnly fun _ ↦ hopen) fun _ _ hopened ↦ ?_
  obtain ⟨-, rfl, rfl⟩ := opened_eq_ok.mp hopened
  refine .bind (.lift hprice) fun price _ _ ↦ ?_
  exact .bind (.lift (hoperation price)) fun _ _ _ ↦ set_pure_failsOnly _ _

/-- In an open pool an operation on orders whose tick has a price finishes where the book does. -/
theorem atOrderPrice_finishes_iff {price : ℕ} (hopen : pool.IsOpen)
    (hprice : pool.orderPrice tick = .ok price) :
    (∃ amounts after, atOrderPrice tick operation result pool = .ok amounts after) ↔
      ∃ outcome, operation pool price = .ok outcome := by
  constructor
  · rintro ⟨amounts, after, h⟩
    simp only [atOrderPrice, Action.bind_eq_ok, opened_eq_ok, Action.lift_eq_ok] at h
    obtain ⟨_, _, ⟨-, rfl, rfl⟩, found, _, ⟨hfound, rfl⟩, outcome, _, ⟨houtcome, rfl⟩, -⟩ := h
    obtain rfl := Except.ok.inj (hprice.symm.trans hfound)
    exact ⟨outcome, houtcome⟩
  · rintro ⟨outcome, houtcome⟩
    refine Action.FailsOnly.exists_eq_ok ?_
    unfold atOrderPrice
    refine .bind_of_eq_ok (opened_eq_ok.mpr ⟨hopen, rfl, rfl⟩) (.lift_bind hprice ?_)
    exact .lift_bind houtcome (set_pure_failsOnly _ _)

end AtOrderPrice

theorem cancelOrder_failsOnly (hopen : allowed (.rejected .notInitialized))
    (hprice : FailsOnly allowed (pool.orderPrice key.tick))
    (hcancel : ∀ price, FailsOnly allowed (pool.book.cancel sold key amount price pool.fee)) :
    (cancelOrder sold key amount).FailsOnly allowed pool := by
  rw [cancelOrder_eq]
  exact atOrderPrice_failsOnly hopen hprice hcancel

theorem collectOrder_failsOnly {requested : TokenPair ℕ}
    (hopen : allowed (.rejected .notInitialized))
    (hprice : FailsOnly allowed (pool.orderPrice key.tick))
    (hcollect : ∀ price, FailsOnly allowed (pool.book.collect sold key requested price pool.fee)) :
    (collectOrder sold key requested).FailsOnly allowed pool := by
  rw [collectOrder_eq]
  exact atOrderPrice_failsOnly hopen hprice hcollect

end

end Pool

end RangeBook
