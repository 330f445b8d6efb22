import Mathlib
import RangeBook.Pool.Limit
import RangeBook.Pool.Protocol
import RangeBook.Pool.Swap
import RangeBook.Proofs.Pool.Range
import RangeBook.Proofs.Swap.Course

/-!
# Runs of a pool

A `Call` is an operation on a pool with its arguments, and running it gives what it brings to the
pool in each token: positive where it is paid in and negative where it is paid out. A call that
fails leaves the pool as it was (`Call.run_atomic`) and moves nothing.

A `Ledger` is a pool together with all that was taken in and paid out since it was created, and
entering a sequence of calls one after the other makes a run. What holds of new pools and is kept
by each call that finishes holds of every pool that is reached (`Pool.Reachable.of_kept`).
-/

set_option autoImplicit false
set_option relaxedAutoImplicit false

namespace RangeBook

/-- Amounts that are paid to a pool, as changes of what it holds. -/
def TokenPair.paidIn (amounts : TokenPair Nat) : TokenPair Int :=
  amounts.map fun amount : Nat ↦ (amount : Int)

/-- Amounts that are given out by a pool, as changes of what it holds. -/
def TokenPair.givenOut (amounts : TokenPair Nat) : TokenPair Int :=
  amounts.map fun amount : Nat ↦ -(amount : Int)

/-! ### Calls -/

/-- An operation on a pool, with its arguments. -/
inductive Call
  | setFirstPrice (sqrtPrice : Nat)
  | addLiquidity (key : PositionKey) (amount : Nat)
  | removeLiquidity (key : PositionKey) (amount : Nat)
  | collect (key : PositionKey) (requested : TokenPair Nat)
  | swap (request : SwapRequest)
  | setProtocolPart (parts : TokenPair Nat)
  | collectProtocolFees (requested : TokenPair Nat)
  | placeOrder (sold : Token) (key : OrderKey) (amount : Nat)
  | cancelOrder (sold : Token) (key : OrderKey) (amount : Nat)
  | collectOrder (sold : Token) (key : OrderKey) (requested : TokenPair Nat)
  deriving DecidableEq, Repr

namespace Call

/-- Runs a call, and gives what it brings to the pool in each token. Changes of liquidity and of
orders that only move what is owed to an owner bring nothing. -/
def run : Call → Action Pool (TokenPair Int)
  | setFirstPrice sqrtPrice => do
    Pool.setFirstPrice sqrtPrice
    return .both 0
  | addLiquidity key amount => do
    let brought ← Pool.addLiquidity key amount
    return brought.paidIn
  | removeLiquidity key amount => do
    let _ ← Pool.removeLiquidity key amount
    return .both 0
  | collect key requested => do
    let paid ← Pool.collect key requested
    return paid.givenOut
  | swap request => Pool.swap request
  | setProtocolPart parts => do
    Pool.setProtocolPart parts
    return .both 0
  | collectProtocolFees requested => do
    let paid ← Pool.collectProtocolFees requested
    return paid.givenOut
  | placeOrder sold key amount => do
    let brought ← Pool.placeOrder sold key amount
    return brought.paidIn
  | cancelOrder sold key amount => do
    let _ ← Pool.cancelOrder sold key amount
    return .both 0
  | collectOrder sold key requested => do
    let paid ← Pool.collectOrder sold key requested
    return paid.givenOut

/-- The pool that a call leaves behind, whether it finishes or fails. -/
def leaves (call : Call) (pool : Pool) : Pool :=
  match call.run pool with
  | .ok _ after => after
  | .error _ after => after

end Call

/-! ### Calls that fail -/

namespace Pool

theorem opened_readOnly : opened.ReadOnly :=
  .bind .get fun pool ↦ .bind (.lift _) fun _ ↦ .pure pool

theorem opened_eq_ok {pool result after : Pool} :
    opened pool = .ok result after ↔ pool.IsOpen ∧ pool = result ∧ pool = after := by
  unfold opened
  simp only [Action.bind_eq_ok, Action.get_eq_ok, Action.lift_eq_ok, Action.pure_eq_ok,
    require_eq_ok]
  constructor
  · rintro ⟨_, _, ⟨rfl, rfl⟩, _, _, ⟨hopen, rfl⟩, rfl, rfl⟩
    exact ⟨hopen, rfl, rfl⟩
  · rintro ⟨hopen, rfl, rfl⟩
    exact ⟨_, _, ⟨rfl, rfl⟩, (), _, ⟨hopen, rfl⟩, rfl, rfl⟩

/-- Writing once and giving a result never fails. -/
theorem set_pure_atomic {α : Type} (written : Pool) (result : α) :
    Action.Atomic (do set written; return result : Action Pool α) :=
  fun _ _ _ h ↦ absurd h (Action.bind_ne_error (fun _ _ _ ↦ Action.set_ne_error)
    (fun _ _ _ _ ↦ Action.pure_ne_error) _ _ _)

theorem addLiquidity_atomic (key : PositionKey) (amount : Nat) :
    (addLiquidity key amount).Atomic := by
  unfold addLiquidity
  refine .read_bind opened_readOnly fun _ ↦ .read_bind (.lift _) fun _ ↦
    .read_bind (.lift _) fun delta ↦ ?_
  exact (adjustPosition_atomic key delta).bind_of_ne_error fun _ _ _ _ ↦ Action.pure_ne_error

theorem removeLiquidity_atomic (key : PositionKey) (amount : Nat) :
    (removeLiquidity key amount).Atomic := by
  unfold removeLiquidity
  refine .read_bind opened_readOnly fun _ ↦ .read_bind (.lift _) fun delta ↦ ?_
  refine (adjustPosition_atomic key (-delta)).bind_of_ne_error fun amounts ↦ ?_
  exact Action.bind_ne_error (fun _ _ _ ↦ Action.modify_ne_error)
    fun _ _ _ _ ↦ Action.pure_ne_error

theorem collect_atomic (key : PositionKey) (requested : TokenPair Nat) :
    (collect key requested).Atomic := by
  unfold collect
  refine .read_bind opened_readOnly fun pool ↦ ?_
  cases pool.positions.get? key with
  | some position => exact set_pure_atomic _ _
  | none => exact .pure _

theorem swap_atomic (request : SwapRequest) : (swap request).Atomic := by
  unfold swap
  exact .read_bind .get fun pool ↦ .read_bind (.lift _) fun plan ↦ set_pure_atomic _ _

end Pool

namespace Call

/-- A call that fails leaves the pool as it was. -/
theorem run_atomic (call : Call) : call.run.Atomic := by
  have hresult : ∀ {α : Type} {operation : Action Pool α} {brought : α → TokenPair Int},
      operation.Atomic → Action.Atomic (do return brought (← operation)) :=
    fun hatomic ↦ hatomic.bind_of_ne_error fun _ _ _ _ ↦ Action.pure_ne_error
  cases call with
  | setFirstPrice sqrtPrice =>
    refine hresult ?_
    unfold Pool.setFirstPrice
    refine .read_bind .get fun pool ↦ .read_bind (.lift _) fun _ ↦ .read_bind (.lift _) fun _ ↦ ?_
    exact fun _ _ _ h ↦ absurd h Action.set_ne_error
  | addLiquidity key amount => exact hresult (Pool.addLiquidity_atomic key amount)
  | removeLiquidity key amount => exact hresult (Pool.removeLiquidity_atomic key amount)
  | collect key requested => exact hresult (Pool.collect_atomic key requested)
  | swap request => exact Pool.swap_atomic request
  | setProtocolPart parts =>
    refine hresult ?_
    unfold Pool.setProtocolPart
    refine .read_bind Pool.opened_readOnly fun pool ↦ .read_bind (.lift _) fun _ ↦ ?_
    exact fun _ _ _ h ↦ absurd h Action.set_ne_error
  | collectProtocolFees requested =>
    exact hresult (.read_bind Pool.opened_readOnly fun pool ↦ Pool.set_pure_atomic _ _)
  | placeOrder sold key amount =>
    refine hresult ?_
    unfold Pool.placeOrder
    exact .read_bind Pool.opened_readOnly fun pool ↦ .read_bind (.lift _) fun _ ↦
      .read_bind (.lift _) fun _ ↦ .read_bind (.lift _) fun _ ↦ Pool.set_pure_atomic _ _
  | cancelOrder sold key amount =>
    refine hresult ?_
    unfold Pool.cancelOrder
    exact .read_bind Pool.opened_readOnly fun pool ↦ .read_bind (.lift _) fun _ ↦
      .read_bind (.lift _) fun _ ↦ Pool.set_pure_atomic _ _
  | collectOrder sold key requested =>
    refine hresult ?_
    unfold Pool.collectOrder
    exact .read_bind Pool.opened_readOnly fun pool ↦ .read_bind (.lift _) fun _ ↦
      .read_bind (.lift _) fun _ ↦ Pool.set_pure_atomic _ _

theorem leaves_of_ok {call : Call} {pool after : Pool} {brought : TokenPair Int}
    (h : call.run pool = .ok brought after) : call.leaves pool = after := by
  rw [leaves, h]

theorem leaves_of_error {call : Call} {pool after : Pool} {failure : Failure}
    (h : call.run pool = .error failure after) : call.leaves pool = pool := by
  rw [leaves, h]
  exact call.run_atomic _ _ _ h

/-- Whether a call finishes. -/
def finishes (call : Call) (pool : Pool) : Bool :=
  match call.run pool with
  | .ok _ _ => true
  | .error _ _ => false

theorem run_of_finishes {call : Call} {pool : Pool} (h : call.finishes pool) :
    ∃ brought, call.run pool = .ok brought (call.leaves pool) := by
  unfold finishes at h
  unfold leaves
  cases hrun : call.run pool with
  | ok brought after => exact ⟨brought, rfl⟩
  | error failure after =>
    rw [hrun] at h
    exact absurd h Bool.false_ne_true

end Call

/-- A swap of whose plan something is known can be planned. -/
theorem Pool.exists_planSwap {α : Type} {pool : Pool} {request : SwapRequest}
    {read : SwapPlan → α} {known : α} (h : read <$> pool.planSwap request = .ok known) :
    ∃ plan, pool.planSwap request = .ok plan ∧ read plan = known := by
  cases hplan : pool.planSwap request with
  | error failure =>
    rw [hplan] at h
    cases h
  | ok plan =>
    rw [hplan] at h
    exact ⟨plan, rfl, Except.ok.inj h⟩

/-- A swap that can be planned finishes with the amounts of its plan. -/
theorem Pool.swap_of_amounts {pool : Pool} {request : SwapRequest} {amounts : TokenPair Int}
    (h : SwapPlan.amounts <$> pool.planSwap request = .ok amounts) :
    swap request pool = .ok amounts ((Call.swap request).leaves pool) := by
  obtain ⟨plan, hplan, rfl⟩ := exists_planSwap h
  have hrun : (Call.swap request).run pool = .ok plan.amounts _ := swap_of_planSwap hplan
  rw [Call.leaves_of_ok hrun]
  exact hrun

/-! ### Calls that finish -/

/-- What a call that finishes brings to a pool, and the pool that it leaves. -/
inductive Finished (pool : Pool) : Call → TokenPair Int → Pool → Prop
  | firstPriceSet {sqrtPrice : Nat} {tick : Int} (closed : ¬pool.IsOpen)
    (tick_eq : tickAt sqrtPrice = .ok tick) :
    Finished pool (.setFirstPrice sqrtPrice) (.both 0) { pool with sqrtPrice, tick }
  | liquidityAdded {key : PositionKey} {amount : Nat} {staged : TickTable} {position : Position}
    {amounts : TokenPair Int} {after : Pool} (isOpen : pool.IsOpen)
    (adjusted : pool.RangeAdjusted key amount staged position amounts after) :
    Finished pool (.addLiquidity key amount) (amounts.map Int.toNat).paidIn after
  | liquidityRemoved {key : PositionKey} {amount : Nat} {staged : TickTable} {position : Position}
    {amounts : TokenPair Int} {between : Pool} (isOpen : pool.IsOpen)
    (adjusted : pool.RangeAdjusted key (-amount) staged position amounts between) :
    Finished pool (.removeLiquidity key amount) (.both 0) { between with
      positions := pool.positions.insert key (position.credit (amounts.map Int.natAbs)) }
  | collected {key : PositionKey} {requested : TokenPair Nat} {position : Position}
    (isOpen : pool.IsOpen) (position_eq : pool.positions.get? key = some position) :
    Finished pool (.collect key requested) (position.collect requested).1.givenOut
      { pool with positions := pool.positions.insert key (position.collect requested).2 }
  | nothingCollected {key : PositionKey} {requested : TokenPair Nat} (isOpen : pool.IsOpen)
    (position_eq : pool.positions.get? key = none) :
    Finished pool (.collect key requested) (.both 0) pool
  | swapped {request : SwapRequest} {plan : SwapPlan}
    (plan_eq : pool.planSwap request = .ok plan) :
    Finished pool (.swap request) plan.amounts (pool.applySwap request.paid plan)
  | protocolPartSet {parts : TokenPair Nat} (isOpen : pool.IsOpen)
    (allowed : Pool.ProtocolPartAllowed parts.zero ∧ Pool.ProtocolPartAllowed parts.one) :
    Finished pool (.setProtocolPart parts) (.both 0) { pool with protocolPart := parts }
  | protocolFeesCollected {requested : TokenPair Nat} (isOpen : pool.IsOpen) :
    Finished pool (.collectProtocolFees requested)
      (requested.zipWith Pool.protocolPayout pool.protocolFees).givenOut
      { pool with
        protocolFees := pool.protocolFees.zipWith (· - ·)
          (requested.zipWith Pool.protocolPayout pool.protocolFees) }
  | orderPlaced {sold : Token} {key : OrderKey} {amount price : Nat} {book : OrderBook}
    (isOpen : pool.IsOpen) (amount_pos : 0 < amount)
    (price_eq : pool.orderPrice key.tick = .ok price)
    (book_eq : pool.book.place sold key amount price pool.fee pool.liquidityCap = .ok book) :
    Finished pool (.placeOrder sold key amount) (TokenPair.paired sold amount 0).paidIn
      { pool with book }
  | orderCancelled {sold : Token} {key : OrderKey} {amount price taken : Nat} {book : OrderBook}
    (isOpen : pool.IsOpen) (price_eq : pool.orderPrice key.tick = .ok price)
    (book_eq : pool.book.cancel sold key amount price pool.fee = .ok (taken, book)) :
    Finished pool (.cancelOrder sold key amount) (.both 0) { pool with book }
  | orderCollected {sold : Token} {key : OrderKey} {requested paid : TokenPair Nat} {price : Nat}
    {book : OrderBook} (isOpen : pool.IsOpen) (price_eq : pool.orderPrice key.tick = .ok price)
    (book_eq : pool.book.collect sold key requested price pool.fee = .ok (paid, book)) :
    Finished pool (.collectOrder sold key requested) paid.givenOut { pool with book }

/-- What adding liquidity to a position takes and leaves. -/
theorem Pool.added_of_addLiquidity {pool after : Pool} {key : PositionKey} {amount : Nat}
    {brought : TokenPair Nat} (h : Pool.addLiquidity key amount pool = .ok brought after) :
    ∃ staged position amounts, pool.IsOpen ∧ 0 < amount ∧
      pool.RangeAdjusted key amount staged position amounts after ∧
      brought = amounts.map Int.toNat := by
  simp only [Pool.addLiquidity, Action.bind_eq_ok, Pool.opened_eq_ok, Action.lift_eq_ok,
    Action.pure_eq_ok] at h
  obtain ⟨_, _, ⟨hopen, rfl, rfl⟩, _, _, ⟨hpos, rfl⟩, delta, _, ⟨hdelta, rfl⟩, amounts, _, hadjust,
    rfl, rfl⟩ := h
  obtain ⟨-, rfl⟩ := within_eq_ok.mp hdelta
  obtain ⟨staged, position, hadjusted⟩ := Pool.adjusted_of_adjustPosition hadjust
  exact ⟨staged, position, amounts, hopen, require_eq_ok.mp hpos, hadjusted, rfl⟩

/-- What taking liquidity out of a position gives back and leaves. -/
theorem Pool.removed_of_removeLiquidity {pool after : Pool} {key : PositionKey} {amount : Nat}
    {returned : TokenPair Nat} (h : Pool.removeLiquidity key amount pool = .ok returned after) :
    ∃ staged position amounts between, pool.IsOpen ∧
      pool.RangeAdjusted key (-amount) staged position amounts between ∧
      returned = amounts.map Int.natAbs ∧
      after = { between with positions := pool.positions.insert key (position.credit returned) } := by
  simp only [Pool.removeLiquidity, Action.bind_eq_ok, Pool.opened_eq_ok, Action.lift_eq_ok,
    Action.modify_eq_ok, Action.pure_eq_ok] at h
  obtain ⟨_, _, ⟨hopen, rfl, rfl⟩, delta, _, ⟨hdelta, rfl⟩, amounts, between, hadjust, _, _, rfl,
    rfl, rfl⟩ := h
  obtain ⟨-, rfl⟩ := within_eq_ok.mp hdelta
  obtain ⟨staged, position, hadjusted⟩ := Pool.adjusted_of_adjustPosition hadjust
  refine ⟨staged, position, amounts, between, hopen, hadjusted, rfl, ?_⟩
  have hpositions : between.positions = OrderedMap.insert pool.positions key position := by
    rw [hadjusted.pool_eq]
  have hcredited : PositionTable.modify between.positions key
      (fun position ↦ position.credit (amounts.map Int.natAbs)) =
        pool.positions.insert key (position.credit (amounts.map Int.natAbs)) := by
    rw [PositionTable.modify, hpositions, OrderedMap.get?_insert_self]
    exact OrderedMap.insert_insert _ _ _ _
  rw [hcredited]

/-- A finished call has done what its case says. -/
theorem Call.finished_of_run {call : Call} {pool after : Pool} {brought : TokenPair Int}
    (h : call.run pool = .ok brought after) : Finished pool call brought after := by
  cases call with
  | setFirstPrice sqrtPrice =>
    simp only [run, Pool.setFirstPrice, Action.bind_eq_ok, Action.get_eq_ok, Action.lift_eq_ok,
      Action.set_eq_ok, Action.pure_eq_ok, require_eq_ok] at h
    obtain ⟨_, _, ⟨_, _, ⟨rfl, rfl⟩, _, _, ⟨hclosed, rfl⟩, tick, _, ⟨htick, rfl⟩, rfl⟩, rfl, rfl⟩ := h
    exact .firstPriceSet hclosed htick
  | addLiquidity key amount =>
    simp only [run, Action.bind_eq_ok, Action.pure_eq_ok] at h
    obtain ⟨brought, _, hadded, rfl, rfl⟩ := h
    obtain ⟨staged, position, amounts, hopen, -, hadjusted, rfl⟩ :=
      Pool.added_of_addLiquidity hadded
    exact .liquidityAdded hopen hadjusted
  | removeLiquidity key amount =>
    simp only [run, Action.bind_eq_ok, Action.pure_eq_ok] at h
    obtain ⟨returned, _, hremoved, rfl, rfl⟩ := h
    obtain ⟨staged, position, amounts, between, hopen, hadjusted, rfl, rfl⟩ :=
      Pool.removed_of_removeLiquidity hremoved
    exact .liquidityRemoved hopen hadjusted
  | collect key requested =>
    simp only [run, Pool.collect, Action.bind_eq_ok, Pool.opened_eq_ok] at h
    obtain ⟨paid, _, ⟨_, _, ⟨hopen, rfl, rfl⟩, h⟩, hbrought⟩ := h
    obtain ⟨rfl, rfl⟩ := Action.pure_eq_ok.mp hbrought
    cases hposition : pool.positions.get? key with
    | some position =>
      simp only [hposition, Action.bind_eq_ok, Action.set_eq_ok, Action.pure_eq_ok] at h
      obtain ⟨_, _, rfl, rfl, rfl⟩ := h
      exact .collected hopen hposition
    | none =>
      simp only [hposition, Action.pure_eq_ok] at h
      obtain ⟨rfl, rfl⟩ := h
      exact .nothingCollected hopen hposition
  | swap request =>
    obtain ⟨plan, hplan, rfl, rfl⟩ := Pool.swap_eq_ok h
    exact .swapped hplan
  | setProtocolPart parts =>
    simp only [run, Pool.setProtocolPart, Action.bind_eq_ok, Pool.opened_eq_ok, Action.lift_eq_ok,
      Action.set_eq_ok, Action.pure_eq_ok, require_eq_ok] at h
    obtain ⟨_, _, ⟨_, _, ⟨hopen, rfl, rfl⟩, _, _, ⟨hallowed, rfl⟩, rfl⟩, rfl, rfl⟩ := h
    exact .protocolPartSet hopen hallowed
  | collectProtocolFees requested =>
    simp only [run, Pool.collectProtocolFees, Action.bind_eq_ok, Pool.opened_eq_ok,
      Action.set_eq_ok, Action.pure_eq_ok] at h
    obtain ⟨_, _, ⟨_, _, ⟨hopen, rfl, rfl⟩, _, _, rfl, rfl, rfl⟩, rfl, rfl⟩ := h
    exact .protocolFeesCollected hopen
  | placeOrder sold key amount =>
    simp only [run, Pool.placeOrder, Action.bind_eq_ok, Pool.opened_eq_ok, Action.lift_eq_ok,
      Action.set_eq_ok, Action.pure_eq_ok] at h
    obtain ⟨_, _, ⟨_, _, ⟨hopen, rfl, rfl⟩, _, _, ⟨hpos, rfl⟩, price, _, ⟨hprice, rfl⟩, book, _,
      ⟨hbook, rfl⟩, _, _, rfl, rfl, rfl⟩, rfl, rfl⟩ := h
    exact .orderPlaced hopen (require_eq_ok.mp hpos) hprice hbook
  | cancelOrder sold key amount =>
    simp only [run, Pool.cancelOrder, Action.bind_eq_ok, Pool.opened_eq_ok, Action.lift_eq_ok,
      Action.set_eq_ok, Action.pure_eq_ok] at h
    obtain ⟨_, _, ⟨_, _, ⟨hopen, rfl, rfl⟩, price, _, ⟨hprice, rfl⟩, ⟨taken, book⟩, _,
      ⟨hbook, rfl⟩, _, _, rfl, rfl, rfl⟩, rfl, rfl⟩ := h
    exact .orderCancelled hopen hprice hbook
  | collectOrder sold key requested =>
    simp only [run, Pool.collectOrder, Action.bind_eq_ok, Pool.opened_eq_ok, Action.lift_eq_ok,
      Action.set_eq_ok, Action.pure_eq_ok] at h
    obtain ⟨_, _, ⟨_, _, ⟨hopen, rfl, rfl⟩, price, _, ⟨hprice, rfl⟩, ⟨paid, book⟩, _,
      ⟨hbook, rfl⟩, _, _, rfl, rfl, rfl⟩, rfl, rfl⟩ := h
    exact .orderCollected hopen hprice hbook

/-- No call changes what a pool was created with. -/
theorem settings_of_finished {call : Call} {pool after : Pool} {brought : TokenPair Int}
    (h : Finished pool call brought after) :
    after.fee = pool.fee ∧ after.tickSpacing = pool.tickSpacing ∧
      after.liquidityCap = pool.liquidityCap := by
  cases h with
  | liquidityAdded _ hadjusted =>
    rw [hadjusted.pool_eq]
    exact ⟨rfl, rfl, rfl⟩
  | @liquidityRemoved _ _ _ _ _ between _ hadjusted =>
    change between.fee = pool.fee ∧ between.tickSpacing = pool.tickSpacing ∧
      between.liquidityCap = pool.liquidityCap
    rw [hadjusted.pool_eq]
    exact ⟨rfl, rfl, rfl⟩
  | swapped =>
    rw [Pool.applySwap, Pool.foldl_applyStep_eq]
    exact ⟨rfl, rfl, rfl⟩
  | _ => exact ⟨rfl, rfl, rfl⟩

/-- What a new pool is: its settings are those of an allowed tier, and all else is blank. -/
theorem Pool.created_of_create {fee tickSpacing : Nat} {pool : Pool}
    (h : Pool.create fee tickSpacing = .ok pool) :
    fee < feeDenominator ∧ (0 < tickSpacing ∧ tickSpacing < maxTickSpacing) ∧
      ∃ cap, maxLiquidityPerTick tickSpacing = .ok cap ∧
        pool = ⟨fee, tickSpacing, cap, 0, 0, 0, .both 0, .both 0, .both 0, .empty, .empty,
          .empty⟩ := by
  unfold Pool.create at h
  obtain ⟨tier, htier, h⟩ := bind_eq_ok.mp h
  obtain ⟨cap, hcap, h⟩ := bind_eq_ok.mp h
  obtain ⟨hfee, hspacing, rfl⟩ := FeeTier.create_eq_ok.mp htier
  exact ⟨hfee, hspacing, cap, hcap, (Except.ok.inj h).symm⟩

/-! ### Reachable pools -/

/-- The pools that calls can make out of new ones. -/
inductive Pool.Reachable : Pool → Prop
  | created {fee tickSpacing : Nat} {pool : Pool} :
    Pool.create fee tickSpacing = .ok pool → Reachable pool
  | called {pool : Pool} (call : Call) : Reachable pool → Reachable (call.leaves pool)

theorem Pool.Reachable.of_run {pool after : Pool} {call : Call} {brought : TokenPair Int}
    (h : pool.Reachable) (hrun : call.run pool = .ok brought after) : after.Reachable := by
  rw [← Call.leaves_of_ok hrun]
  exact .called call h

/-- What holds of new pools and is kept by every call that finishes holds of reachable pools. -/
theorem Pool.Reachable.of_kept {property : Pool → Prop}
    (hcreated : ∀ {fee tickSpacing pool}, Pool.create fee tickSpacing = .ok pool → property pool)
    (hkept : ∀ {call : Call} {pool after brought}, pool.Reachable → property pool →
      Finished pool call brought after → property after)
    {pool : Pool} (hreachable : pool.Reachable) : property pool := by
  induction hreachable with
  | created hcreate => exact hcreated hcreate
  | @called pool call hbefore ih =>
    cases hrun : call.run pool with
    | ok brought after =>
      rw [Call.leaves_of_ok hrun]
      exact hkept hbefore ih (Call.finished_of_run hrun)
    | error failure after =>
      rw [Call.leaves_of_error hrun]
      exact ih

/-- A pool of the tier that charges 3000 millionths, before it is opened. -/
def Pool.standard : Pool where
  fee := 3000
  tickSpacing := 60
  liquidityCap := 11505743598341114571880798222544994
  liquidity := 0
  sqrtPrice := 0
  tick := 0
  protocolPart := .both 0
  growth := .both 0
  protocolFees := .both 0
  ticks := .empty
  positions := .empty
  book := .empty

theorem Pool.create_standard : Pool.create 3000 60 = .ok Pool.standard := by
  decide +kernel

/-! ### Ledgers -/

/-- A pool, and all that was taken in and paid out of it in each token. -/
structure Ledger where
  pool : Pool
  takenIn : TokenPair Nat
  paidOut : TokenPair Nat

namespace Ledger

/-- The ledger of a pool that nothing was paid into yet. -/
def start (pool : Pool) : Ledger :=
  ⟨pool, .both 0, .both 0⟩

/-- Runs a call and enters what it brought to the pool or took out of it. -/
def enter (ledger : Ledger) (call : Call) : Ledger :=
  match call.run ledger.pool with
  | .ok brought pool =>
    { pool
      takenIn := ledger.takenIn.zipWith (· + ·) (brought.map Int.toNat)
      paidOut := ledger.paidOut.zipWith (· + ·) (brought.map fun amount ↦ (-amount).toNat) }
  | .error _ pool => { ledger with pool }

/-- Runs a sequence of calls. -/
def enterAll (ledger : Ledger) (calls : List Call) : Ledger :=
  calls.foldl enter ledger

/-- What the pool took in beyond what it paid out. -/
def balance (ledger : Ledger) (token : Token) : Int :=
  (ledger.takenIn.get token : Int) - ledger.paidOut.get token

theorem pool_enter (ledger : Ledger) (call : Call) :
    (ledger.enter call).pool = call.leaves ledger.pool := by
  unfold enter Call.leaves
  cases call.run ledger.pool <;> rfl

theorem reachable_enter (ledger : Ledger) (h : ledger.pool.Reachable) (call : Call) :
    (ledger.enter call).pool.Reachable := by
  rw [pool_enter]
  exact .called call h

/-- Every pool of a run is reachable where the first one is. -/
theorem reachable_enterAll (ledger : Ledger) (h : ledger.pool.Reachable) (calls : List Call) :
    (ledger.enterAll calls).pool.Reachable := by
  induction calls generalizing ledger with
  | nil => exact h
  | cons call calls ih => exact ih (ledger.enter call) (ledger.reachable_enter h call)

/-- A call that finishes adds to the balance what it brings. -/
theorem enter_of_ok {ledger : Ledger} {call : Call} {brought : TokenPair Int} {after : Pool}
    (h : call.run ledger.pool = .ok brought after) :
    (ledger.enter call).pool = after ∧
      ∀ token, (ledger.enter call).balance token = ledger.balance token + brought.get token := by
  unfold enter
  rw [h]
  refine ⟨rfl, fun token ↦ ?_⟩
  simp only [balance, TokenPair.get_zipWith, TokenPair.get_map, Nat.cast_add]
  have hparts := Int.toNat_sub_toNat_neg (brought.get token)
  linarith

theorem enter_of_error {ledger : Ledger} {call : Call} {failure : Failure} {after : Pool}
    (h : call.run ledger.pool = .error failure after) : ledger.enter call = ledger := by
  unfold enter
  rw [h, call.run_atomic _ _ _ h]

/-- What holds of a ledger and is kept by every call that finishes holds along a run. The calls
that are considered may be restricted. -/
theorem enterAll_of_kept (property : Ledger → Prop) (allowed : Call → Prop)
    (hkept : ∀ {ledger call brought after}, allowed call → ledger.pool.Reachable →
      property ledger → call.run ledger.pool = .ok brought after →
      Finished ledger.pool call brought after → property (ledger.enter call))
    {ledger : Ledger} (hreachable : ledger.pool.Reachable) (hstart : property ledger)
    {calls : List Call} (hallowed : ∀ call ∈ calls, allowed call) :
    property (ledger.enterAll calls) := by
  induction calls generalizing ledger with
  | nil => exact hstart
  | cons call calls ih =>
    have hrest : ∀ other ∈ calls, allowed other :=
      fun other hother ↦ hallowed other (List.mem_cons_of_mem _ hother)
    refine ih (ledger.reachable_enter hreachable call) ?_ hrest
    cases hrun : call.run ledger.pool with
    | ok brought after =>
      exact hkept (hallowed call List.mem_cons_self) hreachable hstart hrun
        (Call.finished_of_run hrun)
    | error failure after =>
      rw [enter_of_error hrun]
      exact hstart

end Ledger

/-- A pool with two ranges around its price, one of which ends before the other. -/
def Pool.twoRanges : Pool :=
  ((Ledger.start standard).enterAll [
    .setFirstPrice q96,
    .addLiquidity ⟨1, -60, 60⟩ 1000000,
    .addLiquidity ⟨2, 0, 120⟩ 500000]).pool

theorem Pool.twoRanges_reachable : Pool.twoRanges.Reachable :=
  Ledger.reachable_enterAll _ (.created create_standard) _

/-- A swap that takes the price of `Pool.twoRanges` past the end of the first range. -/
def SwapRequest.pastFirstRange : SwapRequest :=
  ⟨.one, 7000, 79700000000000000000000000000⟩

end RangeBook
