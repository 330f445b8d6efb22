import RangeBook.Pool.Basic
import RangeBook.Swap.LevelFill
import RangeBook.Swap.RangeStep

/-!
# The course of a swap

A swap is worked out before anything is written. It goes in steps, each of which either fills the
best level of resting orders, once the price has reached it, or moves the price along a range up
to the next boundary tick, the next level or the price limit. Each step is recorded, and the
records say what the swap will change: ticks crossed, levels used up, a level filled in part. A
fill in part is the last step, because the level outlasts the swap.

`advance` is one step and `travel` repeats it until nothing is left to swap or the limit is
reached. The number of steps is bounded by the ticks and levels in the way (`stepBudget`).
-/

set_option autoImplicit false
set_option relaxedAutoImplicit false

namespace RangeBook

/-- What a swap asks for: the token paid, the amount, which is an input where it is positive and an
output where it is negative, and the square root of price that must not be passed. -/
structure SwapRequest where
  paid : Token
  amount : Int
  limit : Nat
  deriving DecidableEq, Repr

namespace SwapRequest

/-- Whether the swap fixes what is paid rather than what is bought. -/
def IsExactInput (request : SwapRequest) : Prop :=
  0 ≤ request.amount

instance (request : SwapRequest) : Decidable request.IsExactInput :=
  inferInstanceAs (Decidable (_ ≤ _))

end SwapRequest

/-- Where a swap stands: the amount left to swap, the amount exchanged for what was swapped, the
price and its tick, the liquidity around it, the fee growth in the token paid, the fees set aside
for the protocol, and the last level that was used up. -/
structure SwapState where
  remaining : Int
  exchanged : Int
  sqrtPrice : Nat
  tick : Int
  liquidity : Nat
  growth : Growth
  protocolFees : Nat
  lastUsedUp : Option Int
  deriving DecidableEq, Repr

/-- A tick that the price passed, with the growth at that moment. -/
structure Crossing where
  tick : Int
  growth : TokenPair Growth
  deriving DecidableEq, Repr

/-- A step along a range: the tick that it started from, the prices and amounts, the part of the
fee that goes to the protocol, what the rest adds to the growth, and the tick that was crossed. -/
structure RangeMove where
  startTick : Int
  step : RangeStep
  protocolShare : Nat
  growthAdded : Growth
  crossing? : Option Crossing
  deriving DecidableEq, Repr

/-- The record of a step of a swap. -/
inductive SwapStep
  | moved (move : RangeMove)
  | usedUp (tick : Int) (fill : LevelFill)
  | filledInPart (tick : Int) (fill : LevelFill) (left : Level)
  deriving DecidableEq, Repr

namespace SwapStep

/-- Whether the swap ends with this step whatever is left to swap. -/
def IsLast : SwapStep → Prop
  | filledInPart _ _ _ => True
  | _ => False

instance (step : SwapStep) : Decidable step.IsLast := by
  cases step <;> unfold IsLast <;> infer_instance

end SwapStep

namespace SwapState

/-- Where a swap starts. -/
def start (pool : Pool) (request : SwapRequest) : SwapState where
  remaining := request.amount
  exchanged := 0
  sqrtPrice := pool.sqrtPrice
  tick := pool.tick
  liquidity := pool.liquidity
  growth := pool.growth.get request.paid
  protocolFees := 0
  lastUsedUp := none

/-- Whether nothing is left to swap or the price limit is reached. -/
def IsDone (request : SwapRequest) (state : SwapState) : Prop :=
  state.remaining = 0 ∨ state.sqrtPrice = request.limit

instance (request : SwapRequest) (state : SwapState) : Decidable (state.IsDone request) :=
  inferInstanceAs (Decidable (_ ∨ _))

/-- Books the amounts of a step. For a fixed input what is paid with its fee comes off the amount
left, and what is bought is owed. For a fixed output it is the other way round. -/
def book (request : SwapRequest) (state : SwapState) (amountIn fee amountOut : Nat) :
    Outcome SwapState := do
  let paid ← uint256 (amountIn + fee)
  let paid ← int256 paid
  let bought ← int256 amountOut
  if request.IsExactInput then
    let remaining ← int256 (state.remaining - paid)
    let exchanged ← int256 (state.exchanged - bought)
    return { state with remaining, exchanged }
  else
    let remaining ← int256 (state.remaining + bought)
    let exchanged ← int256 (state.exchanged + paid)
    return { state with remaining, exchanged }

/-! ### Fills of resting orders -/

/-- Fills the level at a tick. -/
def fillLevel (pool : Pool) (request : SwapRequest) (state : SwapState) (tick : Int)
    (level : Level) (sqrtPrice : Nat) : Outcome (SwapStep × SwapState) := do
  let price ← Book.priceOfSqrt sqrtPrice
  let fill ←
    LevelFill.compute price level.available level.unfilled state.remaining pool.fee request.paid
  let state ← state.book request fill.amountIn fill.fee fill.amountOut
  match fill.unfilled? with
  | none =>
    return (.usedUp tick fill, { state with lastUsedUp := some tick })
  | some unfilled =>
    let taken := wrap128 fill.amountOut
    require (taken ≤ level.available) .liquidityUnderflow
    let left := { level with available := level.available - taken, unfilled }
    return (.filledInPart tick fill left, state)

/-! ### Moves along a range -/

/-- The price up to which a range step may go: that of the next tick, the limit or the next level,
whichever comes first. -/
def targetPrice (request : SwapRequest) (nextTick : Nat) (nextLevel? : Option Nat) : Nat :=
  let target := if request.paid.Past nextTick request.limit then request.limit else nextTick
  match nextLevel? with
  | some nextLevel => if request.paid.Past target nextLevel then nextLevel else target
  | none => target

/-- The part of a fee that goes to the protocol. -/
def protocolShare (pool : Pool) (request : SwapRequest) (fee : Nat) : Nat :=
  if pool.protocolPart.get request.paid = 0 then 0 else fee / pool.protocolPart.get request.paid

/-- What a fee adds to the growth. Without liquidity it adds nothing. -/
def growthOf (fee liquidity : Nat) : Outcome Growth := do
  if liquidity = 0 then
    return 0
  else
    let added ← mulDivFloor fee (twoPow 128) liquidity
    return BitVec.ofNat 256 added

/-- The liquidity that enters where the price passes a tick in the direction of the swap. -/
def enteringLiquidity (pool : Pool) (request : SwapRequest) (tick : Int) : Outcome Int :=
  let net := ((pool.ticks.get? tick).getD .blank).net
  match request.paid with
  | .zero => int128 (-net)
  | .one => return net

/-- The current tick once the price has reached a tick: below it where the price falls. -/
def tickPassed (request : SwapRequest) (tick : Int) : Int :=
  match request.paid with
  | .zero => tick - 1
  | .one => tick

/-- Arrives at a tick, and crosses it where it is a boundary. -/
def arrive (pool : Pool) (request : SwapRequest) (state : SwapState) (tick : Int)
    (isBoundary : Bool) : Outcome (Option Crossing × SwapState) := do
  let state' := { state with tick := tickPassed request tick }
  if isBoundary then
    let entering ← enteringLiquidity pool request tick
    let liquidity ← addDelta state.liquidity entering
    let crossing := ⟨tick, pool.growth.set request.paid state.growth⟩
    return (some crossing, { state' with liquidity })
  else
    return (none, state')

/-- Moves the price along a range, no further than the next level. -/
def moveRange (pool : Pool) (request : SwapRequest) (state : SwapState)
    (nextLevel? : Option Nat) : Outcome (SwapStep × SwapState) := do
  let (tick, isBoundary) := pool.ticks.next state.tick request.paid
  let tick := max minTick (min maxTick tick)
  let target := targetPrice request (tickSqrtPrice tick) nextLevel?
  let step ←
    RangeStep.compute state.sqrtPrice target state.liquidity state.remaining pool.fee
  let moved ← state.book request step.amountIn step.fee step.amountOut
  let share := protocolShare pool request step.fee
  let protocolFees ← uint128 (state.protocolFees + wrap128 share)
  let added ← growthOf (step.fee - share) state.liquidity
  let moved := { moved with sqrtPrice := step.price, protocolFees, growth := state.growth + added }
  let (crossing?, moved) ←
    if step.price = tickSqrtPrice tick then
      moved.arrive pool request tick isBoundary
    else if step.price = state.sqrtPrice then
      pure (none, moved)
    else do
      let tick ← tickAt step.price
      pure (none, { moved with tick })
  return (.moved ⟨state.tick, step, share, added, crossing?⟩, moved)

/-! ### The whole course -/

/-- One step of a swap. Levels whose price is reached are filled before the price moves. -/
def advance (pool : Pool) (request : SwapRequest) (state : SwapState) :
    Outcome (SwapStep × SwapState) := do
  match pool.book.best? request.paid state.lastUsedUp with
  | none => state.moveRange pool request none
  | some (tick, level) =>
    let levelPrice ← sqrtPriceAt tick
    if request.paid.Past levelPrice state.sqrtPrice then
      state.moveRange pool request (some levelPrice)
    else
      state.fillLevel pool request tick level levelPrice

/-- Repeats steps until nothing is left to swap, the limit is reached or a level was filled in
part: the steps, and where the swap ends. It is aborted when it takes more steps than allowed. -/
def travel (pool : Pool) (request : SwapRequest) :
    Nat → SwapState → Outcome (List SwapStep × SwapState)
  | 0, _ => abort
  | allowed + 1, state =>
    if state.IsDone request then
      return ([], state)
    else do
      let (step, next) ← state.advance pool request
      if step.IsLast then
        return ([step], next)
      else
        let (steps, last) ← travel pool request allowed next
        return (step :: steps, last)

/-- How many steps a swap may take. A price that belongs to the tick needs one step for each
boundary tick and two for each level, and one more. The allowance is twice that, for pools whose
price and tick were set apart from each other: after the first move they belong together. -/
def stepBudget (pool : Pool) (request : SwapRequest) : Nat :=
  2 * (pool.ticks.size + 2 * (pool.book.side request.paid.other).levels.size + 2)

end SwapState

end RangeBook
