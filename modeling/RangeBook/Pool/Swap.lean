import RangeBook.Swap.Trip

/-!
# Swaps

A swap pays one token of a pool and buys the other, up to an amount and up to a price limit. The
course of the swap is worked out in full before the pool is written, so a swap that fails at any
step changes nothing.
-/

set_option autoImplicit false
set_option relaxedAutoImplicit false

namespace RangeBook

/-- A swap that is worked out: its steps, where it ends, what it brings to the pool in each token,
and the fees that are owed to the protocol afterwards in the token paid. -/
structure SwapPlan where
  steps : List SwapStep
  last : SwapState
  amounts : TokenPair Int
  protocolFees : Nat

namespace Pool

/-- Whether a swap may end at a price: it lies past the present one and within the bounds. -/
def LimitAllowed (pool : Pool) (request : SwapRequest) : Prop :=
  request.paid.Past request.limit pool.sqrtPrice ∧
    match request.paid with
    | .zero => minSqrtPrice < request.limit
    | .one => request.limit < maxSqrtPrice

instance (pool : Pool) (request : SwapRequest) : Decidable (pool.LimitAllowed request) := by
  unfold LimitAllowed
  cases request.paid <;> infer_instance

/-- What a swap brings to the pool in each token: the part of the amount asked for that was
swapped, and what was exchanged for it. -/
def swapAmounts (request : SwapRequest) (consumed exchanged : Int) : TokenPair Int :=
  if request.IsExactInput then .paired request.paid consumed exchanged
  else .paired request.paid exchanged consumed

/-- Works a swap out. -/
def planSwap (pool : Pool) (request : SwapRequest) : Outcome SwapPlan := do
  require (request.amount ≠ 0) .zeroSwapAmount
  require pool.IsOpen .notInitialized
  require (pool.LimitAllowed request) .priceLimit
  let (steps, last) ←
    SwapState.travel pool request (SwapState.stepBudget pool request) (.start pool request)
  let consumed ← int256 (request.amount - last.remaining)
  let protocolFees ← uint128 (pool.protocolFees.get request.paid + last.protocolFees)
  return ⟨steps, last, swapAmounts request consumed last.exchanged, protocolFees⟩

/-- Writes what a step changes in the ticks and in the book. -/
def applyStep (paid : Token) (pool : Pool) : SwapStep → Pool
  | .moved move =>
    match move.crossing? with
    | some crossing => { pool with ticks := (pool.ticks.cross crossing.tick crossing.growth).2 }
    | none => pool
  | .usedUp tick _ => { pool with book := pool.book.removeLevel paid.other tick }
  | .filledInPart tick _ left => { pool with book := pool.book.replaceLevel paid.other tick left }

/-- Writes a swap that was worked out. -/
def applySwap (pool : Pool) (paid : Token) (plan : SwapPlan) : Pool :=
  { plan.steps.foldl (applyStep paid) pool with
    sqrtPrice := plan.last.sqrtPrice
    tick := plan.last.tick
    liquidity := plan.last.liquidity
    growth := pool.growth.set paid plan.last.growth
    protocolFees := pool.protocolFees.set paid plan.protocolFees }

/-- Swaps one token for the other and gives what this brings to the pool in each token: positive
where it is paid in, negative where it is given out. -/
def swap (request : SwapRequest) : Action Pool (TokenPair Int) := do
  let pool ← get
  let plan ← pool.planSwap request
  set (pool.applySwap request.paid plan)
  return plan.amounts

end Pool

end RangeBook
