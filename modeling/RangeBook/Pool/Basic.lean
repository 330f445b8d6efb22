import RangeBook.Action
import RangeBook.Book.Basic
import RangeBook.Fee
import RangeBook.Position

/-!
# Pools

A pool holds the liquidity of positions in ranges of ticks and the limit orders of a book, and
lets both trade at its price. It has no price until it is opened. The current tick is the one
below the price, or one less where the price has come down to a tick from above. Operations on a
pool are actions: they show the pool that they leave behind also where they fail.
-/

set_option autoImplicit false
set_option relaxedAutoImplicit false

namespace RangeBook

/-- The state of a pool. -/
structure Pool where
  /-- The fee on swaps, in millionths. -/
  fee : Nat
  /-- Ticks in use are multiples of this spacing. -/
  tickSpacing : Nat
  /-- The most liquidity that may rest at one tick. -/
  liquidityCap : Nat
  /-- The liquidity of the ranges around the current tick. -/
  liquidity : Nat
  /-- The square root of the price in Q64.96, zero until the pool is opened. -/
  sqrtPrice : Nat
  /-- The current tick. -/
  tick : Int
  /-- The part of the fee in each token that goes to the protocol, as its denominator. Zero stands
  for no part. -/
  protocolPart : TokenPair Nat
  /-- The fees per unit of liquidity since the pool was opened. -/
  growth : TokenPair Growth
  /-- The fees that are owed to the protocol. -/
  protocolFees : TokenPair Nat
  ticks : TickTable
  positions : PositionTable
  book : OrderBook
  deriving DecidableEq

namespace Pool

/-- A pool of a fee tier that is not opened yet. -/
def create (fee tickSpacing : Nat) : Outcome Pool := do
  let tier ← FeeTier.create fee tickSpacing
  let liquidityCap ← maxLiquidityPerTick tier.tickSpacing
  return {
    fee := tier.fee
    tickSpacing := tier.tickSpacing
    liquidityCap
    liquidity := 0
    sqrtPrice := 0
    tick := 0
    protocolPart := .both 0
    growth := .both 0
    protocolFees := .both 0
    ticks := .empty
    positions := .empty
    book := .empty }

/-- Whether the pool has a price. -/
def IsOpen (pool : Pool) : Prop :=
  pool.sqrtPrice ≠ 0

instance (pool : Pool) : Decidable pool.IsOpen :=
  inferInstanceAs (Decidable (_ ≠ _))

/-- Reads a pool that has a price. -/
def opened : Action Pool Pool := do
  let pool ← get
  require pool.IsOpen .notInitialized
  return pool

/-- Gives the pool its first price. -/
def setFirstPrice (sqrtPrice : Nat) : Action Pool Unit := do
  let pool ← get
  require (¬pool.IsOpen) .alreadyInitialized
  let tick ← tickAt sqrtPrice
  set { pool with sqrtPrice, tick }

/-- The position at a key, blank where there is none. -/
def position (pool : Pool) (key : PositionKey) : Position :=
  pool.positions.find key

end Pool

end RangeBook
