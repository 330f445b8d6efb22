import RangeBook.Pool.Basic

/-!
# Limit orders in a pool

Owners place orders at the ticks of a pool, cancel what is unfilled of them and collect what they
are owed. An order rests at a tick of the pool's spacing whose price is not zero.
-/

set_option autoImplicit false
set_option relaxedAutoImplicit false

namespace RangeBook.Pool

/-- The price of a tick at which orders may rest. -/
def orderPrice (pool : Pool) (tick : Int) : Outcome Nat := do
  checkTick tick pool.tickSpacing
  let price ← Book.priceAt tick
  require (price ≠ 0) .tickBelowMinimum
  return price

/-- Adds to a limit order and gives the amounts that its owner has to bring. -/
def placeOrder (sold : Token) (key : OrderKey) (amount : Nat) : Action Pool (TokenPair Nat) := do
  let pool ← opened
  require (0 < amount) .zeroMintAmount
  let price ← pool.orderPrice key.tick
  let book ← pool.book.place sold key amount price pool.fee pool.liquidityCap
  set { pool with book }
  return .paired sold amount 0

/-- Takes at most the given amount out of what is unfilled of a limit order, and gives the amounts
that are owed to its owner for it. -/
def cancelOrder (sold : Token) (key : OrderKey) (amount : Nat) : Action Pool (TokenPair Nat) := do
  let pool ← opened
  let price ← pool.orderPrice key.tick
  let (taken, book) ← pool.book.cancel sold key amount price pool.fee
  set { pool with book }
  return .paired sold taken 0

/-- Pays out at most the requested amounts of what is owed to the owner of a limit order. -/
def collectOrder (sold : Token) (key : OrderKey) (requested : TokenPair Nat) :
    Action Pool (TokenPair Nat) := do
  let pool ← opened
  let price ← pool.orderPrice key.tick
  let (paid, book) ← pool.book.collect sold key requested price pool.fee
  set { pool with book }
  return paid

end RangeBook.Pool
