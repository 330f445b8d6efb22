import RangeBook.Book.Order

/-!
# The order book

A book has a side for each token sold, with the levels that swaps can fill and the orders of their
owners. Swaps touch levels only. An order is settled when its owner places more, cancels or
collects. Each operation gives the whole book after it, or fails.
-/

set_option autoImplicit false
set_option relaxedAutoImplicit false

namespace RangeBook

/-- One side of a book: the levels by tick, and the orders by owner and tick. -/
structure Side where
  levels : OrderedMap Int Level
  orders : OrderedMap OrderKey LimitOrder
  deriving DecidableEq

namespace Side

/-- A side on which nothing rests. -/
def empty : Side :=
  ⟨.empty, .empty⟩

instance : Inhabited Side :=
  ⟨empty⟩

/-- Writes an order, or takes it out once it is blank. -/
def keep (side : Side) (key : OrderKey) (order : LimitOrder) : Side :=
  { side with
    orders := if order.IsBlank then side.orders.erase key else side.orders.insert key order }

/-- Takes an amount out of the level at a tick. A level of which nothing is left is gone. -/
def drain (side : Side) (tick : Int) (amount : Nat) : Outcome Side := do
  let level ← orReject .orderNotFound (side.levels.get? tick)
  require (amount ≤ level.available) .liquidityUnderflow
  let available := level.available - amount
  return { side with
    levels :=
      if available = 0 then side.levels.erase tick
      else side.levels.insert tick { level with available } }

end Side

/-- The resting orders of a pool, by the token sold, and the batch that the next new level gets. -/
structure OrderBook where
  sides : TokenPair Side
  nextBatch : Nat
  deriving DecidableEq

namespace OrderBook

/-- A book on which nothing rests. -/
def empty : OrderBook :=
  ⟨.both .empty, 0⟩

instance : Inhabited OrderBook :=
  ⟨empty⟩

/-- The side on which a token is sold. -/
def side (book : OrderBook) (sold : Token) : Side :=
  book.sides.get sold

/-- Replaces the side on which a token is sold. -/
def setSide (book : OrderBook) (sold : Token) (side : Side) : OrderBook :=
  { book with sides := book.sides.set sold side }

/-- The level at a tick. -/
def level? (book : OrderBook) (sold : Token) (tick : Int) : Option Level :=
  (book.side sold).levels.get? tick

/-- The order of an owner at a tick. -/
def order? (book : OrderBook) (sold : Token) (key : OrderKey) : Option LimitOrder :=
  (book.side sold).orders.get? key

/-- The level that a swap fills first, passing over the given tick and all that are better priced.
Paying token zero it buys token one from the highest tick down, and paying token one it buys token
zero from the lowest tick up. -/
def best? (book : OrderBook) (paid : Token) (passed : Option Int) : Option (Int × Level) :=
  let levels := (book.side paid.other).levels
  match paid with
  | .zero => levels.last? fun tick => passed.all fun mark => decide (tick < mark)
  | .one => levels.first? fun tick => passed.all fun mark => decide (mark < tick)

/-- The level at a tick and the batch that the next new level gets, once the level exists. -/
def openLevel (book : OrderBook) (sold : Token) (tick : Int) : Outcome (Level × Nat) :=
  match book.level? sold tick with
  | some level => return (level, book.nextBatch)
  | none => do
    require (book.nextBatch + 1 < twoPow 128) .batchLimit
    return (.opening book.nextBatch, book.nextBatch + 1)

/-- Adds to an order, which is settled first. An order of which nothing is left joins the batch
that rests at the tick now. -/
def place (book : OrderBook) (sold : Token) (key : OrderKey) (amount price fee cap : Nat) :
    Outcome OrderBook := do
  let side := book.side sold
  let (level, nextBatch) ← book.openLevel sold key.tick
  let settled ←
    ((side.orders.get? key).getD (.blank level)).settle (side.levels.get? key.tick) sold price fee
  let order :=
    if settled.amount = 0 then
      { settled with batch := level.batch, lastUnfilled := level.unfilled }
    else settled
  require (level.available + amount < twoPow 128) .liquidityCap
  require (level.available + amount ≤ cap) .liquidityCap
  require (order.amount + amount < twoPow 128) .liquidityCap
  let side := {
    levels := side.levels.insert key.tick { level with available := level.available + amount }
    orders := side.orders.insert key { order with amount := order.amount + amount } }
  return { book.setSide sold side with nextBatch }

/-- Takes at most the given amount out of what is unfilled of an order, which is settled first.
The amount taken out is owed to the owner. -/
def cancel (book : OrderBook) (sold : Token) (key : OrderKey) (amount price fee : Nat) :
    Outcome (Nat × OrderBook) := do
  let side := book.side sold
  let order ← orReject .orderNotFound (side.orders.get? key)
  let order ← order.settle (side.levels.get? key.tick) sold price fee
  let taken := min amount order.amount
  if taken = 0 then
    return (0, book.setSide sold (side.keep key order))
  else
    let side ← side.drain key.tick taken
    let order := { order with amount := order.amount - taken }.credit sold taken
    return (taken, book.setSide sold (side.keep key order))

/-- Pays out at most the requested amounts of what is owed to the owner of an order, which is
settled first. There is nothing to pay out where there is no order. -/
def collect (book : OrderBook) (sold : Token) (key : OrderKey) (requested : TokenPair Nat)
    (price fee : Nat) : Outcome (TokenPair Nat × OrderBook) := do
  let side := book.side sold
  match side.orders.get? key with
  | none => return (.both 0, book)
  | some order =>
    let order ← order.settle (side.levels.get? key.tick) sold price fee
    let paid := requested.zipWith min order.owed
    let order := { order with owed := order.owed.zipWith (· - ·) paid }
    return (paid, book.setSide sold (side.keep key order))

/-- Takes a level out that a swap used up. -/
def removeLevel (book : OrderBook) (sold : Token) (tick : Int) : OrderBook :=
  let side := book.side sold
  book.setSide sold { side with levels := side.levels.erase tick }

/-- Writes the level that a swap filled in part. -/
def replaceLevel (book : OrderBook) (sold : Token) (tick : Int) (level : Level) : OrderBook :=
  let side := book.side sold
  book.setSide sold { side with levels := side.levels.insert tick level }

end OrderBook

end RangeBook
