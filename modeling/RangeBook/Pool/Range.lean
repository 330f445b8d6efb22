import RangeBook.Curve.Amount
import RangeBook.Pool.Basic

/-!
# Liquidity in ranges

Owners add liquidity to a range of ticks and take it out again. Below the current tick a range
holds token one, above it token zero, and around it both. What an owner has to bring is rounded
up and what an owner gets back is rounded down. The two boundary ticks are written first, and put
back where a later step fails.
-/

set_option autoImplicit false
set_option relaxedAutoImplicit false

namespace RangeBook.Pool

/-- What a change of liquidity makes of a position and of its pool. -/
structure RangeChange where
  position : Position
  lowerFlipped : Bool
  upperFlipped : Bool
  liquidity : Nat
  amounts : TokenPair Int

/-- Adds liquidity to one boundary tick of a range, and tells whether the tick changed between
unused and used. A change of zero leaves the tick alone. -/
def adjustBoundary (tick delta : Int) (rangeEnd : RangeEnd) : Action Pool Bool := do
  if delta = 0 then
    return false
  let pool ← get
  let (flipped, ticks) ←
    pool.ticks.adjust tick pool.tick delta pool.growth rangeEnd pool.liquidityCap
  set { pool with ticks }
  return flipped

/-- The liquidity around the current tick and the amounts that a change of liquidity in a range
brings to the pool. -/
def rangeAmounts (pool : Pool) (lower upper delta : Int) : Outcome (Nat × TokenPair Int) := do
  if delta = 0 then
    return (pool.liquidity, .both 0)
  else if pool.tick < lower then
    let zero ← Curve.amountDelta .zero (tickSqrtPrice lower) (tickSqrtPrice upper) delta
    return (pool.liquidity, ⟨zero, 0⟩)
  else if pool.tick < upper then
    let zero ← Curve.amountDelta .zero pool.sqrtPrice (tickSqrtPrice upper) delta
    let one ← Curve.amountDelta .one (tickSqrtPrice lower) pool.sqrtPrice delta
    let liquidity ← addDelta pool.liquidity delta
    return (liquidity, ⟨zero, one⟩)
  else
    let one ← Curve.amountDelta .one (tickSqrtPrice lower) (tickSqrtPrice upper) delta
    return (pool.liquidity, ⟨0, one⟩)

/-- Writes the boundary ticks of a position and works out the rest of a change of its liquidity. -/
def stageChange (key : PositionKey) (delta : Int) : Action Pool RangeChange := do
  let lowerFlipped ← adjustBoundary key.lower delta .lower
  let upperFlipped ← adjustBoundary key.upper delta .upper
  let pool ← get
  let inside := pool.ticks.growthInside key.lower key.upper pool.tick pool.growth
  let position ← (pool.position key).adjust delta inside
  let (liquidity, amounts) ← pool.rangeAmounts key.lower key.upper delta
  return { position, lowerFlipped, upperFlipped, liquidity, amounts }

/-- The ticks without those that a withdrawal of liquidity left unused. -/
def releaseBoundaries (ticks : TickTable) (key : PositionKey) (delta : Int)
    (change : RangeChange) : TickTable :=
  let ticks := if delta < 0 ∧ change.lowerFlipped then ticks.erase key.lower else ticks
  if delta < 0 ∧ change.upperFlipped then ticks.erase key.upper else ticks

/-- Makes the boundary ticks of a range what they were in an earlier table. -/
def putBackBoundaries (earlier : TickTable) (key : PositionKey) (pool : Pool) : Pool :=
  { pool with
    ticks := (pool.ticks.putBack key.lower (earlier.get? key.lower)).putBack key.upper
      (earlier.get? key.upper) }

/-- Changes the liquidity of a position and gives the amounts that this brings to the pool. -/
def adjustPosition (key : PositionKey) (delta : Int) : Action Pool (TokenPair Int) := do
  checkRange key.lower key.upper
  let before ← get
  checkTick key.lower before.tickSpacing
  checkTick key.upper before.tickSpacing
  let change ← (stageChange key delta).mendingWith (putBackBoundaries before.ticks key)
  modify fun pool => { pool with
    ticks := releaseBoundaries pool.ticks key delta change
    positions := pool.positions.insert key change.position
    liquidity := change.liquidity }
  return change.amounts

/-- Adds liquidity to a position and gives the amounts that its owner has to bring. -/
def addLiquidity (key : PositionKey) (amount : Nat) : Action Pool (TokenPair Nat) := do
  let _ ← opened
  require (0 < amount) .zeroMintAmount
  let delta ← int128 amount
  let amounts ← adjustPosition key delta
  return amounts.map Int.toNat

/-- Takes liquidity out of a position and gives the amounts that are owed to its owner for it. A
withdrawal of nothing brings the fees owed up to date. -/
def removeLiquidity (key : PositionKey) (amount : Nat) : Action Pool (TokenPair Nat) := do
  let _ ← opened
  let delta ← int128 amount
  let amounts ← adjustPosition key (-delta)
  let returned := amounts.map Int.natAbs
  modify fun pool => { pool with
    positions := pool.positions.modify key fun position => position.credit returned }
  return returned

/-- Pays out at most the requested amounts of what is owed to the owner of a position. Fees since
its last change are not brought up to date before. -/
def collect (key : PositionKey) (requested : TokenPair Nat) : Action Pool (TokenPair Nat) := do
  let pool ← opened
  match pool.positions.get? key with
  | some position =>
    let (paid, position) := position.collect requested
    set { pool with positions := pool.positions.insert key position }
    return paid
  | none =>
    return .both 0

end RangeBook.Pool
