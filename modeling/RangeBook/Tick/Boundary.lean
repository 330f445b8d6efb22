import RangeBook.Action
import RangeBook.Liquidity
import RangeBook.OrderedMap
import RangeBook.Tick.Bounds
import RangeBook.Token

/-!
# Boundary ticks

A tick at which ranges begin or end remembers how much liquidity refers to it, how much of it
enters as the price rises past it, and the fee growth on its far side. Fee growth is counted per
unit of liquidity modulo `2 ^ 256` and only its differences have a meaning. The growth inside a
range is the global growth less the growth below its lower and above its upper tick.

A `TickTable` holds the boundary ticks of a pool. `next` finds the neighbour at which a moving
price meets the next change of liquidity.
-/

set_option autoImplicit false
set_option relaxedAutoImplicit false

namespace RangeBook

/-- Fees per unit of liquidity as a Q128.128 number modulo `2 ^ 256`. -/
abbrev Growth : Type :=
  BitVec 256

/-- The two ends of a range. -/
inductive RangeEnd
  | lower
  | upper
  deriving DecidableEq, Repr

/-- What is kept at a tick at which ranges begin or end. -/
structure BoundaryTick where
  gross : Nat
  net : Int
  growthOutside : TokenPair Growth
  deriving DecidableEq, Repr

namespace BoundaryTick

/-- A tick that no range refers to. -/
def blank : BoundaryTick :=
  ⟨0, 0, .both 0⟩

instance : Inhabited BoundaryTick :=
  ⟨blank⟩

/-- The growth below a tick, seen from the current tick. -/
def growthBelow (boundary : BoundaryTick) (tick current : Int) (growth : TokenPair Growth) :
    TokenPair Growth :=
  if tick ≤ current then boundary.growthOutside
  else growth.zipWith (· - ·) boundary.growthOutside

/-- The growth above a tick, seen from the current tick. -/
def growthAbove (boundary : BoundaryTick) (tick current : Int) (growth : TokenPair Growth) :
    TokenPair Growth :=
  if current < tick then boundary.growthOutside
  else growth.zipWith (· - ·) boundary.growthOutside

/-- The growth inside the range between two boundary ticks, seen from the current tick. -/
def growthInside (lowerTick : Int) (lower : BoundaryTick) (upperTick : Int) (upper : BoundaryTick)
    (current : Int) (growth : TokenPair Growth) : TokenPair Growth :=
  (growth.zipWith (· - ·) (lower.growthBelow lowerTick current growth)).zipWith (· - ·)
    (upper.growthAbove upperTick current growth)

/-- Adds liquidity that has an end at the tick, and tells whether the tick changed between unused
and used. A tick that comes into use takes all growth up to then to have happened below it. The
growth is written before the net liquidity is known to stay in its range. -/
def adjust (tick current delta : Int) (growth : TokenPair Growth) (rangeEnd : RangeEnd)
    (cap : Nat) : Action BoundaryTick Bool := do
  let before ← get
  let gross ← addDelta before.gross delta
  require (gross ≤ cap) .liquidityCap
  if before.gross = 0 ∧ tick ≤ current then
    set { before with growthOutside := growth }
  let net ← int128 (match rangeEnd with
    | .lower => before.net + delta
    | .upper => before.net - delta)
  modify fun boundary => { boundary with gross, net }
  return decide (gross = 0) != decide (before.gross = 0)

/-- Lets the price pass the tick: the two sides of its growth change places. -/
def cross (boundary : BoundaryTick) (growth : TokenPair Growth) : BoundaryTick :=
  { boundary with growthOutside := growth.zipWith (· - ·) boundary.growthOutside }

end BoundaryTick

/-- The boundary ticks of a pool. -/
abbrev TickTable : Type :=
  OrderedMap Int BoundaryTick

namespace TickTable

/-- The growth inside a range. A boundary that is not in the table counts as blank. -/
def growthInside (table : TickTable) (lower upper current : Int) (growth : TokenPair Growth) :
    TokenPair Growth :=
  BoundaryTick.growthInside lower ((table.get? lower).getD .blank) upper
    ((table.get? upper).getD .blank) current growth

/-- Adds liquidity that has an end at a tick, which enters the table at its first use. The table
changes only where the whole step finishes. A tick that falls out of use stays until it is
erased. -/
def adjust (table : TickTable) (tick current delta : Int) (growth : TokenPair Growth)
    (rangeEnd : RangeEnd) (cap : Nat) : Outcome (Bool × TickTable) := do
  let before ←
    match table.get? tick with
    | some boundary => pure boundary
    | none => do
      require (0 < delta) .emptyTick
      pure BoundaryTick.blank
  let (flipped, after) ←
    (BoundaryTick.adjust tick current delta growth rangeEnd cap).outcome before
  return (flipped, table.insert tick after)

/-- Makes a tick what it was: puts back what was kept there, or nothing where nothing was. -/
def putBack (table : TickTable) (tick : Int) (kept? : Option BoundaryTick) : TickTable :=
  match kept? with
  | some boundary => table.insert tick boundary
  | none => table.erase tick

/-- A tick that was put back reads as it was, and the other ticks are left alone. -/
theorem get?_putBack (table : TickTable) (tick other : Int) (kept? : Option BoundaryTick) :
    (table.putBack tick kept?).get? other = if other = tick then kept? else table.get? other := by
  cases kept? with
  | some boundary =>
    rw [putBack, OrderedMap.get?_insert]
    simp only [Std.LawfulEqCmp.compare_eq_iff_eq]
  | none =>
    rw [putBack, OrderedMap.get?_erase]
    simp only [Std.LawfulEqCmp.compare_eq_iff_eq]

/-- Lets the price pass a tick, and gives the liquidity that enters as it rises. Nothing is kept
at a tick that is not in the table. -/
def cross (table : TickTable) (tick : Int) (growth : TokenPair Growth) : Int × TickTable :=
  match table.get? tick with
  | some boundary => (boundary.net, table.insert tick (boundary.cross growth))
  | none => (0, table)

/-- The next boundary tick for a price that starts from a tick: at or below it where token zero is
paid and the price falls, strictly above it where token one is paid. Where there is none it is
the last tick in that direction. The flag tells whether the tick is a boundary. -/
def next (table : TickTable) (tick : Int) (paid : Token) : Int × Bool :=
  match paid with
  | .zero =>
    match table.last? fun key => decide (key ≤ tick) with
    | some (found, _) => (found, true)
    | none => (minTick, false)
  | .one =>
    match table.first? fun key => decide (tick < key) with
    | some (found, _) => (found, true)
    | none => (maxTick, false)

end TickTable

end RangeBook
