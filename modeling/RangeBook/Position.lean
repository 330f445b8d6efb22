import RangeBook.Liquidity
import RangeBook.OrderedMap
import RangeBook.Quotient
import RangeBook.Tick.Boundary

/-!
# Positions

A position is the liquidity that one owner keeps in one range. It is credited with fees for the
growth inside its range since it was last adjusted, on the liquidity that it held until then. The
amounts owed to the owner are kept modulo `2 ^ 128` and have to be collected before they overflow.
-/

set_option autoImplicit false
set_option relaxedAutoImplicit false

namespace RangeBook

/-- The owner of a position, of an order or of a factory. -/
abbrev Owner : Type :=
  Nat

/-- What a position is known by: its owner and its range. -/
structure PositionKey where
  owner : Owner
  lower : Int
  upper : Int
  deriving DecidableEq, Repr

namespace PositionKey

/-- Keys are ordered by owner, then by lower, then by upper tick. -/
instance : Ord PositionKey where
  compare := compareLex (compareOn owner) (compareLex (compareOn lower) (compareOn upper))

instance : Std.TransOrd PositionKey :=
  inferInstanceAs (Std.TransCmp (compareLex (compareOn owner)
    (compareLex (compareOn lower) (compareOn upper))))

instance : Std.LawfulEqOrd PositionKey where
  eq_of_compare {left right} h := by
    change compareLex (compareOn owner) (compareLex (compareOn lower) (compareOn upper))
      left right = .eq at h
    simp only [compareLex_eq_eq, compareOn, Std.LawfulEqCmp.compare_eq_iff_eq] at h
    cases left
    cases right
    simp_all

end PositionKey

/-- The liquidity of an owner in a range, the growth inside the range when the position was last
adjusted, and the amounts owed to the owner. -/
structure Position where
  liquidity : Nat
  growthInside : TokenPair Growth
  owed : TokenPair Nat
  deriving DecidableEq, Repr

namespace Position

/-- A position without liquidity. -/
def blank : Position :=
  ⟨0, .both 0, .both 0⟩

instance : Inhabited Position :=
  ⟨blank⟩

/-- The fees that liquidity earned while the growth went from one value to another, kept modulo
`2 ^ 128`. -/
def feesEarned (now last : Growth) (liquidity : Nat) : Outcome Nat := do
  let earned ← mulDivFloor (now - last).toNat liquidity (twoPow 128)
  return wrap128 earned

/-- Adds to the amounts owed, modulo `2 ^ 128`. -/
def credit (position : Position) (amounts : TokenPair Nat) : Position :=
  { position with
    owed := position.owed.zipWith (fun owed amount => wrap128 (owed + amount)) amounts }

/-- The liquidity after a change. A change of zero is a poke, which needs a position that holds
liquidity. -/
def liquidityAfter (position : Position) (delta : Int) : Outcome Nat :=
  if delta = 0 then do
    require (0 < position.liquidity) .emptyPosition
    return position.liquidity
  else
    addDelta position.liquidity delta

/-- Credits the fees since the last adjustment and changes the liquidity. -/
def adjust (position : Position) (delta : Int) (inside : TokenPair Growth) : Outcome Position := do
  let liquidity ← position.liquidityAfter delta
  let feeZero ← feesEarned inside.zero position.growthInside.zero position.liquidity
  let feeOne ← feesEarned inside.one position.growthInside.one position.liquidity
  return { position.credit ⟨feeZero, feeOne⟩ with liquidity, growthInside := inside }

/-- Pays out at most the requested amounts of what is owed: the amounts, and the position after. -/
def collect (position : Position) (requested : TokenPair Nat) : TokenPair Nat × Position :=
  let paid := requested.zipWith min position.owed
  (paid, { position with owed := position.owed.zipWith (· - ·) paid })

end Position

/-- The positions of a pool. -/
abbrev PositionTable : Type :=
  OrderedMap PositionKey Position

namespace PositionTable

/-- The position at a key, blank where there is none. -/
def find (table : PositionTable) (key : PositionKey) : Position :=
  (table.get? key).getD .blank

/-- Adjusts the position at a key, which enters the table at its first adjustment. -/
def adjust (table : PositionTable) (key : PositionKey) (delta : Int)
    (inside : TokenPair Growth) : Outcome (Position × PositionTable) := do
  let position ← (table.find key).adjust delta inside
  return (position, table.insert key position)

/-- Applies a function to the position at a key, if there is one. -/
def modify (table : PositionTable) (key : PositionKey) (f : Position → Position) : PositionTable :=
  match table.get? key with
  | some position => table.insert key (f position)
  | none => table

end PositionTable

end RangeBook
