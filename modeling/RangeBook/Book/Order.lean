import RangeBook.Book.Price
import RangeBook.Fee
import RangeBook.Position
import RangeBook.Share

/-!
# Resting orders

A limit order sells one token at the price of its tick. All orders at a tick rest in one level,
and every fill takes the same share of each of them. The level keeps the running product of what
was left unfilled, and an order finds out how much of it was filled by comparing that share with
the one that it saw last. A level that is used up is gone, and the next one at the same tick
starts a new batch, so that an order of an older batch knows that it was filled completely.
-/

set_option autoImplicit false
set_option relaxedAutoImplicit false

namespace RangeBook

/-- The orders that rest at one tick: the batch that they belong to, the amount that swaps can
still take, and the share of the batch that is unfilled. -/
structure Level where
  batch : Nat
  available : Nat
  unfilled : Share
  deriving DecidableEq, Repr

namespace Level

/-- A level of a new batch, before anything rests in it. -/
def opening (batch : Nat) : Level :=
  ⟨batch, 0, .largest⟩

end Level

/-- What a limit order is known by on its side of the book: its owner and its tick. -/
structure OrderKey where
  owner : Owner
  tick : Int
  deriving DecidableEq, Repr

namespace OrderKey

/-- Keys are ordered by owner, then by tick. -/
instance : Ord OrderKey where
  compare := compareLex (compareOn owner) (compareOn tick)

instance : Std.TransOrd OrderKey :=
  inferInstanceAs (Std.TransCmp (compareLex (compareOn owner) (compareOn tick)))

instance : Std.LawfulEqOrd OrderKey where
  eq_of_compare {left right} h := by
    change compareLex (compareOn owner) (compareOn tick) left right = .eq at h
    simp only [compareLex_eq_eq, compareOn, Std.LawfulEqCmp.compare_eq_iff_eq] at h
    cases left
    cases right
    simp_all

end OrderKey

/-- A limit order: the batch that its unfilled amount rests in, that amount and the unfilled share
of the batch when the order was last settled, and the amounts owed to the owner. -/
structure LimitOrder where
  batch : Nat
  amount : Nat
  lastUnfilled : Share
  owed : TokenPair Nat
  deriving DecidableEq, Repr

namespace LimitOrder

/-- An order of no amount in a level. -/
def blank (level : Level) : LimitOrder :=
  ⟨level.batch, 0, level.unfilled, .both 0⟩

/-- Whether nothing rests in the order and nothing is owed to its owner. -/
def IsBlank (order : LimitOrder) : Prop :=
  order.amount = 0 ∧ order.owed = .both 0

instance (order : LimitOrder) : Decidable order.IsBlank :=
  inferInstanceAs (Decidable (_ ∧ _))

/-- Adds to the amount owed in one token, modulo `2 ^ 128`. -/
def credit (order : LimitOrder) (token : Token) (amount : Nat) : LimitOrder :=
  { order with owed := order.owed.set token (wrap128 (order.owed.get token + amount)) }

/-- What swaps paid for a filled amount of the token sold: its price, and the fee on top. Both are
rounded down. -/
def earnings (filled : Nat) (sold : Token) (price fee : Nat) : Outcome Nat := do
  let bought ← Book.costFloor filled price sold.other
  let rest ← remainder feeDenominator fee
  let fees ← mulDivFloor bought fee rest
  uint256 (bought + fees)

/-- Takes note of the fills up to the present: the order at the present share, and the amount that
was filled. An order whose batch no longer rests at the tick was filled completely. Both what is
left and what was filled are rounded down. -/
def advance (order : LimitOrder) (level? : Option Level) : Outcome (LimitOrder × Nat) :=
  match level?.filter fun level => level.batch == order.batch with
  | some level => do
    let (floor, ceiling) ← Share.portion order.amount level.unfilled order.lastUnfilled
    let filled ← remainder order.amount ceiling
    return ({ order with amount := wrap128 floor, lastUnfilled := level.unfilled }, filled)
  | none =>
    return ({ order with amount := 0 }, order.amount)

/-- Settles an order against the level at its tick: notes the fills since it was last settled and
credits what they earned. -/
def settle (order : LimitOrder) (level? : Option Level) (sold : Token) (price fee : Nat) :
    Outcome LimitOrder := do
  let (order, filled) ← order.advance level?
  if filled = 0 then
    return order
  else
    let earned ← earnings filled sold price fee
    return order.credit sold.other earned

end LimitOrder

end RangeBook
