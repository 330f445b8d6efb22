import RangeBook.Failure

/-!
# Powers of two and the most significant bit

The widths of amounts and the places of binary fractions are powers of two (`twoPow`). The index
of the highest set bit of a 256-bit amount is found by halving: if the amount reaches the power of
a width, the bit lies in the upper part, and the search goes on there with half the width.
`twoPow_topBit_le` and `lt_twoPow_topBit_succ` say that the search ends at the right index.
-/

set_option autoImplicit false
set_option relaxedAutoImplicit false

namespace RangeBook

/-- A power of two: the number of values that so many bits can take. -/
def twoPow (bits : Nat) : Nat :=
  Nat.pow 2 bits

theorem twoPow_pos (bits : Nat) : 0 < twoPow bits :=
  Nat.two_pow_pos bits

theorem twoPow_add (low high : Nat) : twoPow (low + high) = twoPow low * twoPow high :=
  Nat.pow_add 2 low high

theorem twoPow_succ (bits : Nat) : twoPow (bits + 1) = 2 * twoPow bits :=
  Nat.pow_succ'

/-- The widths that a search of `twoPow k` bits goes through, each half of the one before. -/
def halvingWidths : Nat → List Nat
  | 0 => []
  | k + 1 => twoPow k :: halvingWidths k

/-- Searches the highest set bit of an amount, halving the part that can hold it. -/
def searchTopBit : List Nat → Nat → Nat
  | [], _ => 0
  | width :: widths, amount =>
    if twoPow width ≤ amount then width + searchTopBit widths (amount / twoPow width)
    else searchTopBit widths amount

/-- The index of the highest set bit of an amount of at most 256 bits. -/
def topBit (amount : Nat) : Nat :=
  searchTopBit (halvingWidths 8) amount

/-- The index of the highest set bit, aborted for zero, which has none. -/
def mostSignificantBit (amount : Nat) : Outcome Nat :=
  if amount = 0 then abort else .ok (topBit amount)

/-- A search of `twoPow k` bits finds the highest set bit of every positive amount that has no
more bits than that. -/
theorem searchTopBit_bounds (k : Nat) {amount : Nat} (hpos : 0 < amount)
    (hbits : amount < twoPow (twoPow k)) :
    twoPow (searchTopBit (halvingWidths k) amount) ≤ amount ∧
      amount < twoPow (searchTopBit (halvingWidths k) amount + 1) := by
  induction k generalizing amount with
  | zero =>
    have hone : amount = 1 := Nat.le_antisymm (Nat.le_of_lt_succ hbits) hpos
    rw [hone]
    decide
  | succ k ih =>
    have hwidth : 0 < twoPow (twoPow k) := twoPow_pos _
    by_cases hupper : twoPow (twoPow k) ≤ amount
    · have hrest : amount / twoPow (twoPow k) < twoPow (twoPow k) := by
        apply Nat.div_lt_of_lt_mul
        rwa [← twoPow_add, ← Nat.two_mul, ← twoPow_succ]
      obtain ⟨hle, hlt⟩ := ih (Nat.div_pos hupper hwidth) hrest
      rw [Nat.le_div_iff_mul_le hwidth, ← twoPow_add, Nat.add_comm] at hle
      rw [Nat.div_lt_iff_lt_mul hwidth, ← twoPow_add] at hlt
      rw [halvingWidths, searchTopBit, if_pos hupper]
      refine ⟨hle, ?_⟩
      rwa [Nat.add_comm (twoPow k), Nat.add_right_comm]
    · rw [halvingWidths, searchTopBit, if_neg hupper]
      exact ih hpos (Nat.lt_of_not_le hupper)

/-- A positive amount reaches the power of two of its highest set bit. -/
theorem twoPow_topBit_le {amount : Nat} (hpos : 0 < amount) (hbits : amount < twoPow 256) :
    twoPow (topBit amount) ≤ amount :=
  (searchTopBit_bounds 8 hpos hbits).1

/-- An amount stays below the next power of two after its highest set bit. -/
theorem lt_twoPow_topBit_succ {amount : Nat} (hpos : 0 < amount) (hbits : amount < twoPow 256) :
    amount < twoPow (topBit amount + 1) :=
  (searchTopBit_bounds 8 hpos hbits).2

end RangeBook
