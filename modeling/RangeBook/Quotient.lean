import RangeBook.Bits

/-!
# Exactly rounded quotients

Products are taken in full and divided once, rounding down or up. The quotient of a product has
to fit 256 bits again: `mulDivFloor?` and `mulDivCeil?` give nothing where it does not or where
the divisor is zero, and `mulDivFloor` and `mulDivCeil` reject the operation.
-/

set_option autoImplicit false
set_option relaxedAutoImplicit false

namespace RangeBook

/-- The quotient rounded up. -/
def divCeil (dividend divisor : Nat) : Nat :=
  (dividend + (divisor - 1)) / divisor

/-- The quotient rounded up, aborted for the divisor zero. -/
def divideUp (dividend divisor : Nat) : Outcome Nat :=
  if divisor = 0 then abort else .ok (divCeil dividend divisor)

/-- A value that fits 256 bits. -/
def fit256? (value : Nat) : Option Nat :=
  if value < twoPow 256 then some value else none

/-- `a * b / c` rounded down, where there is such a quotient of at most 256 bits. -/
def mulDivFloor? (a b c : Nat) : Option Nat :=
  if c = 0 then none else fit256? (a * b / c)

/-- `a * b / c` rounded up, where there is such a quotient of at most 256 bits. -/
def mulDivCeil? (a b c : Nat) : Option Nat :=
  if c = 0 then none else fit256? (divCeil (a * b) c)

/-- `a * b / c` rounded down, rejected unless it fits 256 bits. -/
def mulDivFloor (a b c : Nat) : Outcome Nat :=
  orReject .quotientOverflow (mulDivFloor? a b c)

/-- `a * b / c` rounded up, rejected unless it fits 256 bits. -/
def mulDivCeil (a b c : Nat) : Outcome Nat :=
  orReject .quotientOverflow (mulDivCeil? a b c)

/-- The quotient rounded up is the least number whose multiple reaches the dividend. -/
theorem divCeil_le_iff {dividend divisor bound : Nat} (hdivisor : 0 < divisor) :
    divCeil dividend divisor ≤ bound ↔ dividend ≤ bound * divisor := by
  rw [divCeil, Nat.div_le_iff_le_mul hdivisor]
  omega

@[simp] theorem mulDivFloor?_eq_some {a b c result : Nat} :
    mulDivFloor? a b c = some result ↔
      c ≠ 0 ∧ a * b / c < twoPow 256 ∧ result = a * b / c := by
  unfold mulDivFloor? fit256?
  split <;> simp_all [eq_comm]

@[simp] theorem mulDivCeil?_eq_some {a b c result : Nat} :
    mulDivCeil? a b c = some result ↔
      c ≠ 0 ∧ divCeil (a * b) c < twoPow 256 ∧ result = divCeil (a * b) c := by
  unfold mulDivCeil? fit256?
  split <;> simp_all [eq_comm]

theorem mulDivFloor_eq_ok {a b c result : Nat} :
    mulDivFloor a b c = .ok result ↔
      c ≠ 0 ∧ a * b / c < twoPow 256 ∧ result = a * b / c := by
  simp [mulDivFloor]

theorem mulDivCeil_eq_ok {a b c result : Nat} :
    mulDivCeil a b c = .ok result ↔
      c ≠ 0 ∧ divCeil (a * b) c < twoPow 256 ∧ result = divCeil (a * b) c := by
  simp [mulDivCeil]

end RangeBook
