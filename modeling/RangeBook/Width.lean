import RangeBook.Bits

/-!
# Ranges of amounts

Amounts are plain naturals and integers. Where an operation must not leave a range it checks the
result with one of the functions here, which pass the value on or reject it for the range that it
left. Sums that are allowed to overflow are taken modulo the width instead (`wrap128`).
-/

set_option autoImplicit false
set_option relaxedAutoImplicit false

namespace RangeBook

/-- Passes a value on if the condition holds and is rejected otherwise. -/
def within {α : Type} (condition : Prop) [Decidable condition] (cause : Cause) (value : α) :
    Outcome α :=
  if condition then .ok value else reject cause

/-- Passes on an unsigned value of at most 128 bits. -/
def uint128 (value : Nat) : Outcome Nat :=
  within (value < twoPow 128) .uint128Range value

/-- Passes on an unsigned value of at most 160 bits. -/
def uint160 (value : Nat) : Outcome Nat :=
  within (value < twoPow 160) .uint160Range value

/-- Passes on an unsigned value of at most 256 bits. -/
def uint256 (value : Nat) : Outcome Nat :=
  within (value < twoPow 256) .uint256Range value

/-- Passes on a signed value of at most 128 bits. -/
def int128 (value : Int) : Outcome Int :=
  within (-twoPow 127 ≤ value ∧ value < twoPow 127) .int128Range value

/-- Passes on a signed value of at most 256 bits. -/
def int256 (value : Int) : Outcome Int :=
  within (-twoPow 255 ≤ value ∧ value < twoPow 255) .int256Range value

/-- The difference of two unsigned amounts, rejected where it would be negative. -/
def difference (left right : Nat) : Outcome Nat :=
  within (right ≤ left) .uint256Range (left - right)

/-- The difference of two unsigned amounts that is taken not to be negative: the operation is
aborted where it is. -/
def remainder (left right : Nat) : Outcome Nat :=
  if right ≤ left then .ok (left - right) else abort

/-- Keeps the lowest 128 bits of an amount. -/
def wrap128 (value : Nat) : Nat :=
  value % twoPow 128

theorem wrap128_lt (value : Nat) : wrap128 value < twoPow 128 :=
  Nat.mod_lt _ (twoPow_pos 128)

theorem wrap128_le (value : Nat) : wrap128 value ≤ value :=
  Nat.mod_le _ _

theorem wrap128_of_lt {value : Nat} (h : value < twoPow 128) : wrap128 value = value :=
  Nat.mod_eq_of_lt h

@[simp] theorem within_eq_ok {α : Type} {condition : Prop} [Decidable condition] {cause : Cause}
    {value result : α} :
    within condition cause value = .ok result ↔ condition ∧ value = result := by
  unfold within
  split <;> rename_i h <;> simp [h, reject]

@[simp] theorem within_eq_error {α : Type} {condition : Prop} [Decidable condition] {cause : Cause}
    {value : α} {failure : Failure} :
    within condition cause value = .error failure ↔ ¬condition ∧ .rejected cause = failure := by
  unfold within
  split <;> rename_i h <;> simp [h, reject]

@[simp] theorem remainder_eq_ok {left right result : Nat} :
    remainder left right = .ok result ↔ right ≤ left ∧ left - right = result := by
  unfold remainder
  split <;> rename_i h <;> simp [h, abort]

end RangeBook
