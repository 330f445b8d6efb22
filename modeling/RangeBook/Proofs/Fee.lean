import Mathlib
import RangeBook.Fee
import RangeBook.Proofs.Failure
import RangeBook.Proofs.Quotient

/-!
# What a fee leaves of an input

An input is lowered to make room for its fee, and the fee on what is left is charged on top again.
Both are rounded so that the two together stay within the input (`add_feeOn_le`), but a single unit
more would not have fitted (`le_add_feeOn`).
-/

set_option autoImplicit false
set_option relaxedAutoImplicit false

namespace RangeBook

variable {allowed : Failure → Prop} {input budget amount fee charged : ℕ}

/-- Room for a fee can be made in every input of 256 bits. -/
theorem lessFee_finishes (hinput : input < twoPow 256) :
    FailsOnly allowed (lessFee input fee) :=
  .mulDivFloor_of_le (by decide) (Nat.mul_le_mul_left input (Nat.sub_le _ _)) hinput

/-- A rate below the whole takes less than a million times an amount paid. -/
theorem mul_fee_le (hfee : fee < feeDenominator) (amount : ℕ) :
    amount * fee ≤ amount * feeDenominator * (feeDenominator - fee) :=
  le_trans (Nat.mul_le_mul_left amount hfee.le)
    (Nat.le_mul_of_pos_right _ (Nat.sub_pos_of_lt hfee))

theorem feeOn_finishes (hfee : fee < feeDenominator)
    (hfits : amount * feeDenominator < twoPow 256) : FailsOnly allowed (feeOn amount fee) :=
  .mulDivCeil_of_le (Nat.sub_pos_of_lt hfee) (mul_fee_le hfee amount) hfits

theorem lessFee_mul_le (h : lessFee input fee = .ok budget) :
    budget * feeDenominator ≤ input * (feeDenominator - fee) := by
  obtain ⟨-, -, rfl⟩ := mulDivFloor_eq_ok.mp h
  exact Nat.div_mul_le_self _ _

theorem lessFee_le_input (h : lessFee input fee = .ok budget) : budget ≤ input := by
  obtain ⟨-, -, rfl⟩ := mulDivFloor_eq_ok.mp h
  refine Nat.div_le_of_le_mul ?_
  rw [Nat.mul_comm feeDenominator]
  exact Nat.mul_le_mul_left input (Nat.sub_le _ _)

/-- A rate below the whole leaves at least a millionth of an input. -/
theorem lt_of_lessFee (hfee : fee < feeDenominator) (h : lessFee input fee = .ok budget) :
    input < (budget + 1) * feeDenominator := by
  obtain ⟨-, -, rfl⟩ := mulDivFloor_eq_ok.mp h
  have hrest : 1 ≤ feeDenominator - fee := Nat.sub_pos_of_lt hfee
  calc input ≤ input * (feeDenominator - fee) := Nat.le_mul_of_pos_right input hrest
    _ < (input * (feeDenominator - fee) / feeDenominator + 1) * feeDenominator :=
      Nat.lt_mul_of_div_lt (Nat.lt_succ_self _) (by decide)

theorem feeOn_le (hfee : fee < feeDenominator) (h : feeOn amount fee = .ok charged) :
    charged ≤ amount * feeDenominator := by
  obtain ⟨-, -, rfl⟩ := mulDivCeil_eq_ok.mp h
  exact (divCeil_le_iff (Nat.sub_pos_of_lt hfee)).mpr (mul_fee_le hfee amount)

/-- What is left of an input once room is made for its fee, with the fee on top again, is at most
the input. -/
theorem lessFee_withFee_le (hfee : fee < feeDenominator) (h : lessFee input fee = .ok budget) :
    (budget : ℚ) * (feeDenominator / (feeDenominator - fee : ℕ)) ≤ input := by
  have hrest : (0 : ℚ) < (feeDenominator - fee : ℕ) := by
    exact_mod_cast Nat.sub_pos_of_lt hfee
  rw [← mul_div_assoc, div_le_iff₀ hrest]
  exact_mod_cast lessFee_mul_le h

/-- A fee on an amount is no less than the exact one. -/
theorem mul_fee_le_feeOn (hfee : fee < feeDenominator) (h : feeOn amount fee = .ok charged) :
    amount * fee ≤ charged * (feeDenominator - fee) := by
  obtain ⟨-, -, rfl⟩ := mulDivCeil_eq_ok.mp h
  exact (divCeil_le_iff (Nat.sub_pos_of_lt hfee)).mp le_rfl

/-- What an amount leaves of an input is no less than the exact fee on it where the amount fits into
what the fee leaves. -/
theorem mul_fee_le_rest (hfee : fee < feeDenominator) (hbudget : lessFee input fee = .ok budget)
    (hle : amount ≤ budget) : amount * fee ≤ (input - amount) * (feeDenominator - fee) := by
  have hwhole : amount * feeDenominator ≤ input * (feeDenominator - fee) :=
    le_trans (Nat.mul_le_mul_right _ hle) (lessFee_mul_le hbudget)
  rw [Nat.sub_mul]
  refine Nat.le_sub_of_add_le ?_
  rw [← Nat.mul_add, Nat.add_sub_cancel' hfee.le]
  exact hwhole

/-- An amount that fits into what a fee leaves of an input stays within the input with its own fee
on top. -/
theorem add_feeOn_le (hfee : fee < feeDenominator) (hbudget : lessFee input fee = .ok budget)
    (hle : amount ≤ budget) (hcharged : feeOn amount fee = .ok charged) :
    amount + charged ≤ input := by
  have hinput := le_trans hle (lessFee_le_input hbudget)
  obtain ⟨-, -, rfl⟩ := mulDivCeil_eq_ok.mp hcharged
  have hroom : divCeil (amount * fee) (feeDenominator - fee) ≤ input - amount :=
    (divCeil_le_iff (Nat.sub_pos_of_lt hfee)).mpr (mul_fee_le_rest hfee hbudget hle)
  omega

/-- An amount that does not fit into what a fee leaves of an input covers the input with its own fee
on top. -/
theorem le_add_feeOn (hfee : fee < feeDenominator) (hbudget : lessFee input fee = .ok budget)
    (hlt : budget < amount) (hcharged : feeOn amount fee = .ok charged) :
    input ≤ amount + charged := by
  have hrest : 0 < feeDenominator - fee := Nat.sub_pos_of_lt hfee
  have hceil := mul_fee_le_feeOn hfee hcharged
  obtain ⟨-, -, rfl⟩ := mulDivFloor_eq_ok.mp hbudget
  have hinput : input * (feeDenominator - fee) < amount * feeDenominator := by
    rwa [Nat.div_lt_iff_lt_mul (by decide)] at hlt
  have hwhole : amount * feeDenominator = amount * fee + amount * (feeDenominator - fee) := by
    rw [← Nat.mul_add, Nat.add_sub_cancel' hfee.le]
  refine Nat.le_of_mul_le_mul_right ?_ hrest
  rw [Nat.add_mul]
  omega

/-- A fee leaves no less of more. -/
theorem lessFee_le_lessFee {input' budget' : ℕ} (hle : input ≤ input')
    (h : lessFee input fee = .ok budget) (h' : lessFee input' fee = .ok budget') :
    budget ≤ budget' := by
  obtain ⟨-, -, rfl⟩ := mulDivFloor_eq_ok.mp h
  obtain ⟨-, -, rfl⟩ := mulDivFloor_eq_ok.mp h'
  exact Nat.div_le_div_right (Nat.mul_le_mul_right _ hle)

/-- The fee on more is no less. -/
theorem feeOn_le_feeOn {amount' charged' : ℕ} (hle : amount ≤ amount')
    (h : feeOn amount fee = .ok charged) (h' : feeOn amount' fee = .ok charged') :
    charged ≤ charged' := by
  obtain ⟨-, -, rfl⟩ := mulDivCeil_eq_ok.mp h
  obtain ⟨-, -, rfl⟩ := mulDivCeil_eq_ok.mp h'
  exact divCeil_le_divCeil (Nat.mul_le_mul_right _ hle) _

end RangeBook
