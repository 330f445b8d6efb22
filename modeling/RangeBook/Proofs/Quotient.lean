import Mathlib
import RangeBook.Quotient

/-!
# Exact rounding

A quotient rounded up is compared with an integer exactly as the exact quotient is
(`divCeil_le_iff_div_le`), and a quotient rounded down likewise from below
(`le_div_iff_le_div`). So a proof can go on with exact fractions wherever integers are compared.
-/

set_option autoImplicit false
set_option relaxedAutoImplicit false

namespace RangeBook

theorem twoPow_eq (bits : ℕ) : twoPow bits = 2 ^ bits :=
  rfl

@[simp] theorem cast_twoPow {R : Type} [Semiring R] (bits : ℕ) :
    ((twoPow bits : ℕ) : R) = 2 ^ bits := by
  rw [twoPow_eq, Nat.cast_pow, Nat.cast_ofNat]

variable {dividend divisor bound : ℕ}

theorem divCeil_le_iff_div_le (hdivisor : 0 < divisor) :
    divCeil dividend divisor ≤ bound ↔ (dividend : ℚ) / divisor ≤ bound := by
  rw [divCeil_le_iff hdivisor, div_le_iff₀ (by exact_mod_cast hdivisor)]
  norm_cast

theorem le_div_iff_le_div (hdivisor : 0 < divisor) :
    bound ≤ dividend / divisor ↔ (bound : ℚ) ≤ (dividend : ℚ) / divisor := by
  rw [Nat.le_div_iff_mul_le hdivisor, le_div_iff₀ (by exact_mod_cast hdivisor)]
  norm_cast

/-- A quotient rounded up is at least the exact one. -/
theorem div_le_divCeil (dividend : ℕ) (hdivisor : 0 < divisor) :
    (dividend : ℚ) / divisor ≤ divCeil dividend divisor :=
  (divCeil_le_iff_div_le hdivisor).mp le_rfl

/-- A quotient rounded up is less than one above the exact one. -/
theorem divCeil_lt_div_add_one (dividend : ℕ) (hdivisor : 0 < divisor) :
    (divCeil dividend divisor : ℚ) < (dividend : ℚ) / divisor + 1 := by
  by_contra hge
  have hpos : 1 ≤ divCeil dividend divisor := by
    have hquotient : (0 : ℚ) ≤ (dividend : ℚ) / divisor := by positivity
    have hone : (1 : ℚ) ≤ divCeil dividend divisor := by linarith
    exact_mod_cast hone
  have hbelow : divCeil dividend divisor ≤ divCeil dividend divisor - 1 := by
    rw [divCeil_le_iff_div_le hdivisor, Nat.cast_sub hpos, Nat.cast_one]
    linarith
  omega

/-- There is nothing to round up in a multiple of the divisor. -/
theorem divCeil_mul_self (quotient : ℕ) (hdivisor : 0 < divisor) :
    divCeil (quotient * divisor) divisor = quotient :=
  le_antisymm ((divCeil_le_iff hdivisor).mpr le_rfl)
    (Nat.le_of_mul_le_mul_right ((divCeil_le_iff hdivisor).mp le_rfl) hdivisor)

/-- A rest of at most the divisor is rounded up to one more. -/
theorem divCeil_add_of_pos (quotient : ℕ) {rest : ℕ} (hpos : 0 < rest) (hle : rest ≤ divisor) :
    divCeil (quotient * divisor + rest) divisor = quotient + 1 := by
  have hdivisor : 0 < divisor := lt_of_lt_of_le hpos hle
  refine le_antisymm ((divCeil_le_iff hdivisor).mpr ?_) ?_
  · rw [Nat.add_one_mul]
    exact Nat.add_le_add_left hle _
  · refine Nat.lt_of_mul_lt_mul_right (lt_of_lt_of_le ?_ ((divCeil_le_iff hdivisor).mp le_rfl))
    exact Nat.lt_add_of_pos_right hpos

/-- A quotient rounded up is the one rounded down, and one more where it leaves a rest. -/
theorem divCeil_eq_ite (dividend : ℕ) (hdivisor : 0 < divisor) :
    divCeil dividend divisor =
      if dividend % divisor = 0 then dividend / divisor else dividend / divisor + 1 := by
  have hparts : dividend / divisor * divisor + dividend % divisor = dividend :=
    Nat.div_add_mod' dividend divisor
  by_cases hrest : dividend % divisor = 0
  · rw [if_pos hrest, ← divCeil_mul_self (dividend / divisor) hdivisor]
    rw [hrest, Nat.add_zero] at hparts
    rw [hparts]
  · rw [if_neg hrest, ← divCeil_add_of_pos (dividend / divisor) (Nat.pos_of_ne_zero hrest)
      (Nat.mod_lt dividend hdivisor).le, hparts]

theorem ceil_div (dividend : ℕ) (hdivisor : 0 < divisor) :
    ⌈(dividend : ℚ) / divisor⌉₊ = divCeil dividend divisor :=
  eq_of_forall_ge_iff fun _ ↦ Nat.ceil_le.trans (divCeil_le_iff_div_le hdivisor).symm

/-- Rounding up keeps the order of dividends. -/
theorem divCeil_le_divCeil {less more : ℕ} (hle : less ≤ more) (divisor : ℕ) :
    divCeil less divisor ≤ divCeil more divisor :=
  Nat.div_le_div_right (Nat.add_le_add_right hle _)

/-- A quotient rounded down is at most the exact one. -/
theorem floor_le_div (dividend : ℕ) (hdivisor : 0 < divisor) :
    ((dividend / divisor : ℕ) : ℚ) ≤ (dividend : ℚ) / divisor :=
  (le_div_iff_le_div hdivisor).mp le_rfl

/-- Quotients rounded down add up to no more than the exact sum. -/
theorem sum_div_mul_le (values : List ℕ) (divisor : ℕ) :
    (values.map (· / divisor)).sum * divisor ≤ values.sum := by
  calc (values.map (· / divisor)).sum * divisor
      = (values.map fun value ↦ value / divisor * divisor).sum := (List.sum_map_mul_right ..).symm
    _ ≤ (values.map fun value ↦ value).sum :=
        List.sum_le_sum fun value _ ↦ Nat.div_mul_le_self value divisor
    _ = values.sum := by rw [List.map_id']

/-- Quotients rounded down fall short of the exact sum by at most one each. -/
theorem sum_le_sum_div_mul (values : List ℕ) (hdivisor : 0 < divisor) :
    values.sum ≤ ((values.map (· / divisor)).sum + values.length) * divisor := by
  calc values.sum = (values.map fun value ↦ value).sum := by rw [List.map_id']
    _ ≤ (values.map fun value ↦ (value / divisor + 1) * divisor).sum :=
        List.sum_le_sum fun value _ ↦ (Nat.lt_mul_of_div_lt (Nat.lt_succ_self _) hdivisor).le
    _ = ((values.map (· / divisor)).sum + values.length) * divisor := by
        rw [List.sum_map_mul_right, List.sum_map_add, List.map_const', List.sum_replicate,
          smul_eq_mul, mul_one]

end RangeBook
