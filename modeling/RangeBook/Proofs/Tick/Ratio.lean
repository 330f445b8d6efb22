import Mathlib
import RangeBook.Proofs.Quotient
import RangeBook.Tick.SqrtPrice

/-!
# How close the square root of price at a tick is to its power

The square root of price at a tick stands for `2 ^ 96 * 1.0001 ^ (tick / 2)`. It is computed from
a table of factors, each nearly the square of the one before, by a product that is cut off after
every factor. The errors add up: those of the table triple from one factor to the next at most
(`IsNearInverse.square`), and each cut costs one unit in the last place of a product that stays
above `2 ^ 63` (`mul_pow_decay_le`, `le_mul_pow_decay`). For all ticks that a pool can come near,
`tickSqrtPrice` is then within one part in `2 ^ 56` and one unit of the exact value
(`le_tickSqrtPrice`, `tickSqrtPrice_le`), and it grows strictly with the tick
(`tickSqrtPrice_lt_succ`).
-/

set_option autoImplicit false
set_option relaxedAutoImplicit false

namespace RangeBook

/-- The ratio of the square roots of price at two neighbouring ticks. -/
noncomputable def tickBase : ℝ :=
  Real.sqrt 1.0001

theorem tickBase_sq : tickBase ^ 2 = 1.0001 :=
  Real.sq_sqrt (by norm_num)

theorem lt_tickBase : 1.00004 < tickBase :=
  Real.lt_sqrt_of_sq_lt (by norm_num)

theorem one_le_tickBase : 1 ≤ tickBase :=
  le_trans (by norm_num) lt_tickBase.le

theorem tickBase_pos : 0 < tickBase :=
  lt_of_lt_of_le one_pos one_le_tickBase

/-! ### The table of factors -/

/-- The factor is the inverse of the base in Q128, up to a relative error. -/
def IsNearInverse (base error : ℝ) (factor : ℕ) : Prop :=
  |factor * base / 2 ^ 128 - 1| ≤ error

/-- The second factor is the square of the first in Q128, up to one part in `2 ^ 91`. -/
def IsNearSquare (factor next : ℕ) : Prop :=
  |(next : ℤ) * 2 ^ 128 - (factor : ℤ) ^ 2| * 2 ^ 91 ≤ (factor : ℤ) ^ 2

instance (factor next : ℕ) : Decidable (IsNearSquare factor next) :=
  inferInstanceAs (Decidable (_ ≤ _))

theorem isChain_decayFactors : decayFactors.IsChain IsNearSquare := by
  decide +kernel

theorem IsNearSquare.abs_ratio_le {factor next : ℕ} (h : IsNearSquare factor next)
    (hfactor : 0 < factor) : |next * 2 ^ 128 / (factor : ℝ) ^ 2 - 1| ≤ 1 / 2 ^ 91 := by
  have hpos : (0 : ℝ) < factor := by exact_mod_cast hfactor
  have hsquare : |(next : ℝ) * 2 ^ 128 - (factor : ℝ) ^ 2| * 2 ^ 91 ≤ (factor : ℝ) ^ 2 := by
    have hcast := (Int.cast_le (R := ℝ)).mpr h
    simpa only [Int.cast_mul, Int.cast_abs, Int.cast_sub, Int.cast_pow, Int.cast_natCast,
      Int.cast_ofNat] using hcast
  have heq : next * 2 ^ 128 / (factor : ℝ) ^ 2 - 1 =
      (next * 2 ^ 128 - factor ^ 2) / factor ^ 2 := by
    field_simp
  rw [heq, abs_div, abs_of_pos (by positivity : (0 : ℝ) < (factor : ℝ) ^ 2),
    div_le_iff₀ (by positivity), one_div_mul_eq_div, le_div_iff₀ (by positivity)]
  exact hsquare

/-- A square has twice the relative error, and the error of its rounding on top. -/
theorem abs_mul_sq_sub_one_le {ratio value error : ℝ} (hratio : |ratio - 1| ≤ error / 2)
    (hvalue : |value - 1| ≤ error) (hsmall : error ≤ 1 / 8) :
    |ratio * value ^ 2 - 1| ≤ 3 * error := by
  have hnonneg : 0 ≤ error := le_trans (abs_nonneg _) hvalue
  obtain ⟨hratiolow, hratiohigh⟩ := abs_le.mp hratio
  obtain ⟨hlow, hhigh⟩ := abs_le.mp hvalue
  have hsquarelow : (1 - error) ^ 2 ≤ value ^ 2 := by
    apply pow_le_pow_left₀ <;> linarith
  have hsquarehigh : value ^ 2 ≤ (1 + error) ^ 2 := by
    apply pow_le_pow_left₀ <;> linarith
  rw [abs_le]
  constructor
  · have hmul : (1 - error / 2) * (1 - error) ^ 2 ≤ ratio * value ^ 2 := by
      apply mul_le_mul _ hsquarelow (by positivity) <;> linarith
    have hexpand : (1 - error / 2) * (1 - error) ^ 2 =
        1 - 3 * error + error * (1 / 2 + error * (2 - error / 2)) := by ring
    have hrest : 0 ≤ error * (1 / 2 + error * (2 - error / 2)) :=
      mul_nonneg hnonneg (add_nonneg (by norm_num) (mul_nonneg hnonneg (by linarith)))
    linarith
  · have hmul : ratio * value ^ 2 ≤ (1 + error / 2) * (1 + error) ^ 2 := by
      apply mul_le_mul _ hsquarehigh (by positivity) <;> linarith
    have hexpand : (1 + error / 2) * (1 + error) ^ 2 =
        1 + 3 * error - error * (1 / 2 - error * (2 + error / 2)) := by ring
    have hrest : 0 ≤ error * (1 / 2 - error * (2 + error / 2)) := by
      apply mul_nonneg hnonneg
      nlinarith
    linarith

/-- Squaring the base and the factor at most triples the error. -/
theorem IsNearInverse.square {base error : ℝ} {factor next : ℕ}
    (h : IsNearInverse base error factor) (hnext : IsNearSquare factor next)
    (hfactor : 0 < factor) (herror : 1 / 2 ^ 90 ≤ error) (hsmall : error ≤ 1 / 8) :
    IsNearInverse (base ^ 2) (3 * error) next := by
  have hpos : (0 : ℝ) < factor := by exact_mod_cast hfactor
  have hratio : |next * 2 ^ 128 / (factor : ℝ) ^ 2 - 1| ≤ error / 2 :=
    le_trans (hnext.abs_ratio_le hfactor) (by linarith)
  have hproduct : (next : ℝ) * base ^ 2 / 2 ^ 128 =
      next * 2 ^ 128 / (factor : ℝ) ^ 2 * (factor * base / 2 ^ 128) ^ 2 := by
    field_simp
  rw [IsNearInverse, hproduct]
  exact abs_mul_sq_sub_one_le hratio h hsmall

/-- A ratio times a factor, cut off to an integer, is not much above the ratio over the base. -/
theorem IsNearInverse.cut_mul_le {base error : ℝ} {factor : ℕ}
    (h : IsNearInverse base error factor) (hbase : 0 ≤ base) (ratio : ℕ) :
    ((ratio * factor / twoPow 128 : ℕ) : ℝ) * base ≤ ratio * (1 + error) := by
  have hnear := (abs_le.mp h).2
  have hfloor : ((ratio * factor / twoPow 128 : ℕ) : ℝ) ≤ ratio * factor / 2 ^ 128 := by
    have hcast := @Nat.cast_div_le ℝ _ _ _ (ratio * factor) (twoPow 128)
    rwa [Nat.cast_mul, cast_twoPow] at hcast
  calc ((ratio * factor / twoPow 128 : ℕ) : ℝ) * base
      ≤ ratio * factor / 2 ^ 128 * base := mul_le_mul_of_nonneg_right hfloor hbase
    _ = ratio * (factor * base / 2 ^ 128) := by ring
    _ ≤ ratio * (1 + error) := mul_le_mul_of_nonneg_left (by linarith) (Nat.cast_nonneg ratio)

/-- Nor is it much below that: what is cut off is less than one unit. -/
theorem IsNearInverse.le_cut_mul {base error : ℝ} {factor : ℕ}
    (h : IsNearInverse base error factor) (hbase : 0 ≤ base) (ratio : ℕ) :
    ratio * (1 - error) ≤ ((ratio * factor / twoPow 128 : ℕ) + 1) * base := by
  have hnear := (abs_le.mp h).1
  have hceil : (ratio : ℝ) * factor / 2 ^ 128 ≤ (ratio * factor / twoPow 128 : ℕ) + 1 := by
    have hlt := Nat.lt_div_mul_add (a := ratio * factor) (twoPow_pos 128)
    rw [div_le_iff₀ (by positivity), add_one_mul, ← cast_twoPow]
    exact_mod_cast hlt.le
  calc ratio * (1 - error)
      ≤ ratio * (factor * base / 2 ^ 128) :=
        mul_le_mul_of_nonneg_left (by linarith) (Nat.cast_nonneg ratio)
    _ = ratio * factor / 2 ^ 128 * base := by ring
    _ ≤ ((ratio * factor / twoPow 128 : ℕ) + 1) * base := mul_le_mul_of_nonneg_right hceil hbase

/-- The first factor of the table stands for one tick. -/
theorem isNearInverse_first :
    IsNearInverse tickBase (1 / 2 ^ 90) 0xfffcb933bd6fad37aa2d162d1a594001 := by
  have hpos := tickBase_pos
  set value := ((0xfffcb933bd6fad37aa2d162d1a594001 : ℕ) : ℝ) * tickBase / 2 ^ 128 with hvalue
  have hsq : |value ^ 2 - 1| ≤ 1 / 2 ^ 90 := by
    rw [hvalue, div_pow, mul_pow, tickBase_sq, abs_le]
    constructor <;> norm_num
  have hnonneg : 0 ≤ value := by positivity
  have hfactored : |value ^ 2 - 1| = |value - 1| * (value + 1) := by
    rw [← abs_of_nonneg (by linarith : 0 ≤ value + 1), ← abs_mul]
    ring_nf
  have hle : |value - 1| ≤ |value - 1| * (value + 1) :=
    le_mul_of_one_le_right (abs_nonneg _) (by linarith)
  exact le_trans hle (hfactored ▸ hsq)

/-! ### Products of factors -/

theorem pow_digits (base : ℝ) (digits : ℕ) :
    base ^ digits = base ^ (digits % 2) * (base ^ 2) ^ (digits / 2) := by
  rw [← pow_mul, ← pow_add, Nat.mod_add_div]

/-- The largest relative error of a product of so many factors of a table. -/
noncomputable def productError (length : ℕ) (error : ℝ) : ℝ :=
  (3 ^ length - 1) * error

theorem productError_succ (length : ℕ) (error : ℝ) :
    productError (length + 1) error = productError length (3 * error) + 2 * error := by
  rw [productError, productError, pow_succ]
  ring

theorem productError_nonneg (length : ℕ) {error : ℝ} (herror : 0 ≤ error) :
    0 ≤ productError length error :=
  mul_nonneg (sub_nonneg.mpr (one_le_pow₀ (by norm_num))) herror

/-- A table of factors: the first is near the inverse of the base, and each is near the square of
the one before. -/
structure IsDecayTable (base error : ℝ) (factors : List ℕ) : Prop where
  base_ge : 1 ≤ base
  error_ge : 1 / 2 ^ 90 ≤ error
  error_le : productError factors.length error ≤ 1 / 8
  positive : ∀ factor ∈ factors, 0 < factor
  chain : factors.IsChain IsNearSquare
  first : ∀ factor ∈ factors.head?, IsNearInverse base error factor

namespace IsDecayTable

variable {base error : ℝ} {factor : ℕ} {factors : List ℕ}

theorem error_pos (h : IsDecayTable base error factors) : 0 < error :=
  lt_of_lt_of_le (by positivity) h.error_ge

theorem tail_error_le (h : IsDecayTable base error (factor :: factors)) :
    productError factors.length (3 * error) + 2 * error ≤ 1 / 8 := by
  have hle := h.error_le
  rwa [List.length_cons, productError_succ] at hle

/-- Without its first factor a table is a table for the square of the base. -/
theorem tail (h : IsDecayTable base error (factor :: factors)) :
    IsDecayTable (base ^ 2) (3 * error) factors where
  base_ge := one_le_pow₀ h.base_ge
  error_ge := le_trans h.error_ge (by linarith [h.error_pos])
  error_le := by linarith [h.tail_error_le, h.error_pos]
  positive := fun other hother ↦ h.positive other (List.mem_cons_of_mem _ hother)
  chain := h.chain.tail
  first := by
    intro next hnext
    have hsmall : error ≤ 1 / 8 := by
      have hle := h.tail_error_le
      have hnonneg := productError_nonneg factors.length (mul_pos three_pos h.error_pos).le
      linarith [h.error_pos]
    refine (h.first factor rfl).square ?_ (h.positive factor List.mem_cons_self) h.error_ge hsmall
    cases factors with
    | nil => exact absurd hnext (by simp)
    | cons head rest =>
      rw [List.head?_cons, Option.mem_some_iff] at hnext
      subst hnext
      exact (List.isChain_cons_cons.mp h.chain).1

/-- A product of factors is not much above the power that it stands for. -/
theorem mul_pow_decay_le {factors : List ℕ} : ∀ {base error : ℝ}, IsDecayTable base error factors →
    ∀ {digits : ℕ} (ratio : ℕ), digits < 2 ^ factors.length →
      decay factors digits ratio * base ^ digits ≤
        ratio * (1 + productError factors.length error) := by
  induction factors with
  | nil =>
    intro base error h digits ratio hdigits
    obtain rfl : digits = 0 := by simpa using hdigits
    simp [decay, productError]
  | cons factor factors ih =>
    intro base error h digits ratio hdigits
    have herror := h.error_pos
    have hbase := h.base_ge
    have htail : digits / 2 < 2 ^ factors.length := by
      rw [List.length_cons, pow_succ] at hdigits
      omega
    have hrest := productError_nonneg factors.length (mul_pos three_pos herror).le
    have hsmall := h.tail_error_le
    rw [decay, List.length_cons, productError_succ, pow_digits, mul_left_comm]
    by_cases hdigit : digits % 2 = 1
    · rw [if_pos hdigit, hdigit, pow_one]
      have hcut := (h.first factor rfl).cut_mul_le (zero_le_one.trans hbase) ratio
      calc base * (decay factors (digits / 2) (ratio * factor / twoPow 128) *
            (base ^ 2) ^ (digits / 2))
          ≤ base * ((ratio * factor / twoPow 128 : ℕ) *
              (1 + productError factors.length (3 * error))) :=
            mul_le_mul_of_nonneg_left (ih h.tail _ htail) (by linarith)
        _ = ((ratio * factor / twoPow 128 : ℕ) * base) *
              (1 + productError factors.length (3 * error)) := by ring
        _ ≤ ratio * (1 + error) * (1 + productError factors.length (3 * error)) :=
            mul_le_mul_of_nonneg_right hcut (by linarith)
        _ ≤ ratio * (1 + (productError factors.length (3 * error) + 2 * error)) := by
            rw [mul_assoc]
            apply mul_le_mul_of_nonneg_left _ (by positivity)
            nlinarith
    · have hzero : digits % 2 = 0 := by omega
      rw [if_neg hdigit, hzero, pow_zero, one_mul]
      refine le_trans (ih h.tail _ htail) (mul_le_mul_of_nonneg_left ?_ (by positivity))
      linarith

/-- A product of factors is not much below the power that it stands for: apart from the errors of
the table, each factor cuts off less than one. -/
theorem le_mul_pow_decay {factors : List ℕ} : ∀ {base error : ℝ}, IsDecayTable base error factors →
    ∀ {digits : ℕ} (ratio : ℕ), digits < 2 ^ factors.length →
      ratio * (1 - productError factors.length error) ≤
        (decay factors digits ratio + factors.length) * base ^ digits := by
  induction factors with
  | nil =>
    intro base error h digits ratio hdigits
    obtain rfl : digits = 0 := by simpa using hdigits
    simp [decay, productError]
  | cons factor factors ih =>
    intro base error h digits ratio hdigits
    have herror := h.error_pos
    have hbase := h.base_ge
    have htail : digits / 2 < 2 ^ factors.length := by
      rw [List.length_cons, pow_succ] at hdigits
      omega
    have hrest := productError_nonneg factors.length (mul_pos three_pos herror).le
    have hsmall := h.tail_error_le
    have hpower : 1 ≤ (base ^ 2) ^ (digits / 2) := one_le_pow₀ h.tail.base_ge
    rw [decay, List.length_cons, productError_succ, pow_digits, mul_left_comm]
    by_cases hdigit : digits % 2 = 1
    · rw [if_pos hdigit, hdigit, pow_one]
      have hcut := (h.first factor rfl).le_cut_mul (zero_le_one.trans hbase) ratio
      have hinner := ih h.tail (ratio * factor / twoPow 128) htail
      set next := ratio * factor / twoPow 128
      set lost := productError factors.length (3 * error)
      calc ratio * (1 - (lost + 2 * error))
          ≤ ratio * ((1 - error) * (1 - lost)) := by
            apply mul_le_mul_of_nonneg_left _ (by positivity)
            nlinarith
        _ ≤ (next + 1) * base * (1 - lost) := by
            rw [← mul_assoc]
            exact mul_le_mul_of_nonneg_right hcut (by linarith)
        _ = base * (next * (1 - lost)) + base * (1 - lost) := by ring
        _ ≤ base * ((decay factors (digits / 2) next + factors.length) *
              (base ^ 2) ^ (digits / 2)) + base * (base ^ 2) ^ (digits / 2) := by
            apply add_le_add
            · exact mul_le_mul_of_nonneg_left hinner (by linarith)
            · exact mul_le_mul_of_nonneg_left (by linarith) (by linarith)
        _ = base * ((decay factors (digits / 2) next + (factors.length + 1 : ℕ)) *
              (base ^ 2) ^ (digits / 2)) := by
            push_cast
            ring
    · have hzero : digits % 2 = 0 := by omega
      rw [if_neg hdigit, hzero, pow_zero, one_mul]
      calc ratio * (1 - (productError factors.length (3 * error) + 2 * error))
          ≤ ratio * (1 - productError factors.length (3 * error)) :=
            mul_le_mul_of_nonneg_left (by linarith) (by positivity)
        _ ≤ (decay factors (digits / 2) ratio + factors.length) *
              (base ^ 2) ^ (digits / 2) := ih h.tail _ htail
        _ ≤ (decay factors (digits / 2) ratio + (factors.length + 1 : ℕ)) *
              (base ^ 2) ^ (digits / 2) := by
            apply mul_le_mul_of_nonneg_right _ (by positivity)
            push_cast
            linarith

end IsDecayTable

/-! ### Ratios and prices of ticks -/

theorem isDecayTable_decayFactors : IsDecayTable tickBase (1 / 2 ^ 90) decayFactors where
  base_ge := one_le_tickBase
  error_ge := le_rfl
  error_le := by
    rw [productError, show decayFactors.length = 20 from rfl]
    norm_num
  positive := by decide
  chain := isChain_decayFactors
  first := by
    intro factor hfactor
    obtain rfl := Option.mem_some_iff.mp hfactor
    exact isNearInverse_first

/-- How far from zero the ticks reach for which the errors are bounded. -/
def tickReach : ℕ := 887273

/-- Over the ticks in reach the square root of price stays within a factor of `2 ^ 65`. -/
theorem tickBase_pow_le {digits : ℕ} (h : digits ≤ tickReach) : tickBase ^ digits ≤ 2 ^ 65 := by
  have hexp : (1.0001 : ℝ) ≤ Real.exp 0.0001 := by
    have hadd := Real.add_one_le_exp (0.0001 : ℝ)
    norm_num at hadd ⊢
    exact hadd
  have hhalf : tickBase ^ digits ≤ tickBase ^ (2 * 443637) :=
    pow_le_pow_right₀ one_le_tickBase (le_trans h (by decide))
  calc tickBase ^ digits
      ≤ (tickBase ^ 2) ^ 443637 := by rwa [← pow_mul]
    _ ≤ Real.exp 0.0001 ^ 443637 := by
        rw [tickBase_sq]
        exact pow_le_pow_left₀ (by norm_num) hexp _
    _ = Real.exp (443637 * 0.0001) := by
        rw [← Real.exp_nat_mul]
        norm_num
    _ ≤ Real.exp 45 := Real.exp_le_exp.mpr (by norm_num)
    _ = Real.exp 1 ^ 45 := by
        rw [← Real.exp_nat_mul]
        norm_num
    _ ≤ 2.7182818286 ^ 45 := pow_le_pow_left₀ (Real.exp_pos 1).le Real.exp_one_lt_d9.le _
    _ ≤ 2 ^ 65 := by norm_num

/-- The product of factors for a distance in reach, against the power that it stands for. -/
theorem abs_decay_mul_pow_sub_le {digits : ℕ} (h : digits ≤ tickReach) :
    |decay decayFactors digits (twoPow 128) * tickBase ^ digits - 2 ^ 128| ≤ 2 ^ 71 := by
  have hlt : digits < 2 ^ decayFactors.length := lt_of_le_of_lt h (by decide)
  have hlow := isDecayTable_decayFactors.le_mul_pow_decay (twoPow 128) hlt
  have hhigh := isDecayTable_decayFactors.mul_pow_decay_le (twoPow 128) hlt
  have hpower := tickBase_pow_le h
  rw [productError, show decayFactors.length = 20 from rfl, cast_twoPow] at hlow hhigh
  rw [add_mul] at hlow
  rw [abs_le]
  set product := (decay decayFactors digits (twoPow 128) : ℝ) * tickBase ^ digits
  constructor
  · norm_num at hlow hpower ⊢
    linarith
  · norm_num at hhigh ⊢
    linarith

theorem decay_pos {digits : ℕ} (h : digits ≤ tickReach) :
    0 < decay decayFactors digits (twoPow 128) := by
  have hlow := (abs_le.mp (abs_decay_mul_pow_sub_le h)).1
  by_contra hzero
  rw [Nat.eq_zero_of_not_pos hzero] at hlow
  norm_num at hlow

/-- The inverse of a product near `2 ^ 128` over a power is as near to `2 ^ 128` times the power. -/
theorem abs_inverse_sub_le {product : ℕ} {power : ℝ} (hpos : 0 < product) (hpower : 1 ≤ power)
    (h : |product * power - 2 ^ 128| ≤ 2 ^ 71) :
    |(((twoPow 256 - 1) / product : ℕ) : ℝ) - 2 ^ 128 * power| ≤ 2 ^ 72 * power := by
  obtain ⟨hbelow, habove⟩ := abs_le.mp h
  have hfloor : (twoPow 256 - 1) / product * product ≤ 2 ^ 256 := by
    have hle := Nat.div_mul_le_self (twoPow 256 - 1) product
    rw [twoPow_eq] at hle ⊢
    omega
  have hceil : 2 ^ 256 ≤ ((twoPow 256 - 1) / product + 1) * product := by
    have hlt := Nat.lt_div_mul_add (a := twoPow 256 - 1) hpos
    rw [← Nat.add_one_mul, twoPow_eq] at hlt
    rw [twoPow_eq]
    omega
  set quotient := (twoPow 256 - 1) / product
  have hfloor' : (quotient : ℝ) * product ≤ 2 ^ 256 := by exact_mod_cast hfloor
  have hceil' : (2 : ℝ) ^ 256 ≤ (quotient + 1) * product := by exact_mod_cast hceil
  have hhigh : (quotient : ℝ) * (2 ^ 128 - 2 ^ 71) ≤ 2 ^ 256 * power := by
    calc (quotient : ℝ) * (2 ^ 128 - 2 ^ 71)
        ≤ quotient * (product * power) :=
          mul_le_mul_of_nonneg_left (by linarith) (Nat.cast_nonneg quotient)
      _ = quotient * product * power := by ring
      _ ≤ 2 ^ 256 * power := mul_le_mul_of_nonneg_right hfloor' (by linarith)
  have hlow : 2 ^ 256 * power ≤ (quotient + 1) * (2 ^ 128 + 2 ^ 71) := by
    calc 2 ^ 256 * power
        ≤ (quotient + 1) * product * power := mul_le_mul_of_nonneg_right hceil' (by linarith)
      _ = (quotient + 1) * (product * power) := by ring
      _ ≤ (quotient + 1) * (2 ^ 128 + 2 ^ 71) :=
          mul_le_mul_of_nonneg_left (by linarith) (by positivity)
  rw [abs_le]
  constructor <;> nlinarith

/-- The ratio of a tick in reach is within one part in `2 ^ 56` of the power that it stands for. -/
theorem abs_tickRatio_sub_le {tick : ℤ} (h : tick.natAbs ≤ tickReach) :
    |(tickRatio tick : ℝ) - 2 ^ 128 * tickBase ^ tick| ≤ 2 ^ 72 * tickBase ^ tick := by
  have hnear := abs_decay_mul_pow_sub_le h
  have hpower : (1 : ℝ) ≤ tickBase ^ tick.natAbs := one_le_pow₀ one_le_tickBase
  rw [tickRatio]
  by_cases hsign : 0 < tick
  · have htick : tickBase ^ tick = tickBase ^ tick.natAbs := by
      rw [← zpow_natCast, Int.natAbs_of_nonneg hsign.le]
    rw [if_pos hsign, htick]
    exact abs_inverse_sub_le (decay_pos h) hpower hnear
  · have htick : tickBase ^ tick = (tickBase ^ tick.natAbs)⁻¹ := by
      rw [← zpow_natCast, ← zpow_neg]
      congr 1
      omega
    rw [if_neg hsign, htick]
    set product := decay decayFactors tick.natAbs (twoPow 128)
    set power := tickBase ^ tick.natAbs
    have heq : (product : ℝ) - 2 ^ 128 * power⁻¹ = (product * power - 2 ^ 128) * power⁻¹ := by
      field_simp
    rw [heq, abs_mul, abs_of_pos (inv_pos.mpr (lt_of_lt_of_le one_pos hpower))]
    apply mul_le_mul_of_nonneg_right _ (by positivity)
    exact le_trans hnear (by norm_num)

/-- The exact square root of price at a tick in Q64.96. -/
noncomputable def exactSqrtPrice (tick : ℤ) : ℝ :=
  2 ^ 96 * tickBase ^ tick

theorem exactSqrtPrice_pos (tick : ℤ) : 0 < exactSqrtPrice tick :=
  mul_pos (by positivity) (zpow_pos tickBase_pos tick)

theorem exactSqrtPrice_succ (tick : ℤ) :
    exactSqrtPrice (tick + 1) = exactSqrtPrice tick * tickBase := by
  rw [exactSqrtPrice, exactSqrtPrice, zpow_add_one₀ tickBase_pos.ne', mul_assoc]

theorem divCeil_cast_bounds (dividend divisor : ℕ) (hdivisor : 0 < divisor) :
    (dividend : ℝ) / divisor ≤ divCeil dividend divisor ∧
      (divCeil dividend divisor : ℝ) < dividend / divisor + 1 := by
  have hle := (Rat.cast_le (K := ℝ)).mpr (div_le_divCeil dividend hdivisor)
  have hlt := (Rat.cast_lt (K := ℝ)).mpr (divCeil_lt_div_add_one dividend hdivisor)
  push_cast at hle hlt
  exact ⟨hle, hlt⟩

/-- The square root of price at a tick in reach is not much below its exact value. -/
theorem le_tickSqrtPrice {tick : ℤ} (h : tick.natAbs ≤ tickReach) :
    exactSqrtPrice tick * (1 - 1 / 2 ^ 56) ≤ tickSqrtPrice tick := by
  have hratio := (abs_le.mp (abs_tickRatio_sub_le h)).1
  have hceil := (divCeil_cast_bounds (tickRatio tick) (twoPow 32) (twoPow_pos 32)).1
  rw [cast_twoPow] at hceil
  rw [tickSqrtPrice, exactSqrtPrice]
  refine le_trans ?_ hceil
  rw [le_div_iff₀ (by positivity)]
  linarith

/-- The square root of price at a tick in reach is less than one unit above its exact value, up to
the relative error. -/
theorem tickSqrtPrice_le {tick : ℤ} (h : tick.natAbs ≤ tickReach) :
    tickSqrtPrice tick ≤ exactSqrtPrice tick * (1 + 1 / 2 ^ 56) + 1 := by
  have hratio := (abs_le.mp (abs_tickRatio_sub_le h)).2
  have hceil := (divCeil_cast_bounds (tickRatio tick) (twoPow 32) (twoPow_pos 32)).2
  rw [cast_twoPow] at hceil
  rw [tickSqrtPrice, exactSqrtPrice]
  refine le_trans hceil.le (add_le_add_left ?_ 1)
  rw [div_le_iff₀ (by positivity)]
  linarith

/-- In reach the exact square root of price stays above `2 ^ 31`. -/
theorem le_exactSqrtPrice {tick : ℤ} (h : tick.natAbs ≤ tickReach) :
    2 ^ 31 ≤ exactSqrtPrice tick := by
  have hpower := tickBase_pow_le h
  have hinverse : (tickBase ^ tick.natAbs)⁻¹ ≤ tickBase ^ tick := by
    rw [← zpow_natCast, ← zpow_neg]
    exact zpow_le_zpow_right₀ one_le_tickBase (by omega)
  have hle : (2 ^ 65 : ℝ)⁻¹ ≤ (tickBase ^ tick.natAbs)⁻¹ :=
    inv_anti₀ (pow_pos tickBase_pos _) hpower
  rw [exactSqrtPrice]
  calc (2 : ℝ) ^ 31 = 2 ^ 96 * (2 ^ 65)⁻¹ := by norm_num
    _ ≤ 2 ^ 96 * tickBase ^ tick :=
        mul_le_mul_of_nonneg_left (le_trans hle hinverse) (by positivity)

/-- The square root of price grows strictly with the tick. -/
theorem tickSqrtPrice_lt_succ {tick : ℤ} (h : tick.natAbs ≤ tickReach)
    (hnext : (tick + 1).natAbs ≤ tickReach) : tickSqrtPrice tick < tickSqrtPrice (tick + 1) := by
  have hlow := le_tickSqrtPrice hnext
  have hhigh := tickSqrtPrice_le h
  have hlarge := le_exactSqrtPrice h
  have hbase := lt_tickBase
  rw [exactSqrtPrice_succ] at hlow
  have hgap : exactSqrtPrice tick * 1.00004 ≤ exactSqrtPrice tick * tickBase :=
    mul_le_mul_of_nonneg_left hbase.le (exactSqrtPrice_pos tick).le
  have hlt : (tickSqrtPrice tick : ℝ) < tickSqrtPrice (tick + 1) := by
    norm_num at hlow hhigh hlarge hgap
    linarith
  exact_mod_cast hlt

/-- Over the ticks in reach the square root of price is strictly monotone. -/
theorem tickSqrtPrice_lt {low high : ℤ} (hlow : low.natAbs ≤ tickReach)
    (hhigh : high.natAbs ≤ tickReach) (h : low < high) :
    tickSqrtPrice low < tickSqrtPrice high := by
  induction high, (show low + 1 ≤ high by omega) using Int.leInduction with
  | base => exact tickSqrtPrice_lt_succ hlow hhigh
  | succ tick hle ih =>
    have hbetween : tick.natAbs ≤ tickReach := by omega
    exact lt_trans (ih hbetween (by omega)) (tickSqrtPrice_lt_succ hbetween hhigh)

end RangeBook
