import Mathlib
import RangeBook.Proofs.Curve.Room

/-!
# Amounts between any two prices

Liquidity of 128 bits holds less than 224 bits of token zero between any two positive prices, for
the first division takes away what the product with their difference adds, and the second only
divides further (`amountZeroFits`). So the amount of token zero is there for all positive prices of
256 bits, and it is the exact amount with one rounding. The amount of token one grows with the
distance of the prices and may leave 256 bits. It is the exact amount with one rounding as well, and
is rejected where that does not fit (`amount_rounded_once`).
-/

set_option autoImplicit false
set_option relaxedAutoImplicit false

namespace RangeBook.Curve

variable {rounding : Rounding} {low high priceA priceB liquidity result : ℕ}

/-! ### Token zero -/

/-- Whether all that an amount of token zero goes through fits its words: the liquidity in units of
prices, the wide product of it with the difference of the prices, and the two quotients. -/
structure AmountZeroFits (rounding : Rounding) (low high liquidity : ℕ) : Prop where
  units_lt : liquidity * q96 < twoPow 256
  product_lt : liquidity * q96 * (high - low) < twoPow 512
  scaled_lt : quotient rounding (liquidity * q96 * (high - low)) high < twoPow 256
  amount_lt :
    quotient rounding (quotient rounding (liquidity * q96 * (high - low)) high) low < twoPow 256

theorem amountZeroFits (rounding : Rounding) (hlow : 0 < low) (hle : low ≤ high)
    (hhigh : high < twoPow 256) (hliquidity : liquidity < twoPow 128) :
    AmountZeroFits rounding low high liquidity := by
  have hunits : liquidity * q96 < twoPow 256 := lt_trans (mul_q96_lt hliquidity) (by decide)
  have hscaled : quotient rounding (liquidity * q96 * (high - low)) high ≤ liquidity * q96 :=
    quotient_le rounding (lt_of_lt_of_le hlow hle) (Nat.mul_le_mul_left _ (Nat.sub_le _ _))
  refine ⟨hunits, ?_, lt_of_le_of_lt hscaled hunits, lt_of_le_of_lt ?_ hunits⟩
  · calc liquidity * q96 * (high - low) < twoPow 256 * twoPow 256 :=
          Nat.mul_lt_mul'' hunits (lt_of_le_of_lt (Nat.sub_le _ _) hhigh)
      _ = twoPow 512 := (twoPow_add 256 256).symm
  · exact quotient_le rounding hlow (le_trans hscaled (Nat.le_mul_of_pos_right _ hlow))

/-- Between positive prices there is an amount of token zero, and it is the exact one, rounded. -/
theorem amountZero_eq_ok_iff (hliquidity : liquidity < twoPow 128) :
    amount .zero rounding priceA priceB liquidity = .ok result ↔
      0 < min priceA priceB ∧
        result = rounding.round (exactAmount .zero priceA priceB liquidity) := by
  constructor
  · intro h
    exact ⟨(amountZero_eq_ok h).1, amount_eq_round h⟩
  · rintro ⟨hpos, rfl⟩
    obtain ⟨result, h⟩ := (amountZero_failsOnly rounding hliquidity (absurd hpos)).exists_eq_ok
    rw [h, amount_eq_round h]

/-! ### Token one -/

theorem mulDiv_failsOnly (rounding : Rounding) (a b c : ℕ) :
    FailsOnly (· = .rejected .quotientOverflow) (mulDiv rounding a b c) := by
  cases rounding with
  | down => exact .orReject fun _ ↦ rfl
  | up => exact .orReject fun _ ↦ rfl

/-- There is an amount of token one wherever the exact one, rounded, fits 256 bits. -/
theorem amountOne_eq_ok_iff :
    amount .one rounding priceA priceB liquidity = .ok result ↔
      rounding.round (exactAmount .one priceA priceB liquidity) < twoPow 256 ∧
        result = rounding.round (exactAmount .one priceA priceB liquidity) := by
  have hexact : rounding.round (exactAmount .one priceA priceB liquidity) =
      quotient rounding (liquidity * (max priceA priceB - min priceA priceB)) q96 := by
    rw [quotient_eq_round rounding _ q96_pos, ← exactAmount_one_eq min_le_max,
      exactAmount_of_le min_le_max, exactAmount]
  rw [hexact]
  exact mulDiv_eq_ok.trans (and_iff_right q96_pos.ne')

/-! ### Both tokens -/

/-- The amount of token zero between two prices is rejected exactly where one of them is zero.
Everywhere else nothing on the way overflows, and it is the exact amount, rounded once though it is
divided twice. The amount of token one is the exact amount, rounded once, and is rejected exactly
where that does not fit 256 bits. The order of the prices does not matter. -/
theorem amount_rounded_once (hA : priceA < twoPow 256) (hB : priceB < twoPow 256)
    (hliquidity : liquidity < twoPow 128) (rounding : Rounding) :
    (∀ failure, amount .zero rounding priceA priceB liquidity = .error failure ↔
      min priceA priceB = 0 ∧ failure = .rejected .zeroSqrtPrice) ∧
    (0 < min priceA priceB →
      AmountZeroFits rounding (min priceA priceB) (max priceA priceB) liquidity ∧
      amount .zero rounding priceA priceB liquidity =
        .ok (rounding.round
          (liquidity * 2 ^ 96 * |(priceA : ℚ) - priceB| / (priceA * priceB)))) ∧
    (∀ failure, amount .one rounding priceA priceB liquidity = .error failure ↔
      twoPow 256 ≤ rounding.round (liquidity * |(priceA : ℚ) - priceB| / 2 ^ 96) ∧
        failure = .rejected .quotientOverflow) ∧
    ∀ result, amount .one rounding priceA priceB liquidity = .ok result ↔
      rounding.round (liquidity * |(priceA : ℚ) - priceB| / 2 ^ 96) < twoPow 256 ∧
        result = rounding.round (liquidity * |(priceA : ℚ) - priceB| / 2 ^ 96) := by
  rw [← exactAmount_one_eq_abs]
  refine ⟨fun failure ↦ ?_, fun hpos ↦ ?_, fun failure ↦ ?_, fun result ↦ amountOne_eq_ok_iff⟩
  · have hfails : FailsOnly (· = .rejected .zeroSqrtPrice)
        (amount .zero rounding priceA priceB liquidity) :=
      amountZero_failsOnly rounding hliquidity fun _ ↦ rfl
    rw [← Nat.le_zero, ← not_lt]
    exact hfails.eq_error_iff fun result ↦ amountZero_eq_ok_iff hliquidity
  · have hAPos : 0 < priceA := lt_of_lt_of_le hpos (min_le_left _ _)
    have hBPos : 0 < priceB := lt_of_lt_of_le hpos (min_le_right _ _)
    rw [← exactAmount_zero_eq_abs hAPos hBPos]
    exact ⟨amountZeroFits rounding hpos min_le_max (max_lt hA hB) hliquidity,
      (amountZero_eq_ok_iff hliquidity).mpr ⟨hpos, rfl⟩⟩
  · rw [← not_lt]
    exact (mulDiv_failsOnly rounding _ _ _).eq_error_iff fun result ↦ amountOne_eq_ok_iff

/-- Between the prices three and `2 ^ 256 - 1` the greatest liquidity holds an amount of token zero
that is not whole and an amount of token one that does not fit. -/
theorem amount_rounded_once_widestPrices :
    amount .zero .up (twoPow 256 - 1) 3 (twoPow 128 - 1) =
      .ok 8986648889050213264889005029006543557852638753342102714503355432960 ∧
    Rounding.up.round (((twoPow 128 - 1 : ℕ) : ℚ) * 2 ^ 96 *
        |((twoPow 256 - 1 : ℕ) : ℚ) - (3 : ℕ)| / ((twoPow 256 - 1 : ℕ) * (3 : ℕ))) =
      8986648889050213264889005029006543557852638753342102714503355432960 ∧
    Rounding.down.round (((twoPow 128 - 1 : ℕ) : ℚ) * 2 ^ 96 *
        |((twoPow 256 - 1 : ℕ) : ℚ) - (3 : ℕ)| / ((twoPow 256 - 1 : ℕ) * (3 : ℕ))) =
      8986648889050213264889005029006543557852638753342102714503355432959 ∧
    twoPow 256 ≤ Rounding.up.round (((twoPow 128 - 1 : ℕ) : ℚ) *
      |((twoPow 256 - 1 : ℕ) : ℚ) - (3 : ℕ)| / 2 ^ 96) := by
  have hup : amount .zero .up (twoPow 256 - 1) 3 (twoPow 128 - 1) =
      .ok 8986648889050213264889005029006543557852638753342102714503355432960 := by decide +kernel
  have hdown : amount .zero .down (twoPow 256 - 1) 3 (twoPow 128 - 1) =
      .ok 8986648889050213264889005029006543557852638753342102714503355432959 := by decide +kernel
  have hone : amount .one .up (twoPow 256 - 1) 3 (twoPow 128 - 1) =
      .error (.rejected .quotientOverflow) := by decide +kernel
  have hexact := amount_rounded_once (show twoPow 256 - 1 < twoPow 256 by decide)
    (show 3 < twoPow 256 by decide) (show twoPow 128 - 1 < twoPow 128 by decide)
  obtain ⟨-, hzeroUp, hrejected, -⟩ := hexact .up
  obtain ⟨-, hzeroDown, -⟩ := hexact .down
  exact ⟨hup, Except.ok.inj ((hzeroUp (by decide)).2.symm.trans hup),
    Except.ok.inj ((hzeroDown (by decide)).2.symm.trans hdown), ((hrejected _).mp hone).1⟩

end RangeBook.Curve
