import Mathlib
import RangeBook.Proofs.Tick.Floor

/-!
# The price of a tick is the power it stands for

The square root of price at a tick is `2 ^ 96 * 1.0001 ^ (tick / 2)` up to one part in `2 ^ 40`, and
up to one unit more for the rounding at the end (`sqrtPriceAt_approximates`). The errors are those of
`Proofs.Tick.Ratio`, which leave more room than that. Here they are stated for the power itself
(`exactSqrtPrice_eq_rpow`).

The ratio never grows on the way, for no factor is above one (`decay_le`). So whatever factors have
been taken, the next product has at most 256 bits.
-/

set_option autoImplicit false
set_option relaxedAutoImplicit false

namespace RangeBook

/-! ### The way to the ratio -/

/-- Factors can be taken in two parts: the later ones see the digits that are left. -/
theorem decay_append (before after : List ℕ) (digits ratio : ℕ) :
    decay (before ++ after) digits ratio =
      decay after (digits / twoPow before.length) (decay before digits ratio) := by
  induction before generalizing digits ratio with
  | nil =>
    change decay after digits ratio = decay after (digits / 1) ratio
    rw [Nat.div_one]
  | cons factor before ih =>
    rw [List.cons_append, decay, ih, Nat.div_div_eq_div_mul, ← twoPow_succ before.length,
      List.length_cons, decay]

/-- Factors of at most one in Q128.128 never let a ratio grow. -/
theorem decay_le {factors : List ℕ} (hfactors : ∀ factor ∈ factors, factor ≤ twoPow 128)
    (digits ratio : ℕ) : decay factors digits ratio ≤ ratio := by
  induction factors generalizing digits ratio with
  | nil => exact le_rfl
  | cons factor factors ih =>
    rw [List.forall_mem_cons] at hfactors
    refine le_trans (ih hfactors.2 _ _) ?_
    split
    · refine Nat.div_le_of_le_mul ?_
      rw [mul_comm (twoPow 128)]
      exact Nat.mul_le_mul_left ratio hfactors.1
    · exact le_rfl

theorem lt_of_mem_decayFactors {factor : ℕ} (hmem : factor ∈ decayFactors) :
    factor < twoPow 128 := by
  revert factor
  decide

/-- The product with the next factor fits 256 bits, whatever factors were taken before it. -/
theorem decay_mul_lt {before after : List ℕ} {factor : ℕ}
    (hsplit : decayFactors = before ++ factor :: after) (digits : ℕ) :
    decay before digits (twoPow 128) * factor < twoPow 256 := by
  have hbefore : ∀ other ∈ before, other ≤ twoPow 128 := fun other hmem ↦
    (lt_of_mem_decayFactors (hsplit ▸ List.mem_append_left _ hmem)).le
  have hfactor : factor < twoPow 128 :=
    lt_of_mem_decayFactors (hsplit ▸ List.mem_append_right _ List.mem_cons_self)
  calc decay before digits (twoPow 128) * factor
      ≤ twoPow 128 * factor := Nat.mul_le_mul_right factor (decay_le hbefore _ _)
    _ < twoPow 128 * twoPow 128 := Nat.mul_lt_mul_of_pos_left hfactor (twoPow_pos 128)
    _ = twoPow 256 := (twoPow_add 128 128).symm

/-! ### The power -/

theorem exactSqrtPrice_eq_rpow (tick : ℤ) :
    exactSqrtPrice tick = 2 ^ 96 * (1.0001 : ℝ) ^ ((tick : ℝ) / 2) := by
  rw [exactSqrtPrice, tickBase, Real.sqrt_eq_rpow, ← Real.rpow_intCast,
    ← Real.rpow_mul (by norm_num), one_div_mul_eq_div]

/-- A relative error may be widened. -/
theorem exactSqrtPrice_mul_le {tick : ℤ} {low high : ℝ} (hle : low ≤ high) :
    exactSqrtPrice tick * low ≤ exactSqrtPrice tick * high :=
  mul_le_mul_of_nonneg_left hle (exactSqrtPrice_pos tick).le

/-- Every tick within the bounds has a square root of price, and that is
`2 ^ 96 * 1.0001 ^ (tick / 2)` up to one part in `2 ^ 40`, and up to one unit more from above. On the
way to it each product of the ratio so far with the next factor fits 256 bits, and the ratio that a
positive tick divides by is not zero. -/
theorem sqrtPriceAt_approximates {tick : ℤ} (hmin : minTick ≤ tick) (hmax : tick ≤ maxTick) :
    (∃ price, sqrtPriceAt tick = .ok price ∧
      2 ^ 96 * (1.0001 : ℝ) ^ ((tick : ℝ) / 2) * (1 - 1 / 2 ^ 40) ≤ price ∧
      price ≤ 2 ^ 96 * (1.0001 : ℝ) ^ ((tick : ℝ) / 2) * (1 + 1 / 2 ^ 40) + 1) ∧
    (∀ before factor after, decayFactors = before ++ factor :: after →
      decay decayFactors tick.natAbs (twoPow 128) =
        decay (factor :: after) (tick.natAbs / twoPow before.length)
          (decay before tick.natAbs (twoPow 128)) ∧
      decay before tick.natAbs (twoPow 128) * factor < twoPow 256) ∧
    0 < decay decayFactors tick.natAbs (twoPow 128) := by
  have hreach : tick.natAbs ≤ tickReach := natAbs_le_tickReach (by omega) (by omega)
  refine ⟨⟨tickSqrtPrice tick, sqrtPriceAt_of_bounds hmin hmax, ?_, ?_⟩, ?_, decay_pos hreach⟩
  · rw [← exactSqrtPrice_eq_rpow]
    exact le_trans (exactSqrtPrice_mul_le (by norm_num)) (le_tickSqrtPrice hreach)
  · rw [← exactSqrtPrice_eq_rpow]
    refine le_trans (tickSqrtPrice_le hreach) (add_le_add_left ?_ 1)
    exact exactSqrtPrice_mul_le (by norm_num)
  · intro before factor after hsplit
    exact ⟨by rw [← decay_append, ← hsplit], decay_mul_lt hsplit _⟩

/-- The greatest price is the power of the highest tick, and the last factor is by far the least. -/
theorem sqrtPriceAt_approximates_maxTick :
    sqrtPriceAt maxTick = .ok maxSqrtPrice ∧
      2 ^ 96 * (1.0001 : ℝ) ^ (((maxTick : ℤ) : ℝ) / 2) * (1 - 1 / 2 ^ 40) ≤ maxSqrtPrice ∧
      maxSqrtPrice ≤ 2 ^ 96 * (1.0001 : ℝ) ^ (((maxTick : ℤ) : ℝ) / 2) * (1 + 1 / 2 ^ 40) + 1 ∧
      decay decayFactors.dropLast 887272 (twoPow 128) * 0x48a170391f7dc42444e8fa2 < twoPow 256 := by
  obtain ⟨⟨price, hprice, hlow, hhigh⟩, hproducts, -⟩ :=
    sqrtPriceAt_approximates (show minTick ≤ maxTick by decide) le_rfl
  have hmax : sqrtPriceAt maxTick = .ok maxSqrtPrice := by
    rw [sqrtPriceAt_of_bounds (by decide) le_rfl, tickSqrtPrice_maxTick]
  obtain rfl : price = maxSqrtPrice := Except.ok.inj (hprice.symm.trans hmax)
  exact ⟨hmax, hlow, hhigh, (hproducts decayFactors.dropLast _ [] rfl).2⟩

end RangeBook
