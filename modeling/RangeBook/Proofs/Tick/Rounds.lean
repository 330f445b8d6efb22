import Mathlib
import RangeBook.Proofs.Tick.Logarithm

/-!
# The rounds of the logarithm stay within a word

The halving search gives every nonzero word the index of its most significant bit. Shifted by it, the
ratio of a price becomes a mantissa, and so is what each round of squaring leaves
(`IsMantissa.after`). So no square has more than 256 bits (`IsMantissa.mul_self_lt`), and each round
gives one binary digit (`IsMantissa.digit_le_one`). The logarithm is made of these digits, each at a
place of its own (`logTwo_eq_sum`). `logRounds_keep_mantissa` says all this of the way from a price to
its tick.
-/

set_option autoImplicit false
set_option relaxedAutoImplicit false

namespace RangeBook

/-! ### The most significant bit -/

theorem mostSignificantBit_of_pos {amount : ℕ} (hpos : 0 < amount) :
    mostSignificantBit amount = .ok (topBit amount) :=
  if_neg hpos.ne'

/-- The index of the most significant bit of a word fits 8 bits. -/
theorem topBit_lt {amount : ℕ} (hpos : 0 < amount) (hbits : amount < twoPow 256) :
    topBit amount < 256 := by
  have hlt : twoPow (topBit amount) < twoPow 256 := (twoPow_topBit_le hpos hbits).trans_lt hbits
  rw [twoPow_eq, twoPow_eq] at hlt
  exact (Nat.pow_lt_pow_iff_right Nat.one_lt_two).mp hlt

/-! ### One round after the other -/

/-- The mantissa that so many rounds leave. -/
def logMantissaAfter (rounds mantissa : ℕ) : ℕ :=
  (fun current ↦ (logRound current).2)^[rounds] mantissa

/-- The binary digit that the round after so many others gives. -/
def logDigitAfter (rounds mantissa : ℕ) : ℕ :=
  (logRound (logMantissaAfter rounds mantissa)).1

theorem logMantissaAfter_succ (rounds mantissa : ℕ) :
    logMantissaAfter (rounds + 1) mantissa = logMantissaAfter rounds (logRound mantissa).2 :=
  rfl

theorem logDigitAfter_succ (rounds mantissa : ℕ) :
    logDigitAfter (rounds + 1) mantissa = logDigitAfter rounds (logRound mantissa).2 :=
  rfl

namespace IsMantissa

variable {mantissa : ℕ}

/-- A mantissa stays one through any number of rounds. -/
theorem after (h : IsMantissa mantissa) (rounds : ℕ) :
    IsMantissa (logMantissaAfter rounds mantissa) := by
  induction rounds generalizing mantissa with
  | zero => exact h
  | succ rounds ih =>
    rw [logMantissaAfter_succ]
    exact ih (logRound_bounds h).2.1

theorem mul_self_lt (h : IsMantissa mantissa) : mantissa * mantissa < twoPow 256 :=
  calc mantissa * mantissa < twoPow 128 * twoPow 128 := Nat.mul_lt_mul'' h.lt h.lt
    _ = twoPow 256 := (twoPow_add 128 128).symm

theorem digit_le_one (h : IsMantissa mantissa) (rounds : ℕ) :
    logDigitAfter rounds mantissa ≤ 1 :=
  (logRound_bounds (h.after rounds)).1

end IsMantissa

/-- The digits of all rounds, each at its place. The first round gives the highest one. -/
theorem logDigits_eq_sum (rounds mantissa : ℕ) :
    logDigits rounds mantissa =
      ∑ round ∈ Finset.range rounds,
        logDigitAfter round mantissa * twoPow (rounds - 1 - round) := by
  induction rounds generalizing mantissa with
  | zero => rfl
  | succ rounds ih =>
    -- the first round is taken off; the others start from the mantissa that it leaves
    rw [logDigits, ih, Finset.sum_range_succ', add_comm]
    congr 1
    refine Finset.sum_congr rfl fun round hround ↦ ?_
    rw [logDigitAfter_succ]
    congr 2
    omega

/-- The logarithm of a ratio in Q.64: the place of its most significant bit, and below it one bit for
each round. -/
theorem logTwo_eq_sum (ratio : ℕ) :
    logTwo ratio = ((topBit ratio : ℤ) - 128) * twoPow 64 +
      (∑ round ∈ Finset.range 14,
        logDigitAfter round (logMantissa ratio (topBit ratio)) * twoPow (63 - round) : ℕ) := by
  have hplaced (start : ℕ) : logDigits 14 start * twoPow 50 =
      ∑ round ∈ Finset.range 14, logDigitAfter round start * twoPow (63 - round) := by
    rw [logDigits_eq_sum, Finset.sum_mul]
    refine Finset.sum_congr rfl fun round hround ↦ ?_
    have hplace : 63 - round = 14 - 1 - round + 50 := by
      have hlt := Finset.mem_range.mp hround
      omega
    rw [hplace, twoPow_add, mul_assoc]
  rw [logTwo, hplaced]

/-! ### From a price to its tick -/

/-- The search for the most significant bit finds, for every nonzero amount of 256 bits, the index of
the power of two that the amount reaches without reaching the next one. Where the tick of a price is
computed, the ratio shifted by that index is in `[2 ^ 127, 2 ^ 128)`, and it is so again after each
of the 14 rounds. Hence the square taken in a round has at most 256 bits, and the digit given by it,
which enters the logarithm at a place of its own, is zero or one. -/
theorem logRounds_keep_mantissa :
    (∀ amount, 0 < amount → amount < twoPow 256 →
      ∃ top, mostSignificantBit amount = .ok top ∧ top < 256 ∧
        twoPow top ≤ amount ∧ amount < twoPow (top + 1)) ∧
    ∀ price, minSqrtPrice ≤ price → price < maxSqrtPrice →
      price * twoPow 32 < twoPow 256 ∧
      ∃ top start, mostSignificantBit (price * twoPow 32) = .ok top ∧
        start = logMantissa (price * twoPow 32) top ∧
        (∀ rounds ≤ 14, IsMantissa (logMantissaAfter rounds start)) ∧
        (∀ round < 14,
          logMantissaAfter round start * logMantissaAfter round start < twoPow 256 ∧
          (logDigitAfter round start = 0 ∨ logDigitAfter round start = 1)) ∧
        logTwo (price * twoPow 32) = ((top : ℤ) - 128) * twoPow 64 +
          (∑ round ∈ Finset.range 14, logDigitAfter round start * twoPow (63 - round) : ℕ) := by
  refine ⟨fun amount hpos hbits ↦ ?_, fun price hlow hhigh ↦ ?_⟩
  · exact ⟨topBit amount, mostSignificantBit_of_pos hpos, topBit_lt hpos hbits,
      twoPow_topBit_le hpos hbits, lt_twoPow_topBit_succ hpos hbits⟩
  · obtain ⟨hpos, hbits⟩ := ratio_bounds hlow hhigh
    have hstart := (logMantissa_bounds hpos hbits).1
    refine ⟨hbits, topBit (price * twoPow 32), _, mostSignificantBit_of_pos hpos, rfl,
      fun rounds _ ↦ hstart.after rounds, fun round _ ↦ ?_, logTwo_eq_sum _⟩
    exact ⟨(hstart.after round).mul_self_lt,
      Nat.le_one_iff_eq_zero_or_eq_one.mp (hstart.digit_le_one round)⟩

/-- Just below the greatest price the ratio falls short of `2 ^ 192`, and all digits are one: the
logarithm is one unit of its last place below 64. -/
theorem logRounds_keep_mantissa_greatestPrice :
    mostSignificantBit ((maxSqrtPrice - 1) * twoPow 32) = .ok 191 ∧
      twoPow 191 ≤ (maxSqrtPrice - 1) * twoPow 32 ∧
      (maxSqrtPrice - 1) * twoPow 32 < twoPow 192 ∧
      (∀ rounds ≤ 14, IsMantissa
        (logMantissaAfter rounds (logMantissa ((maxSqrtPrice - 1) * twoPow 32) 191))) ∧
      (∀ round < 14,
        logDigitAfter round (logMantissa ((maxSqrtPrice - 1) * twoPow 32) 191) = 1) ∧
      logTwo ((maxSqrtPrice - 1) * twoPow 32) = 64 * twoPow 64 - twoPow 50 := by
  obtain ⟨hsearch, hrounds⟩ := logRounds_keep_mantissa
  have hindex : mostSignificantBit ((maxSqrtPrice - 1) * twoPow 32) = .ok 191 := by decide +kernel
  obtain ⟨found, hfound, -, hreached, hnext⟩ :=
    hsearch ((maxSqrtPrice - 1) * twoPow 32) (by decide) (by decide)
  obtain rfl : found = 191 := Except.ok.inj (hfound.symm.trans hindex)
  obtain ⟨-, top, start, htop, rfl, hmantissas, -, hlog⟩ :=
    hrounds (maxSqrtPrice - 1) (by decide) (by decide)
  obtain rfl : top = 191 := Except.ok.inj (htop.symm.trans hindex)
  have hdigits : ∀ round < 14,
      logDigitAfter round (logMantissa ((maxSqrtPrice - 1) * twoPow 32) 191) = 1 := by
    decide +kernel
  exact ⟨hindex, hreached, hnext, hmantissas, hdigits, hlog.trans (by decide +kernel)⟩

end RangeBook
