import Mathlib
import RangeBook.Proofs.Curve.Monotone
import RangeBook.Proofs.Failure

/-!
# Prices after a trade, exactly

An amount `x` of token zero that enters takes the price `p` to `L * p / (L + x * p)`, rounded up, as
long as the divisor fits 256 bits (`priceAfterZeroIn_of_lt`). Greater amounts go by `L / (L / p + x)`,
which is no less than the exact price and no more than what a smaller amount leaves, and which can be
worked out unless `L / p + x` itself leaves 256 bits. The price after token zero left is the exact
one, rounded up (`priceAfterZero_rounded`).

For token one there are two ways as well, but they are one function: an amount of at most 160 bits
can be shifted within 256 bits, and the wide product gives the same for it
(`priceAfterOneIn_eq_wide`, `priceAfterOneOut_eq_wide`). So the price moves by `y / L`, rounded
against the trader, wherever the result fits (`priceAfterOne_exact`).
-/

set_option autoImplicit false
set_option relaxedAutoImplicit false

namespace RangeBook.Curve

variable {price next liquidity amount : ℕ}

/-- Liquidity of 128 bits, in units of prices. -/
theorem mul_q96_lt (hliquidity : liquidity < twoPow 128) : liquidity * q96 < twoPow 224 :=
  calc liquidity * q96 < twoPow 128 * q96 := Nat.mul_lt_mul_of_pos_right hliquidity q96_pos
    _ = twoPow 224 := by decide

/-! ### Token zero -/

/-- The exact price after an amount of token zero entered. -/
def exactPriceZeroIn (price liquidity amount : ℕ) : ℚ :=
  liquidity * 2 ^ 96 * price / (liquidity * 2 ^ 96 + amount * price)

/-- The exact price after an amount of token zero left. -/
def exactPriceZeroOut (price liquidity amount : ℕ) : ℚ :=
  liquidity * 2 ^ 96 * price / (liquidity * 2 ^ 96 - amount * price)

theorem exactPriceZeroIn_eq (price liquidity amount : ℕ) :
    exactPriceZeroIn price liquidity amount =
      ((liquidity * q96 * price : ℕ) : ℚ) / (liquidity * q96 + amount * price : ℕ) := by
  rw [exactPriceZeroIn, q96]
  push_cast
  rw [cast_twoPow]

theorem exactPriceZeroOut_eq (hfits : amount * price ≤ liquidity * q96) :
    exactPriceZeroOut price liquidity amount =
      ((liquidity * q96 * price : ℕ) : ℚ) / (liquidity * q96 - amount * price : ℕ) := by
  rw [exactPriceZeroOut, Nat.cast_sub hfits, q96]
  push_cast
  rw [cast_twoPow]

/-- Where the divisor fits, the price after token zero entered is the quotient rounded up. -/
theorem priceAfterZeroIn_of_lt (hprice : price < twoPow 256) (hliquidity : 0 < liquidity)
    (hfits : liquidity * q96 + amount * price < twoPow 256) :
    priceAfterZeroIn price liquidity amount =
      .ok (divCeil (liquidity * q96 * price) (liquidity * q96 + amount * price)) := by
  have hnumerator : 0 < liquidity * q96 := Nat.mul_pos hliquidity q96_pos
  have hdivisor : 0 < liquidity * q96 + amount * price := Nat.add_pos_left hnumerator _
  unfold priceAfterZeroIn
  split
  · rename_i hamount
    rw [hamount, Nat.zero_mul, Nat.add_zero, Nat.mul_comm _ price,
      divCeil_mul_self price hnumerator]
    rfl
  · have hproduct : amount * price < twoPow 256 := lt_of_le_of_lt (Nat.le_add_left _ _) hfits
    have hwidth : divCeil (liquidity * q96 * price) (liquidity * q96 + amount * price) ≤ price := by
      rw [divCeil_le_iff hdivisor, Nat.mul_comm _ price]
      exact Nat.mul_le_mul_left price (Nat.le_add_right _ _)
    refine bind_eq_ok.mpr ⟨(), require_eq_ok.mpr hliquidity, ?_⟩
    dsimp only
    rw [if_pos ⟨hproduct, hfits⟩]
    exact mulDivCeil_eq_ok.mpr ⟨hdivisor.ne', lt_of_le_of_lt hwidth hprice, rfl⟩

/-- Where the divisor does not fit, the liquidity is divided by the price first. -/
theorem priceAfterZeroIn_of_ge (hliquidity : 0 < liquidity)
    (hwidth : liquidity < twoPow 128)
    (hwide : twoPow 256 ≤ liquidity * q96 + amount * price) :
    priceAfterZeroIn price liquidity amount =
      uint256 (liquidity * q96 / price + amount) >>=
        fun divisor ↦ .ok (divCeil (liquidity * q96) divisor) := by
  have hamount : amount ≠ 0 := by
    rintro rfl
    rw [Nat.zero_mul, Nat.add_zero] at hwide
    exact absurd (lt_trans (mul_q96_lt hwidth) (by decide)) (not_lt.mpr hwide)
  have hnot : ¬(amount * price < twoPow 256 ∧ liquidity * q96 + amount * price < twoPow 256) :=
    fun hfits ↦ absurd hfits.2 (not_lt.mpr hwide)
  have hrequire : require (0 < liquidity) .zeroLiquidity = .ok () := require_eq_ok.mpr hliquidity
  unfold priceAfterZeroIn
  rw [if_neg hamount, hrequire]
  exact if_neg hnot

theorem exists_priceAfterZeroIn (hprice : price < twoPow 256) (hliquidity : 0 < liquidity)
    (hwidth : liquidity < twoPow 128) (hfits : liquidity * q96 / price + amount < twoPow 256) :
    ∃ next, priceAfterZeroIn price liquidity amount = .ok next := by
  rcases Nat.lt_or_ge (liquidity * q96 + amount * price) (twoPow 256) with hlt | hge
  · exact ⟨_, priceAfterZeroIn_of_lt hprice hliquidity hlt⟩
  · rw [priceAfterZeroIn_of_ge hliquidity hwidth hge]
    exact ⟨_, bind_eq_ok.mpr ⟨_, within_eq_ok.mpr ⟨hfits, rfl⟩, rfl⟩⟩

/-- The divisor of the second way is at most that of the first, so where it does not fit neither way
is open. -/
theorem priceAfterZeroIn_eq_error (hpos : 0 < price) (hliquidity : 0 < liquidity)
    (hwidth : liquidity < twoPow 128)
    (hwide : twoPow 256 ≤ liquidity * q96 / price + amount) :
    priceAfterZeroIn price liquidity amount = .error (.rejected .uint256Range) := by
  have hdivisor : liquidity * q96 / price + amount ≤ liquidity * q96 + amount * price :=
    Nat.add_le_add (Nat.div_le_self _ _) (Nat.le_mul_of_pos_right _ hpos)
  rw [priceAfterZeroIn_of_ge hliquidity hwidth (le_trans hwide hdivisor)]
  exact bind_eq_error.mpr (.inl (within_eq_error.mpr ⟨not_lt.mpr hwide, rfl⟩))

/-- What holds of the price after an amount of token zero entered: it is positive, has not risen and
is no less than the exact one, and where the divisor fits it is the exact one rounded up. -/
structure Lowered (price liquidity amount next : ℕ) : Prop where
  pos : 0 < next
  le_price : next ≤ price
  exact_le : exactPriceZeroIn price liquidity amount ≤ next
  eq_ceil : amount * price < twoPow 256 → liquidity * q96 + amount * price < twoPow 256 →
    next = ⌈exactPriceZeroIn price liquidity amount⌉₊

theorem lowered_of_priceAfterZeroIn (hpos : 0 < price) (hprice : price < twoPow 256)
    (hliquidity : 0 < liquidity) (h : priceAfterZeroIn price liquidity amount = .ok next) :
    Lowered price liquidity amount next := by
  obtain ⟨hexact, hle⟩ := priceAfterZeroIn_spec hpos h
  have hnumerator : 0 < liquidity * q96 := Nat.mul_pos hliquidity q96_pos
  have hdivisor : 0 < liquidity * q96 + amount * price := Nat.add_pos_left hnumerator _
  refine ⟨?_, hle, ?_, fun _ hfits ↦ ?_⟩
  · exact Nat.pos_of_mul_pos_right (lt_of_lt_of_le (Nat.mul_pos hnumerator hpos) hexact)
  · rw [exactPriceZeroIn_eq, div_le_iff₀ (by exact_mod_cast hdivisor)]
    exact_mod_cast hexact
  · rw [priceAfterZeroIn_of_lt hprice hliquidity hfits] at h
    rw [exactPriceZeroIn_eq, ceil_div _ hdivisor]
    exact (Except.ok.inj h).symm

/-- Token zero can leave exactly where it is less than what the curve holds beyond the price and the
quotient rounded up has 160 bits, which is the next price then. -/
theorem priceAfterZeroOut_eq_ok_iff (hprice : price < twoPow 160) (hliquidity : 0 < liquidity)
    (hwidth : liquidity < twoPow 128) :
    priceAfterZeroOut price liquidity amount = .ok next ↔
      amount * price < liquidity * q96 ∧ next < twoPow 160 ∧
        next = divCeil (liquidity * q96 * price) (liquidity * q96 - amount * price) := by
  have hnumerator : 0 < liquidity * q96 := Nat.mul_pos hliquidity q96_pos
  unfold priceAfterZeroOut
  split
  · rename_i hamount
    rw [hamount, Nat.zero_mul, Nat.sub_zero, Nat.mul_comm _ price,
      divCeil_mul_self price hnumerator]
    constructor
    · intro h
      obtain rfl := Except.ok.inj h
      exact ⟨hnumerator, hprice, rfl⟩
    · rintro ⟨-, -, rfl⟩
      rfl
  · constructor
    · intro h
      obtain ⟨_, -, h⟩ := bind_eq_ok.mp h
      obtain ⟨_, -, h⟩ := bind_eq_ok.mp h
      obtain ⟨_, hfits, h⟩ := bind_eq_ok.mp h
      obtain ⟨rounded, hrounded, h⟩ := bind_eq_ok.mp h
      obtain ⟨hlt, rfl⟩ := within_eq_ok.mp h
      exact ⟨require_eq_ok.mp hfits, hlt, (mulDivCeil_eq_ok.mp hrounded).2.2⟩
    · rintro ⟨hfits, hlt, rfl⟩
      have hrest : 0 < liquidity * q96 - amount * price := Nat.sub_pos_of_lt hfits
      have hproduct : amount * price < twoPow 256 :=
        hfits.trans ((mul_q96_lt hwidth).trans (by decide))
      refine bind_eq_ok.mpr ⟨(), require_eq_ok.mpr hliquidity, ?_⟩
      refine bind_eq_ok.mpr ⟨(), require_eq_ok.mpr hproduct, ?_⟩
      refine bind_eq_ok.mpr ⟨(), require_eq_ok.mpr hfits, ?_⟩
      refine bind_eq_ok.mpr ⟨_, mulDivCeil_eq_ok.mpr ⟨hrest.ne', ?_, rfl⟩, ?_⟩
      · exact lt_trans hlt (by decide)
      · exact within_eq_ok.mpr ⟨hlt, rfl⟩

/-- Token zero can enter unless `L / p + x` leaves 256 bits, and more of it never leaves a higher
price, also where the products no longer fit. It can leave exactly where the curve holds more of it
beyond the price and the exact next price has 160 bits when rounded up, which is the price then. -/
theorem priceAfterZero_rounded (hprice : 0 < price ∧ price < twoPow 160)
    (hliquidity : 0 < liquidity ∧ liquidity < twoPow 128) :
    (∀ amount,
      (liquidity * q96 / price + amount < twoPow 256 → ∃ next,
        priceAfterZeroIn price liquidity amount = .ok next ∧ Lowered price liquidity amount next) ∧
      (twoPow 256 ≤ liquidity * q96 / price + amount →
        priceAfterZeroIn price liquidity amount = .error (.rejected .uint256Range))) ∧
    (∀ less more next next', less ≤ more → priceAfterZeroIn price liquidity less = .ok next →
      priceAfterZeroIn price liquidity more = .ok next' → next' ≤ next) ∧
    ∀ amount next, priceAfterZeroOut price liquidity amount = .ok next ↔
      amount * price < liquidity * q96 ∧ ⌈exactPriceZeroOut price liquidity amount⌉₊ < twoPow 160 ∧
        next = ⌈exactPriceZeroOut price liquidity amount⌉₊ := by
  obtain ⟨hpos, hlt⟩ := hprice
  obtain ⟨hliquidity, hwidth⟩ := hliquidity
  have hwide : price < twoPow 256 := lt_trans hlt (by decide)
  refine ⟨fun amount ↦ ?_, fun less more next next' ↦ priceAfterZeroIn_le hpos,
    fun amount next ↦ ?_⟩
  · refine ⟨fun hfits ↦ ?_, priceAfterZeroIn_eq_error hpos hliquidity hwidth⟩
    obtain ⟨next, hnext⟩ := exists_priceAfterZeroIn hwide hliquidity hwidth hfits
    exact ⟨next, hnext, lowered_of_priceAfterZeroIn hpos hwide hliquidity hnext⟩
  · rw [priceAfterZeroOut_eq_ok_iff hlt hliquidity hwidth]
    refine and_congr_right fun hfits ↦ ?_
    rw [exactPriceZeroOut_eq hfits.le, ceil_div _ (Nat.sub_pos_of_lt hfits)]
    exact and_congr_left fun hnext ↦ by rw [hnext]

/-- The greatest input that the greatest liquidity takes at the highest price: the products leave
256 bits, and the price falls to one. -/
theorem priceAfterZero_rounded_greatestInput :
    let price := twoPow 160 - 1
    let liquidity := twoPow 128 - 1
    let amount := twoPow 256 - 1 - liquidity * q96 / price
    twoPow 256 ≤ liquidity * q96 + amount * price ∧
      priceAfterZeroIn price liquidity amount = .ok 1 ∧ Lowered price liquidity amount 1 := by
  intro price liquidity amount
  have hone : priceAfterZeroIn price liquidity amount = .ok 1 := by decide +kernel
  obtain ⟨next, hnext, hlowered⟩ := ((priceAfterZero_rounded
    (show 0 < price ∧ price < twoPow 160 by decide)
    (show 0 < liquidity ∧ liquidity < twoPow 128 by decide)).1 amount).1 (by decide +kernel)
  obtain rfl := Except.ok.inj (hone.symm.trans hnext)
  exact ⟨by decide +kernel, hone, hlowered⟩

/-! ### Token one -/

/-- The exact price after an amount of token one entered. -/
def exactPriceOneIn (price liquidity amount : ℕ) : ℚ :=
  price + amount * 2 ^ 96 / liquidity

/-- How far the price falls exactly where an amount of token one leaves. -/
def exactFallOne (liquidity amount : ℕ) : ℚ :=
  amount * 2 ^ 96 / liquidity

/-- The price after an amount of token one entered, by the wide product for all amounts. -/
def wideAfterOneIn (price liquidity amount : ℕ) : Outcome ℕ := do
  let rise ← mulDivFloor amount q96 liquidity
  let next ← uint256 (price + rise)
  uint160 next

/-- The price after an amount of token one left, by the wide product for all amounts. -/
def wideAfterOneOut (price liquidity amount : ℕ) : Outcome ℕ := do
  let fall ← mulDivCeil amount q96 liquidity
  require (fall < price) .priceOverflow
  return price - fall

theorem floor_exactPriceOneIn (price liquidity amount : ℕ) :
    ⌊exactPriceOneIn price liquidity amount⌋₊ = price + amount * q96 / liquidity := by
  have hquotient : (amount : ℚ) * 2 ^ 96 / liquidity = ((amount * q96 : ℕ) : ℚ) / liquidity := by
    rw [Nat.cast_mul, q96, cast_twoPow]
  rw [exactPriceOneIn, hquotient, add_comm, Nat.floor_add_natCast (by positivity),
    Nat.floor_div_eq_div, Nat.add_comm]

theorem ceil_exactFallOne (hliquidity : 0 < liquidity) :
    ⌈exactFallOne liquidity amount⌉₊ = divCeil (amount * q96) liquidity := by
  have hquotient : (amount : ℚ) * 2 ^ 96 / liquidity = ((amount * q96 : ℕ) : ℚ) / liquidity := by
    rw [Nat.cast_mul, q96, cast_twoPow]
  rw [exactFallOne, hquotient, ceil_div _ hliquidity]

/-- An amount of at most 160 bits is shifted within 256 bits. -/
theorem shifted_lt (hamount : amount < twoPow 160) : amount * q96 < twoPow 256 :=
  calc amount * q96 < twoPow 160 * q96 := Nat.mul_lt_mul_of_pos_right hamount q96_pos
    _ = twoPow 256 := by decide

/-- A shifted amount gives the same price as the wide product. -/
theorem priceAfterOneIn_eq_wide (hliquidity : 0 < liquidity) :
    priceAfterOneIn price liquidity amount = wideAfterOneIn price liquidity amount := by
  have hrequire : require (0 < liquidity) .zeroLiquidity = .ok () := require_eq_ok.mpr hliquidity
  unfold priceAfterOneIn wideAfterOneIn
  rw [hrequire]
  change (if amount < twoPow 160 then _ else _) = _
  split
  · rename_i hamount
    have hrise : mulDivFloor amount q96 liquidity = .ok (amount * q96 / liquidity) :=
      mulDivFloor_eq_ok.mpr ⟨hliquidity.ne',
        lt_of_le_of_lt (Nat.div_le_self _ _) (shifted_lt hamount), rfl⟩
    rw [hrise]
    rfl
  · rfl

theorem priceAfterOneOut_eq_wide (hliquidity : 0 < liquidity) :
    priceAfterOneOut price liquidity amount = wideAfterOneOut price liquidity amount := by
  have hrequire : require (0 < liquidity) .zeroLiquidity = .ok () := require_eq_ok.mpr hliquidity
  unfold priceAfterOneOut wideAfterOneOut
  rw [hrequire]
  change (if amount < twoPow 160 then _ else _) = _
  split
  · rename_i hamount
    have hceil : divCeil (amount * q96) liquidity ≤ amount * q96 := by
      rw [divCeil_le_iff hliquidity]
      exact Nat.le_mul_of_pos_right _ hliquidity
    have hfall : mulDivCeil amount q96 liquidity = .ok (divCeil (amount * q96) liquidity) :=
      mulDivCeil_eq_ok.mpr ⟨hliquidity.ne', lt_of_le_of_lt hceil (shifted_lt hamount), rfl⟩
    rw [hfall]
    rfl
  · rfl

theorem priceAfterOneIn_eq_ok_iff (hliquidity : 0 < liquidity) :
    priceAfterOneIn price liquidity amount = .ok next ↔
      price + amount * q96 / liquidity < twoPow 160 ∧ next = price + amount * q96 / liquidity := by
  have hbits : twoPow 160 < twoPow 256 := by decide
  rw [priceAfterOneIn_eq_wide hliquidity]
  constructor
  · intro h
    obtain ⟨rise, hrise, h⟩ := bind_eq_ok.mp h
    obtain ⟨sum, hsum, h⟩ := bind_eq_ok.mp h
    obtain ⟨-, -, rfl⟩ := mulDivFloor_eq_ok.mp hrise
    obtain ⟨-, rfl⟩ := within_eq_ok.mp hsum
    obtain ⟨hlt, rfl⟩ := within_eq_ok.mp h
    exact ⟨hlt, rfl⟩
  · rintro ⟨hlt, rfl⟩
    have hsum := lt_trans hlt hbits
    have hrise := lt_of_le_of_lt (Nat.le_add_left _ _) hsum
    refine bind_eq_ok.mpr ⟨_, mulDivFloor_eq_ok.mpr ⟨hliquidity.ne', hrise, rfl⟩, ?_⟩
    exact bind_eq_ok.mpr ⟨_, within_eq_ok.mpr ⟨hsum, rfl⟩, within_eq_ok.mpr ⟨hlt, rfl⟩⟩

theorem priceAfterOneOut_eq_ok_iff (hprice : price < twoPow 256) (hliquidity : 0 < liquidity) :
    priceAfterOneOut price liquidity amount = .ok next ↔
      divCeil (amount * q96) liquidity < price ∧
        next = price - divCeil (amount * q96) liquidity := by
  rw [priceAfterOneOut_eq_wide hliquidity]
  constructor
  · intro h
    obtain ⟨fall, hfall, h⟩ := bind_eq_ok.mp h
    obtain ⟨_, hless, h⟩ := bind_eq_ok.mp h
    obtain ⟨-, -, rfl⟩ := mulDivCeil_eq_ok.mp hfall
    exact ⟨require_eq_ok.mp hless, (Except.ok.inj h).symm⟩
  · rintro ⟨hless, rfl⟩
    refine bind_eq_ok.mpr
      ⟨_, mulDivCeil_eq_ok.mpr ⟨hliquidity.ne', lt_trans hless hprice, rfl⟩, ?_⟩
    exact bind_eq_ok.mpr ⟨(), require_eq_ok.mpr hless, rfl⟩

/-- Whether a failure is a rejection for one of the given causes. -/
def RejectedFor (causes : List Cause) (failure : Failure) : Prop :=
  ∃ cause ∈ causes, failure = .rejected cause

theorem priceAfterOneIn_failsOnly (hliquidity : 0 < liquidity) :
    FailsOnly (RejectedFor [.quotientOverflow, .uint256Range, .uint160Range])
      (priceAfterOneIn price liquidity amount) := by
  rw [priceAfterOneIn_eq_wide hliquidity]
  exact .bind (.mulDivFloor ⟨.quotientOverflow, by simp, rfl⟩) fun _ _ ↦
    .bind (.within fun _ ↦ ⟨.uint256Range, by simp, rfl⟩) fun _ _ ↦
      .within fun _ ↦ ⟨.uint160Range, by simp, rfl⟩

theorem priceAfterOneOut_failsOnly (hliquidity : 0 < liquidity) :
    FailsOnly (RejectedFor [.quotientOverflow, .priceOverflow])
      (priceAfterOneOut price liquidity amount) := by
  rw [priceAfterOneOut_eq_wide hliquidity]
  exact .bind (.orReject fun _ ↦ ⟨.quotientOverflow, by simp, rfl⟩) fun _ _ ↦
    .bind (.require fun _ ↦ ⟨.priceOverflow, by simp, rfl⟩) fun _ _ ↦ .pure _

/-- Token one can enter exactly where the exact next price has 160 bits when rounded down, and can
leave exactly where the fall, rounded up, leaves some of the price. That is the price then, whether
the amount is shifted or multiplied out, and any sum or quotient that leaves its range is reported. -/
theorem priceAfterOne_exact (hprice : price < twoPow 256) (hliquidity : 0 < liquidity)
    (amount : ℕ) :
    (∀ next, priceAfterOneIn price liquidity amount = .ok next ↔
      ⌊exactPriceOneIn price liquidity amount⌋₊ < twoPow 160 ∧
        next = ⌊exactPriceOneIn price liquidity amount⌋₊) ∧
    (∀ next, priceAfterOneOut price liquidity amount = .ok next ↔
      ⌈exactFallOne liquidity amount⌉₊ < price ∧
        next = price - ⌈exactFallOne liquidity amount⌉₊) ∧
    priceAfterOneIn price liquidity amount = wideAfterOneIn price liquidity amount ∧
    priceAfterOneOut price liquidity amount = wideAfterOneOut price liquidity amount ∧
    FailsOnly (RejectedFor [.quotientOverflow, .uint256Range, .uint160Range])
      (priceAfterOneIn price liquidity amount) ∧
    FailsOnly (RejectedFor [.quotientOverflow, .priceOverflow])
      (priceAfterOneOut price liquidity amount) := by
  refine ⟨fun next ↦ ?_, fun next ↦ ?_, priceAfterOneIn_eq_wide hliquidity,
    priceAfterOneOut_eq_wide hliquidity, priceAfterOneIn_failsOnly hliquidity,
    priceAfterOneOut_failsOnly hliquidity⟩
  · rw [floor_exactPriceOneIn]
    exact priceAfterOneIn_eq_ok_iff hliquidity
  · rw [ceil_exactFallOne hliquidity]
    exact priceAfterOneOut_eq_ok_iff hprice hliquidity

/-- The least amount that is too wide to be shifted, at the greatest liquidity. -/
theorem priceAfterOne_exact_wideAmount :
    priceAfterOneIn q96 (twoPow 128 - 1) (twoPow 160) = .ok (q96 + twoPow 128 + 1) ∧
      ⌊exactPriceOneIn q96 (twoPow 128 - 1) (twoPow 160)⌋₊ = q96 + twoPow 128 + 1 := by
  have hnext : priceAfterOneIn q96 (twoPow 128 - 1) (twoPow 160) =
      .ok (q96 + twoPow 128 + 1) := by decide +kernel
  have hexact := ((priceAfterOne_exact (show q96 < twoPow 256 by decide)
    (show 0 < twoPow 128 - 1 by decide) (twoPow 160)).1 _).mp hnext
  exact ⟨hnext, hexact.2.symm⟩

end RangeBook.Curve
