import Mathlib
import RangeBook.Curve.Amount
import RangeBook.Curve.NextPrice
import RangeBook.Proofs.Quotient

/-!
# Amounts and prices on the curve

Measured in units of a token per unit of liquidity, a price has a height that rises with it:
`-1 / p` for token zero and `p` for token one, with the price `p` itself scaled by `2 ^ 96`. The
exact amount of the token between two prices is the liquidity times the difference of their
heights (`exactAmount`). The amounts of the pool are this amount rounded up where it is taken in
and rounded down where it is given out (`amount_up_le_iff`, `le_amount_down_iff`), each with a
single rounding although the amount of token zero is divided twice (`quotient_quotient`,
`amount_eq_round`).

A trade with an amount that does not reach as far as a target price stops between the price and
the target (`priceAfterInput_between`, `priceAfterOutput_between`).
-/

set_option autoImplicit false
set_option relaxedAutoImplicit false

namespace RangeBook

/-- Whether a swap paying this token moves the price from one to another, or leaves it in place. -/
def Token.Leads (paid : Token) (first last : ℕ) : Prop :=
  match paid with
  | .zero => last ≤ first
  | .one => first ≤ last

namespace Token

variable {paid : Token} {first between last : ℕ}

theorem not_past_iff : ¬paid.Past first last ↔ paid.Leads first last := by
  cases paid
  · exact not_lt
  · exact not_lt

theorem Leads.refl (paid : Token) (price : ℕ) : paid.Leads price price := by
  cases paid <;> exact le_rfl

theorem Leads.trans (hfirst : paid.Leads first between) (hlast : paid.Leads between last) :
    paid.Leads first last := by
  cases paid
  · exact le_trans hlast hfirst
  · exact le_trans hfirst hlast

theorem Leads.of_past (h : paid.Past last first) : paid.Leads first last := by
  cases paid
  · exact le_of_lt h
  · exact le_of_lt h

theorem Past.ne (h : paid.Past last first) : first ≠ last := by
  cases paid
  · exact (ne_of_lt h).symm
  · exact ne_of_lt h

end Token

namespace Curve

/-! ### Exact amounts -/

/-- The height of a price in units of a token per unit of liquidity. -/
def height (token : Token) (price : ℕ) : ℚ :=
  match token with
  | .zero => -(2 ^ 96 / price)
  | .one => price / 2 ^ 96

/-- The exact amount of a token that liquidity holds between two prices, given in either order. -/
def exactAmount (token : Token) (priceA priceB liquidity : ℕ) : ℚ :=
  liquidity * (height token (max priceA priceB) - height token (min priceA priceB))

variable {token : Token} {low high priceA priceB liquidity result bound : ℕ}

theorem height_le_height (hlow : 0 < low) (hle : low ≤ high) :
    height token low ≤ height token high := by
  have hlowCast : (0 : ℚ) < low := by exact_mod_cast hlow
  have hleCast : (low : ℚ) ≤ high := by exact_mod_cast hle
  cases token
  · exact neg_le_neg (div_le_div_of_nonneg_left (by positivity) hlowCast hleCast)
  · exact div_le_div_of_nonneg_right hleCast (by positivity)

theorem exactAmount_of_le (hle : low ≤ high) :
    exactAmount token low high liquidity = liquidity * (height token high - height token low) := by
  rw [exactAmount, max_eq_right hle, min_eq_left hle]

theorem exactAmount_comm (token : Token) (priceA priceB liquidity : ℕ) :
    exactAmount token priceA priceB liquidity = exactAmount token priceB priceA liquidity := by
  rw [exactAmount, max_comm, min_comm, exactAmount]

theorem exactAmount_self (token : Token) (price liquidity : ℕ) :
    exactAmount token price price liquidity = 0 := by
  rw [exactAmount_of_le le_rfl, sub_self, mul_zero]

theorem exactAmount_zero_eq (hlow : 0 < low) (hle : low ≤ high) :
    exactAmount .zero low high liquidity =
      ((liquidity * q96 * (high - low) : ℕ) : ℚ) / ((low * high : ℕ) : ℚ) := by
  have hlowCast : (0 : ℚ) < low := by exact_mod_cast hlow
  have hhighCast : (0 : ℚ) < high := by exact_mod_cast lt_of_lt_of_le hlow hle
  rw [exactAmount_of_le hle, height, height, q96]
  push_cast [Nat.cast_sub hle]
  rw [cast_twoPow]
  field_simp
  ring

theorem exactAmount_one_eq (hle : low ≤ high) :
    exactAmount .one low high liquidity =
      ((liquidity * (high - low) : ℕ) : ℚ) / (q96 : ℕ) := by
  rw [exactAmount_of_le hle, height, height, q96]
  push_cast [Nat.cast_sub hle]
  rw [cast_twoPow]
  ring

/-- The exact amount of token zero between two prices, given in either order. -/
theorem exactAmount_zero_eq_abs (hA : 0 < priceA) (hB : 0 < priceB) :
    exactAmount .zero priceA priceB liquidity =
      liquidity * 2 ^ 96 * |(priceA : ℚ) - priceB| / (priceA * priceB) := by
  wlog hle : priceA ≤ priceB generalizing priceA priceB
  · rw [exactAmount_comm, this hB hA (le_of_not_ge hle), abs_sub_comm, mul_comm (priceA : ℚ)]
  have hleCast : (priceA : ℚ) ≤ priceB := by exact_mod_cast hle
  rw [exactAmount_zero_eq hA hle, abs_sub_comm, abs_of_nonneg (sub_nonneg.mpr hleCast), q96]
  push_cast [Nat.cast_sub hle]
  rw [cast_twoPow]

/-- The exact amount of token one between two prices, given in either order. -/
theorem exactAmount_one_eq_abs :
    exactAmount .one priceA priceB liquidity =
      liquidity * |(priceA : ℚ) - priceB| / 2 ^ 96 := by
  wlog hle : priceA ≤ priceB generalizing priceA priceB
  · rw [exactAmount_comm, this (le_of_not_ge hle), abs_sub_comm]
  have hleCast : (priceA : ℚ) ≤ priceB := by exact_mod_cast hle
  rw [exactAmount_one_eq hle, abs_sub_comm, abs_of_nonneg (sub_nonneg.mpr hleCast), q96]
  push_cast [Nat.cast_sub hle]
  rw [cast_twoPow]

/-! ### Rounded amounts -/

theorem q96_pos : 0 < q96 :=
  twoPow_pos 96

/-- The integer next to a fraction, on the side that a rounding asks for. -/
def Rounding.round (rounding : Rounding) (value : ℚ) : ℕ :=
  match rounding with
  | .down => ⌊value⌋₊
  | .up => ⌈value⌉₊

theorem quotient_eq_round (rounding : Rounding) (dividend : ℕ) {divisor : ℕ}
    (hdivisor : 0 < divisor) :
    quotient rounding dividend divisor = rounding.round ((dividend : ℚ) / divisor) := by
  cases rounding with
  | down => exact (Nat.floor_div_eq_div dividend divisor).symm
  | up => exact (ceil_div dividend hdivisor).symm

/-- Dividing twice and rounding the same way each time rounds the quotient once. -/
theorem quotient_quotient (rounding : Rounding) (dividend : ℕ) {first second : ℕ}
    (hfirst : 0 < first) (hsecond : 0 < second) :
    quotient rounding (quotient rounding dividend first) second =
      quotient rounding dividend (second * first) := by
  cases rounding with
  | down => exact (Nat.div_div_eq_div_mul _ _ _).trans (congrArg _ (Nat.mul_comm _ _))
  | up =>
    refine eq_of_forall_ge_iff fun bound ↦ ?_
    rw [quotient, quotient, quotient, divCeil_le_iff hsecond, divCeil_le_iff hfirst,
      divCeil_le_iff (Nat.mul_pos hsecond hfirst), mul_assoc]

theorem mulDiv_eq_ok {rounding : Rounding} {a b c : ℕ} :
    mulDiv rounding a b c = .ok result ↔
      c ≠ 0 ∧ quotient rounding (a * b) c < twoPow 256 ∧ result = quotient rounding (a * b) c := by
  cases rounding with
  | down => exact mulDivFloor_eq_ok
  | up => exact mulDivCeil_eq_ok

theorem amountZero_eq_ok {rounding : Rounding}
    (h : amountZero rounding priceA priceB liquidity = .ok result) :
    0 < min priceA priceB ∧ 0 < max priceA priceB ∧
      ∃ scaled, mulDiv rounding (liquidity * q96) (max priceA priceB - min priceA priceB)
        (max priceA priceB) = .ok scaled ∧
        quotient rounding scaled (min priceA priceB) = result := by
  unfold amountZero at h
  obtain ⟨_, hpos, h⟩ := bind_eq_ok.mp h
  obtain ⟨scaled, hscaled, hresult⟩ := bind_eq_ok.mp h
  rw [require_eq_ok] at hpos
  exact ⟨hpos, lt_of_lt_of_le hpos (min_le_max), scaled, hscaled, Except.ok.inj hresult⟩

/-- An amount is a single quotient, rounded, and the exact amount is this quotient. -/
theorem amount_eq_quotient {rounding : Rounding}
    (h : amount token rounding priceA priceB liquidity = .ok result) :
    ∃ dividend divisor : ℕ, 0 < divisor ∧
      exactAmount token priceA priceB liquidity = (dividend : ℚ) / divisor ∧
      result = quotient rounding dividend divisor := by
  have hsorted : exactAmount token priceA priceB liquidity =
      exactAmount token (min priceA priceB) (max priceA priceB) liquidity := by
    rw [exactAmount_of_le min_le_max, exactAmount]
  rw [hsorted]
  cases token with
  | zero =>
    obtain ⟨hlow, hhigh, scaled, hscaled, rfl⟩ := amountZero_eq_ok h
    obtain ⟨-, -, rfl⟩ := mulDiv_eq_ok.mp hscaled
    exact ⟨_, _, Nat.mul_pos hlow hhigh, exactAmount_zero_eq hlow min_le_max,
      quotient_quotient rounding _ hhigh hlow⟩
  | one =>
    obtain ⟨-, -, rfl⟩ := mulDiv_eq_ok.mp h
    exact ⟨_, _, q96_pos, exactAmount_one_eq min_le_max, rfl⟩

/-- An amount is the exact one, rounded once. -/
theorem amount_eq_round {rounding : Rounding}
    (h : amount token rounding priceA priceB liquidity = .ok result) :
    result = rounding.round (exactAmount token priceA priceB liquidity) := by
  obtain ⟨dividend, divisor, hdivisor, hexact, rfl⟩ := amount_eq_quotient h
  rw [hexact, quotient_eq_round rounding dividend hdivisor]

/-- An amount taken in is the exact amount rounded up. -/
theorem amount_up_le_iff (h : amount token .up priceA priceB liquidity = .ok result) :
    result ≤ bound ↔ exactAmount token priceA priceB liquidity ≤ bound := by
  obtain ⟨dividend, divisor, hdivisor, hexact, rfl⟩ := amount_eq_quotient h
  rw [hexact]
  exact divCeil_le_iff_div_le hdivisor

/-- An amount given out is the exact amount rounded down. -/
theorem le_amount_down_iff (h : amount token .down priceA priceB liquidity = .ok result) :
    bound ≤ result ↔ (bound : ℚ) ≤ exactAmount token priceA priceB liquidity := by
  obtain ⟨dividend, divisor, hdivisor, hexact, rfl⟩ := amount_eq_quotient h
  rw [hexact]
  exact le_div_iff_le_div hdivisor

theorem exactAmount_le_amount_up (h : amount token .up priceA priceB liquidity = .ok result) :
    exactAmount token priceA priceB liquidity ≤ result :=
  (amount_up_le_iff h).mp le_rfl

theorem amount_down_le_exactAmount (h : amount token .down priceA priceB liquidity = .ok result) :
    (result : ℚ) ≤ exactAmount token priceA priceB liquidity :=
  (le_amount_down_iff h).mp le_rfl

/-! ### Prices after a trade -/

variable {current target next amount : ℕ}

/-- Where token zero enters, the price falls at most to the exact next price, which is
`L * p / (L + x * p)`. -/
theorem priceAfterZeroIn_spec (hcurrent : 0 < current)
    (h : priceAfterZeroIn current liquidity amount = .ok next) :
    liquidity * q96 * current ≤ next * (liquidity * q96 + amount * current) ∧ next ≤ current := by
  unfold priceAfterZeroIn at h
  split at h
  · rename_i hamount
    rw [hamount, zero_mul, add_zero, ← Except.ok.inj h, mul_comm]
    exact ⟨le_rfl, le_rfl⟩
  rename_i hamount
  obtain ⟨_, hliquidity, h⟩ := bind_eq_ok.mp h
  rw [require_eq_ok] at hliquidity
  set numerator := liquidity * q96 with hnumerator
  have hamountPos : 0 < amount := Nat.pos_of_ne_zero hamount
  dsimp only at h
  split at h
  · obtain ⟨hpos, -, rfl⟩ := mulDivCeil_eq_ok.mp h
    have hpos := Nat.pos_of_ne_zero hpos
    refine ⟨(divCeil_le_iff hpos).mp le_rfl, (divCeil_le_iff hpos).mpr ?_⟩
    rw [mul_comm]
    exact Nat.mul_le_mul_left current (Nat.le_add_right _ _)
  · obtain ⟨denominator, hdenominator, h⟩ := bind_eq_ok.mp h
    obtain ⟨-, rfl⟩ := within_eq_ok.mp hdenominator
    rw [← Except.ok.inj h]
    have hpos : 0 < numerator / current + amount := Nat.add_pos_right _ hamountPos
    constructor
    · have hceil := (divCeil_le_iff hpos).mp
        (le_refl (divCeil numerator (numerator / current + amount)))
      set rounded := divCeil numerator (numerator / current + amount)
      calc numerator * current
          ≤ rounded * (numerator / current + amount) * current :=
            Nat.mul_le_mul_right current hceil
        _ = rounded * (numerator / current * current + amount * current) := by ring
        _ ≤ rounded * (numerator + amount * current) :=
            Nat.mul_le_mul_left _ (Nat.add_le_add_right (Nat.div_mul_le_self _ _) _)
    · rw [divCeil_le_iff hpos]
      calc numerator ≤ current * (numerator / current + 1) :=
            (Nat.lt_mul_div_succ numerator hcurrent).le
        _ ≤ current * (numerator / current + amount) :=
            Nat.mul_le_mul_left _ (Nat.add_le_add_left hamountPos _)

theorem priceAfterZeroIn_between (htarget : target ≤ current)
    (hless : amount * (target * current) < liquidity * q96 * (current - target))
    (h : priceAfterZeroIn current liquidity amount = .ok next) :
    target < next ∧ next ≤ current := by
  have hcurrent : 0 < current := by
    rcases Nat.eq_zero_or_pos current with hzero | hcurrent
    · simp [hzero] at hless
    · exact hcurrent
  obtain ⟨hlow, hhigh⟩ := priceAfterZeroIn_spec hcurrent h
  refine ⟨?_, hhigh⟩
  by_contra hbelow
  have hnext : next ≤ target := not_lt.mp hbelow
  set numerator := liquidity * q96
  have hcontra : numerator * current < numerator * current := by
    calc numerator * current
        ≤ next * (numerator + amount * current) := hlow
      _ ≤ target * (numerator + amount * current) := Nat.mul_le_mul_right _ hnext
      _ = numerator * target + amount * (target * current) := by ring
      _ < numerator * target + numerator * (current - target) := Nat.add_lt_add_left hless _
      _ = numerator * current := by rw [← Nat.mul_add, Nat.add_sub_cancel' htarget]
  exact lt_irrefl _ hcontra

/-- Where token zero leaves, the price rises to `L * p / (L - x * p)`, rounded up. -/
theorem priceAfterZeroOut_spec (h : priceAfterZeroOut current liquidity amount = .ok next) :
    (amount = 0 ∧ next = current) ∨
      (amount * current < liquidity * q96 ∧
        next = divCeil (liquidity * q96 * current) (liquidity * q96 - amount * current)) := by
  unfold priceAfterZeroOut at h
  split at h
  · rename_i hamount
    exact .inl ⟨hamount, (Except.ok.inj h).symm⟩
  obtain ⟨_, -, h⟩ := bind_eq_ok.mp h
  obtain ⟨_, -, h⟩ := bind_eq_ok.mp h
  obtain ⟨_, hfits, h⟩ := bind_eq_ok.mp h
  obtain ⟨rounded, hrounded, h⟩ := bind_eq_ok.mp h
  obtain ⟨-, rfl⟩ := within_eq_ok.mp h
  exact .inr ⟨require_eq_ok.mp hfits, (mulDivCeil_eq_ok.mp hrounded).2.2⟩

theorem priceAfterZeroOut_between (htarget : current ≤ target)
    (hless : amount * (current * target) ≤ liquidity * q96 * (target - current))
    (h : priceAfterZeroOut current liquidity amount = .ok next) :
    current ≤ next ∧ next ≤ target := by
  obtain ⟨-, rfl⟩ | ⟨hfits, rfl⟩ := priceAfterZeroOut_spec h
  · exact ⟨le_rfl, htarget⟩
  set numerator := liquidity * q96 with hnumerator
  have hpos : 0 < numerator - amount * current := Nat.sub_pos_of_lt hfits
  constructor
  · have hceil := (divCeil_le_iff hpos).mp
      (le_refl (divCeil (numerator * current) (numerator - amount * current)))
    set rounded := divCeil (numerator * current) (numerator - amount * current)
    refine Nat.le_of_mul_le_mul_left ?_ (lt_of_lt_of_le hpos (Nat.sub_le _ _))
    calc numerator * current
        ≤ rounded * (numerator - amount * current) := hceil
      _ ≤ rounded * numerator := Nat.mul_le_mul_left _ (Nat.sub_le _ _)
      _ = numerator * rounded := mul_comm _ _
  · rw [divCeil_le_iff hpos, Nat.mul_sub, Nat.le_sub_iff_add_le]
    · calc numerator * current + target * (amount * current)
          = numerator * current + amount * (current * target) := by ring
        _ ≤ numerator * current + numerator * (target - current) := Nat.add_le_add_left hless _
        _ = target * numerator := by
          rw [← Nat.mul_add, Nat.add_sub_cancel' htarget, mul_comm]
    · exact Nat.mul_le_mul_left _ hfits.le

/-- Where token one enters, the price rises by `y / L`, rounded down. -/
theorem priceAfterOneIn_spec (h : priceAfterOneIn current liquidity amount = .ok next) :
    0 < liquidity ∧ next = current + amount * q96 / liquidity := by
  unfold priceAfterOneIn at h
  obtain ⟨_, hliquidity, h⟩ := bind_eq_ok.mp h
  have hrisen : ∀ rise, (do
      let next ← uint256 (current + rise)
      uint160 next) = .ok next → next = current + rise := by
    intro rise hnext
    obtain ⟨sum, hsum, hnext⟩ := bind_eq_ok.mp hnext
    rw [(within_eq_ok.mp hsum).2, (within_eq_ok.mp hnext).2]
  refine ⟨require_eq_ok.mp hliquidity, ?_⟩
  dsimp only at h
  split at h
  · rw [pure_bind] at h
    exact hrisen _ h
  · obtain ⟨rise, hrise, h⟩ := bind_eq_ok.mp h
    rw [← (mulDivFloor_eq_ok.mp hrise).2.2]
    exact hrisen _ h

theorem priceAfterOneIn_between (htarget : current ≤ target)
    (hless : amount * q96 < liquidity * (target - current))
    (h : priceAfterOneIn current liquidity amount = .ok next) :
    current ≤ next ∧ next < target := by
  obtain ⟨-, rfl⟩ := priceAfterOneIn_spec h
  have hriseLt : amount * q96 / liquidity < target - current := Nat.div_lt_of_lt_mul hless
  generalize amount * q96 / liquidity = rise at hriseLt
  omega

/-- Where token one leaves, the price falls by `y / L`, rounded up. -/
theorem priceAfterOneOut_spec (h : priceAfterOneOut current liquidity amount = .ok next) :
    0 < liquidity ∧ divCeil (amount * q96) liquidity < current ∧
      next = current - divCeil (amount * q96) liquidity := by
  unfold priceAfterOneOut at h
  obtain ⟨_, hliquidity, h⟩ := bind_eq_ok.mp h
  have hfallen : ∀ fall, (do
      require (fall < current) .priceOverflow
      return current - fall) = .ok next → fall < current ∧ next = current - fall := by
    intro fall hnext
    obtain ⟨_, hfall, hnext⟩ := bind_eq_ok.mp hnext
    exact ⟨require_eq_ok.mp hfall, (Except.ok.inj hnext).symm⟩
  refine ⟨require_eq_ok.mp hliquidity, ?_⟩
  dsimp only at h
  split at h
  · rw [pure_bind] at h
    exact hfallen _ h
  · obtain ⟨fall, hfall, h⟩ := bind_eq_ok.mp h
    rw [← (mulDivCeil_eq_ok.mp hfall).2.2]
    exact hfallen _ h

theorem priceAfterOneOut_between (htarget : target ≤ current)
    (hless : amount * q96 ≤ liquidity * (current - target))
    (h : priceAfterOneOut current liquidity amount = .ok next) :
    target ≤ next ∧ next ≤ current := by
  obtain ⟨hliquidity, -, rfl⟩ := priceAfterOneOut_spec h
  have hfallLe : divCeil (amount * q96) liquidity ≤ current - target := by
    rw [divCeil_le_iff hliquidity, mul_comm (current - target)]
    exact hless
  omega

/-- An input that does not reach a target leaves the price short of the target. -/
theorem priceAfterInput_between {paid : Token} (htarget : 0 < target)
    (htoward : paid.Leads current target)
    (hless : (amount : ℚ) < exactAmount paid current target liquidity)
    (h : priceAfterInput current liquidity amount paid = .ok next) :
    paid.Leads current next ∧ paid.Past target next := by
  unfold priceAfterInput at h
  obtain ⟨_, hcurrent, h⟩ := bind_eq_ok.mp h
  obtain ⟨_, -, h⟩ := bind_eq_ok.mp h
  rw [require_eq_ok] at hcurrent
  cases paid with
  | zero =>
    have hpos : 0 < target * current := Nat.mul_pos htarget (Nat.pos_of_ne_zero hcurrent)
    rw [exactAmount_comm, exactAmount_zero_eq htarget htoward,
      lt_div_iff₀ (by exact_mod_cast hpos)] at hless
    exact (priceAfterZeroIn_between htoward (by exact_mod_cast hless) h).symm
  | one =>
    rw [exactAmount_one_eq htoward, lt_div_iff₀ (by exact_mod_cast q96_pos)] at hless
    exact priceAfterOneIn_between htoward (by exact_mod_cast hless) h

/-- An output that is not all that lies before a target takes the price no further than the
target. -/
theorem priceAfterOutput_between {paid : Token} (htarget : 0 < target)
    (htoward : paid.Leads current target)
    (hless : (amount : ℚ) ≤ exactAmount paid.other current target liquidity)
    (h : priceAfterOutput current liquidity amount paid = .ok next) :
    paid.Leads current next ∧ paid.Leads next target := by
  unfold priceAfterOutput at h
  obtain ⟨_, hcurrent, h⟩ := bind_eq_ok.mp h
  obtain ⟨_, -, h⟩ := bind_eq_ok.mp h
  rw [require_eq_ok] at hcurrent
  cases paid with
  | zero =>
    rw [exactAmount_comm, Token.other, exactAmount_one_eq htoward,
      le_div_iff₀ (by exact_mod_cast q96_pos)] at hless
    exact (priceAfterOneOut_between htoward (by exact_mod_cast hless) h).symm
  | one =>
    have hpos : 0 < current * target := Nat.mul_pos (Nat.pos_of_ne_zero hcurrent) htarget
    rw [Token.other, exactAmount_zero_eq (Nat.pos_of_ne_zero hcurrent) htoward,
      le_div_iff₀ (by exact_mod_cast hpos)] at hless
    exact priceAfterZeroOut_between htoward (by exact_mod_cast hless) h

end Curve

end RangeBook
