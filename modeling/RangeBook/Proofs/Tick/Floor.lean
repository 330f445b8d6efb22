import Mathlib
import RangeBook.Proofs.Tick.Logarithm
import RangeBook.Proofs.Tick.Ratio
import RangeBook.Tick.SqrtPrice

/-!
# The tick of a price is the greatest tick that the price reaches

`tickAt` multiplies the truncated logarithm of a price by a constant that changes its base to
`√1.0001`, and widens the result to two candidates. The candidates lie on both sides of the price
with some room (`exactSqrtPrice_low_le`, `le_exactSqrtPrice_high`), which is more than the errors
of the square roots of price at the ticks. So the tick that is chosen is the greatest one whose
price is reached (`tickAt_spec`), for every price between the bounds.
-/

set_option autoImplicit false
set_option relaxedAutoImplicit false

namespace RangeBook

/-! ### The change of base -/

theorem log_tickBase : Real.log tickBase = Real.log 1.0001 / 2 := by
  rw [← tickBase_sq, Real.log_pow]
  norm_num

theorem log_tickBase_bounds :
    0.00004999750016 < Real.log tickBase ∧ Real.log tickBase < 0.00004999750017 := by
  have hseries := Real.abs_log_sub_add_sum_range_le
    (show |(-0.0001 : ℝ)| < 1 by norm_num [abs_lt]) 3
  rw [abs_le, show (1 : ℝ) - -0.0001 = 1.0001 by norm_num] at hseries
  norm_num [Finset.sum_range_succ, abs_of_neg, abs_of_pos] at hseries
  rw [log_tickBase]
  norm_num
  constructor <;> linarith

/-- The constant that changes the base of a logarithm from two to `√1.0001`. -/
theorem abs_baseChange_sub_le :
    |255738958999603826347141 * Real.log tickBase / 2 ^ 64 - Real.log 2| ≤ 1 / 10 ^ 9 := by
  obtain ⟨hlow, hhigh⟩ := log_tickBase_bounds
  have htwolow := Real.log_two_gt_d9
  have htwohigh := Real.log_two_lt_d9
  rw [abs_le]
  norm_num at hlow hhigh htwolow htwohigh ⊢
  constructor <;> linarith

theorem exactSqrtPrice_eq_exp (tick : ℤ) :
    exactSqrtPrice tick = 2 ^ 96 * Real.exp (tick * Real.log tickBase) := by
  rw [exactSqrtPrice, ← Real.rpow_intCast, Real.rpow_def_of_pos tickBase_pos, mul_comm (Real.log _)]

theorem exactSqrtPrice_lt_iff {left right : ℤ} :
    exactSqrtPrice left < exactSqrtPrice right ↔ left < right := by
  have hbase : 1 < tickBase := lt_trans (by norm_num) lt_tickBase
  rw [exactSqrtPrice, exactSqrtPrice, mul_lt_mul_iff_of_pos_left (by positivity),
    zpow_lt_zpow_iff_right₀ hbase]

/-! ### The two candidates -/

/-- The lower candidate for the tick of a price. -/
def lowTick (price : ℕ) : ℤ :=
  (logTick (price * twoPow 32) - 3402992956809132418596140100660247210) / twoPow 128

/-- The upper candidate for the tick of a price. -/
def highTick (price : ℕ) : ℤ :=
  (logTick (price * twoPow 32) + 291339464771989622907027621153398088495) / twoPow 128

theorem tickAt_eq (price : ℕ) :
    tickAt price = do
      require (minSqrtPrice ≤ price ∧ price < maxSqrtPrice) .priceOutOfRange
      if lowTick price = highTick price then
        return lowTick price
      else
        let priceAbove ← sqrtPriceAt (highTick price)
        return if priceAbove ≤ price then highTick price else lowTick price :=
  rfl

theorem highTick_le (price : ℕ) : highTick price ≤ lowTick price + 1 := by
  rw [lowTick, highTick, twoPow_eq 128]
  omega

theorem lowTick_le (price : ℕ) : lowTick price ≤ highTick price := by
  rw [lowTick, highTick, twoPow_eq 128]
  omega

variable {price : ℕ}

/-- The prices within the bounds are within a factor of `2 ^ 64` of one. -/
theorem abs_log_price_le (hlow : minSqrtPrice ≤ price) (hhigh : price < maxSqrtPrice) :
    |Real.log (price / 2 ^ 96)| ≤ 64 * Real.log 2 := by
  have hge : 2 ^ 32 ≤ price := le_trans (by decide) hlow
  have hlt : price < 2 ^ 160 := lt_of_lt_of_le hhigh (by decide)
  have hgecast : (2 : ℝ) ^ 32 ≤ price := by exact_mod_cast hge
  have hltcast : (price : ℝ) ≤ 2 ^ 160 := by exact_mod_cast hlt.le
  rw [abs_le]
  constructor
  · have hle : ((2 : ℝ) ^ 64)⁻¹ ≤ price / 2 ^ 96 := by
      rw [le_div_iff₀ (by positivity)]
      norm_num at hgecast ⊢
      linarith
    have hlog := Real.log_le_log (by positivity) hle
    rw [Real.log_inv, Real.log_pow] at hlog
    push_cast at hlog
    linarith
  · have hle : (price : ℝ) / 2 ^ 96 ≤ 2 ^ 64 := by
      rw [div_le_iff₀ (by positivity)]
      norm_num at hltcast ⊢
      linarith
    have hpos : (0 : ℝ) < price := lt_of_lt_of_le (by positivity) hgecast
    have hlog := Real.log_le_log (by positivity) hle
    rw [Real.log_pow] at hlog
    push_cast at hlog
    linarith

/-- The logarithm of a price within the bounds, between its truncated digits. -/
theorem logUnits_price_bounds (hlow : minSqrtPrice ≤ price) (hhigh : price < maxSqrtPrice) :
    |(logUnits (price * twoPow 32) : ℝ)| ≤ 1050000 ∧
      logUnits (price * twoPow 32) * Real.log 2 ≤ 2 ^ 14 * Real.log (price / 2 ^ 96) ∧
      2 ^ 14 * Real.log (price / 2 ^ 96) ≤
        (logUnits (price * twoPow 32) + 1) * Real.log 2 + 1 / 2 ^ 112 := by
  obtain ⟨hpos, hbits⟩ := ratio_bounds hlow hhigh
  have hcast : ((price * twoPow 32 : ℕ) : ℝ) / 2 ^ 128 = price / 2 ^ 96 := by
    rw [Nat.cast_mul, cast_twoPow]
    ring
  have hbounds := logUnits_bounds hpos hbits
  rw [hcast] at hbounds
  refine ⟨?_, hbounds⟩
  obtain ⟨hfloor, hceil⟩ := hbounds
  obtain ⟨hloglow, hloghigh⟩ := abs_le.mp (abs_log_price_le hlow hhigh)
  have htwolow := Real.log_two_gt_d9
  have htwohigh := Real.log_two_lt_d9
  set units := (logUnits (price * twoPow 32) : ℝ)
  rw [abs_le]
  norm_num at hceil hfloor
  constructor
  · by_contra hsmall
    nlinarith
  · by_contra hlarge
    nlinarith

/-- The logarithm to the base `√1.0001`, counted from the digits, is near the true one. -/
theorem logTick_bounds (hlow : minSqrtPrice ≤ price) (hhigh : price < maxSqrtPrice) :
    logTick (price * twoPow 32) / 2 ^ 128 * Real.log tickBase ≤
        Real.log (price / 2 ^ 96) + 6.5 / 10 ^ 8 ∧
      Real.log (price / 2 ^ 96) - 4.2371 / 10 ^ 5 ≤
        logTick (price * twoPow 32) / 2 ^ 128 * Real.log tickBase := by
  obtain ⟨hunits, hfloor, hceil⟩ := logUnits_price_bounds hlow hhigh
  have hchange := abs_baseChange_sub_le
  have htwohigh := Real.log_two_lt_d9
  have hscaled : (logTick (price * twoPow 32) : ℝ) / 2 ^ 128 * Real.log tickBase =
      logUnits (price * twoPow 32) *
        (255738958999603826347141 * Real.log tickBase / 2 ^ 64) / 2 ^ 14 := by
    rw [logTick, logTwo_eq]
    push_cast
    ring
  rw [hscaled]
  set units := (logUnits (price * twoPow 32) : ℝ)
  set change := 255738958999603826347141 * Real.log tickBase / 2 ^ 64
  have herror : |units * (change - Real.log 2)| ≤ 1050000 * (1 / 10 ^ 9) := by
    rw [abs_mul]
    exact mul_le_mul hunits hchange (abs_nonneg _) (by norm_num)
  obtain ⟨herrorlow, herrorhigh⟩ := abs_le.mp herror
  norm_num at hfloor hceil herrorlow herrorhigh ⊢
  constructor <;> linarith

theorem two_pow_mul_exp_log (hlow : minSqrtPrice ≤ price) :
    2 ^ 96 * Real.exp (Real.log (price / 2 ^ 96)) = price := by
  have hpos : (0 : ℝ) < price := by
    exact_mod_cast lt_of_lt_of_le (by decide : 0 < minSqrtPrice) hlow
  rw [Real.exp_log (by positivity)]
  field_simp

/-- The exact price of the lower candidate is below the price, with some room. -/
theorem exactSqrtPrice_low_le (hlow : minSqrtPrice ≤ price) (hhigh : price < maxSqrtPrice) :
    exactSqrtPrice (lowTick price) * (1 + 4 / 10 ^ 7) ≤ price := by
  have hlog := (logTick_bounds hlow hhigh).1
  have hbase := log_tickBase_bounds
  have hfloor : (lowTick price : ℝ) * 2 ^ 128 ≤
      logTick (price * twoPow 32) - 3402992956809132418596140100660247210 := by
    have hle := Int.ediv_mul_le
      (logTick (price * twoPow 32) - 3402992956809132418596140100660247210)
      (b := (twoPow 128 : ℤ)) (by decide)
    have hcast := (Int.cast_le (R := ℝ)).mpr hle
    rw [Int.cast_mul, Int.cast_natCast, cast_twoPow (R := ℝ)] at hcast
    push_cast at hcast
    rw [lowTick]
    linarith
  have hexponent : (lowTick price : ℝ) * Real.log tickBase + 4 / 10 ^ 7 ≤
      Real.log (price / 2 ^ 96) := by
    have hdiv : (lowTick price : ℝ) ≤
        logTick (price * twoPow 32) / 2 ^ 128 - 0.01 := by
      norm_num at hfloor ⊢
      linarith
    have hmul := mul_le_mul_of_nonneg_right hdiv (by linarith : 0 ≤ Real.log tickBase)
    rw [sub_mul] at hmul
    norm_num at hmul hlog hbase ⊢
    linarith
  calc exactSqrtPrice (lowTick price) * (1 + 4 / 10 ^ 7)
      ≤ exactSqrtPrice (lowTick price) * Real.exp (4 / 10 ^ 7) := by
        apply mul_le_mul_of_nonneg_left _ (exactSqrtPrice_pos _).le
        linarith [Real.add_one_le_exp ((4 : ℝ) / 10 ^ 7)]
    _ = 2 ^ 96 * Real.exp (lowTick price * Real.log tickBase + 4 / 10 ^ 7) := by
        rw [exactSqrtPrice_eq_exp, Real.exp_add, mul_assoc]
    _ ≤ 2 ^ 96 * Real.exp (Real.log (price / 2 ^ 96)) :=
        mul_le_mul_of_nonneg_left (Real.exp_le_exp.mpr hexponent) (by positivity)
    _ = price := two_pow_mul_exp_log hlow

/-- The exact price of the tick after the upper candidate is above the price, with some room. -/
theorem le_exactSqrtPrice_high (hlow : minSqrtPrice ≤ price) (hhigh : price < maxSqrtPrice) :
    price * (1 + 4 / 10 ^ 7) ≤ exactSqrtPrice (highTick price + 1) := by
  have hlog := (logTick_bounds hlow hhigh).2
  have hbase := log_tickBase_bounds
  have hfloor : (logTick (price * twoPow 32) : ℝ) + 291339464771989622907027621153398088495 ≤
      (highTick price + 1) * 2 ^ 128 := by
    have hlt := Int.lt_ediv_add_one_mul_self
      (logTick (price * twoPow 32) + 291339464771989622907027621153398088495)
      (b := (twoPow 128 : ℤ)) (by decide)
    have hcast := (Int.cast_le (R := ℝ)).mpr hlt.le
    rw [Int.cast_mul, Int.cast_natCast, cast_twoPow (R := ℝ)] at hcast
    push_cast at hcast
    rw [highTick]
    linarith
  have hexponent : Real.log (price / 2 ^ 96) + 4 / 10 ^ 7 ≤
      ((highTick price + 1 : ℤ) : ℝ) * Real.log tickBase := by
    have hdiv : (logTick (price * twoPow 32) : ℝ) / 2 ^ 128 + 0.85616 ≤
        ((highTick price + 1 : ℤ) : ℝ) := by
      push_cast
      norm_num at hfloor ⊢
      linarith
    have hmul := mul_le_mul_of_nonneg_right hdiv (by linarith : 0 ≤ Real.log tickBase)
    rw [add_mul] at hmul
    norm_num at hmul hlog hbase ⊢
    linarith
  calc price * (1 + 4 / 10 ^ 7)
      ≤ price * Real.exp (4 / 10 ^ 7) := by
        apply mul_le_mul_of_nonneg_left _ (by positivity)
        linarith [Real.add_one_le_exp ((4 : ℝ) / 10 ^ 7)]
    _ = 2 ^ 96 * Real.exp (Real.log (price / 2 ^ 96) + 4 / 10 ^ 7) := by
        rw [Real.exp_add, ← mul_assoc, two_pow_mul_exp_log hlow]
    _ ≤ 2 ^ 96 * Real.exp ((highTick price + 1 : ℤ) * Real.log tickBase) :=
        mul_le_mul_of_nonneg_left (Real.exp_le_exp.mpr hexponent) (by positivity)
    _ = exactSqrtPrice (highTick price + 1) := (exactSqrtPrice_eq_exp _).symm

/-! ### The tick of a price -/

theorem tickSqrtPrice_minTick : tickSqrtPrice minTick = minSqrtPrice := by
  decide +kernel

theorem tickSqrtPrice_maxTick : tickSqrtPrice maxTick = maxSqrtPrice := by
  decide +kernel

-- Linear arithmetic compares its atoms by unfolding them. Nothing below computes a price.
attribute [local irreducible] tickSqrtPrice lowTick highTick

theorem natAbs_le_tickReach {tick : ℤ} (hmin : minTick - 1 ≤ tick) (hmax : tick ≤ maxTick + 1) :
    tick.natAbs ≤ tickReach := by
  rw [minTick] at hmin
  rw [maxTick] at hmax
  rw [tickReach]
  omega

/-- The lower candidate lies below every tick in reach whose price is not exceeded. -/
theorem lowTick_lt_of_le {tick : ℤ} (hreach : tick.natAbs ≤ tickReach)
    (hlow : minSqrtPrice ≤ price) (hhigh : price < maxSqrtPrice)
    (htick : price ≤ tickSqrtPrice tick) : lowTick price < tick := by
  have hle := exactSqrtPrice_low_le hlow hhigh
  have hmax := tickSqrtPrice_le hreach
  have hlarge := le_exactSqrtPrice hreach
  have hcast : (price : ℝ) ≤ tickSqrtPrice tick := by exact_mod_cast htick
  rw [← exactSqrtPrice_lt_iff]
  norm_num at hle hmax hlarge
  linarith

/-- The upper candidate reaches every tick in reach whose price is reached. -/
theorem le_highTick_of_le {tick : ℤ} (hreach : tick.natAbs ≤ tickReach)
    (hlow : minSqrtPrice ≤ price) (hhigh : price < maxSqrtPrice)
    (htick : tickSqrtPrice tick ≤ price) : tick ≤ highTick price := by
  have hge := le_exactSqrtPrice_high hlow hhigh
  have hmin := le_tickSqrtPrice hreach
  have hpos := exactSqrtPrice_pos tick
  have hcast : (tickSqrtPrice tick : ℝ) ≤ price := by exact_mod_cast htick
  have hlt : exactSqrtPrice tick < exactSqrtPrice (highTick price + 1) := by
    norm_num at hge hmin
    linarith
  exact Int.lt_add_one_iff.mp (exactSqrtPrice_lt_iff.mp hlt)

theorem lowTick_lt (hlow : minSqrtPrice ≤ price) (hhigh : price < maxSqrtPrice) :
    lowTick price < maxTick := by
  apply lowTick_lt_of_le (natAbs_le_tickReach (by decide) (by omega)) hlow hhigh
  rw [tickSqrtPrice_maxTick]
  exact hhigh.le

theorem le_highTick (hlow : minSqrtPrice ≤ price) (hhigh : price < maxSqrtPrice) :
    minTick ≤ highTick price := by
  apply le_highTick_of_le (natAbs_le_tickReach (by omega) (by decide)) hlow hhigh
  rw [tickSqrtPrice_minTick]
  exact hlow

theorem tickSqrtPrice_low_le (hlow : minSqrtPrice ≤ price) (hhigh : price < maxSqrtPrice) :
    tickSqrtPrice (lowTick price) ≤ price := by
  have hlt := lowTick_lt hlow hhigh
  have hge := le_highTick hlow hhigh
  have hgap := highTick_le price
  have hreach : (lowTick price).natAbs ≤ tickReach :=
    natAbs_le_tickReach (by omega) (by omega)
  have hle := exactSqrtPrice_low_le hlow hhigh
  have hhigh' := tickSqrtPrice_le hreach
  have hlarge := le_exactSqrtPrice hreach
  have hcast : (tickSqrtPrice (lowTick price) : ℝ) ≤ price := by
    norm_num at hle hhigh' hlarge
    linarith
  exact_mod_cast hcast

theorem lt_tickSqrtPrice_high (hlow : minSqrtPrice ≤ price) (hhigh : price < maxSqrtPrice) :
    price < tickSqrtPrice (highTick price + 1) := by
  have hlt := lowTick_lt hlow hhigh
  have hle := le_highTick hlow hhigh
  have hgap := highTick_le price
  have hreach : (highTick price + 1).natAbs ≤ tickReach :=
    natAbs_le_tickReach (by omega) (by omega)
  have hge := le_exactSqrtPrice_high hlow hhigh
  have hlow' := le_tickSqrtPrice hreach
  have hpos : (0 : ℝ) < price := by
    exact_mod_cast lt_of_lt_of_le (by decide : 0 < minSqrtPrice) hlow
  have hcast : (price : ℝ) < tickSqrtPrice (highTick price + 1) := by
    norm_num at hge hlow'
    linarith
  exact_mod_cast hcast

/-- Every price within the bounds has a tick, the greatest one whose price it reaches. -/
theorem tickAt_spec (hlow : minSqrtPrice ≤ price) (hhigh : price < maxSqrtPrice) :
    ∃ tick, tickAt price = .ok tick ∧ minTick ≤ tick ∧ tick < maxTick ∧
      tickSqrtPrice tick ≤ price ∧ price < tickSqrtPrice (tick + 1) := by
  have hlowlt := lowTick_lt hlow hhigh
  have hhighge := le_highTick hlow hhigh
  have hgap := highTick_le price
  have horder := lowTick_le price
  have hbelow := tickSqrtPrice_low_le hlow hhigh
  have habove := lt_tickSqrtPrice_high hlow hhigh
  have hrequire : require (minSqrtPrice ≤ price ∧ price < maxSqrtPrice) .priceOutOfRange = .ok () :=
    require_eq_ok.mpr ⟨hlow, hhigh⟩
  rw [tickAt_eq, hrequire]
  generalize lowTick price = low at *
  generalize highTick price = high at *
  by_cases heq : low = high
  · refine ⟨low, ?_, by omega, hlowlt, hbelow, by rwa [heq]⟩
    refine bind_eq_ok.mpr ⟨(), rfl, ?_⟩
    rw [if_pos heq]
    rfl
  · have hsucc : high = low + 1 := by omega
    have hsqrt : sqrtPriceAt high = .ok (tickSqrtPrice high) :=
      sqrtPriceAt_eq_ok.mpr ⟨⟨hhighge, by omega⟩, rfl⟩
    by_cases hreached : tickSqrtPrice high ≤ price
    · refine ⟨high, ?_, hhighge, ?_, hreached, habove⟩
      · refine bind_eq_ok.mpr ⟨(), rfl, ?_⟩
        rw [if_neg heq]
        refine bind_eq_ok.mpr ⟨_, hsqrt, ?_⟩
        rw [if_pos hreached]
        rfl
      · refine lt_of_le_of_ne (by omega) fun hmax ↦ ?_
        rw [hmax, tickSqrtPrice_maxTick] at hreached
        exact absurd hhigh (not_lt.mpr hreached)
    · refine ⟨low, ?_, ?_, hlowlt, hbelow, ?_⟩
      · refine bind_eq_ok.mpr ⟨(), rfl, ?_⟩
        rw [if_neg heq]
        refine bind_eq_ok.mpr ⟨_, hsqrt, ?_⟩
        rw [if_neg hreached]
        rfl
      · by_contra hout
        have hmin : high = minTick := by omega
        rw [hmin, tickSqrtPrice_minTick] at hreached
        exact hreached hlow
      · rw [← hsucc]
        exact not_le.mp hreached

/-- Over the ticks within the bounds the square root of price is monotone, and only so. -/
theorem tickSqrtPrice_lt_iff {left right : ℤ} (hleft : minTick ≤ left) (hleft' : left ≤ maxTick)
    (hright : minTick ≤ right) (hright' : right ≤ maxTick) :
    tickSqrtPrice left < tickSqrtPrice right ↔ left < right := by
  have hleftreach : left.natAbs ≤ tickReach := natAbs_le_tickReach (by omega) (by omega)
  have hrightreach : right.natAbs ≤ tickReach := natAbs_le_tickReach (by omega) (by omega)
  constructor
  · intro hlt
    by_contra hle
    rcases eq_or_lt_of_le (not_lt.mp hle) with heq | hgt
    · rw [heq] at hlt
      exact lt_irrefl _ hlt
    · exact lt_asymm hlt (tickSqrtPrice_lt hrightreach hleftreach hgt)
  · exact tickSqrtPrice_lt hleftreach hrightreach

theorem tickSqrtPrice_le_iff {left right : ℤ} (hleft : minTick ≤ left) (hleft' : left ≤ maxTick)
    (hright : minTick ≤ right) (hright' : right ≤ maxTick) :
    tickSqrtPrice left ≤ tickSqrtPrice right ↔ left ≤ right := by
  rw [← not_lt, ← not_lt, tickSqrtPrice_lt_iff hright hright' hleft hleft']

/-- The tick that is found is the one of `tickAt_spec`. -/
theorem spec_of_tickAt {found : ℤ} (h : tickAt price = .ok found) :
    minTick ≤ found ∧ found < maxTick ∧
      tickSqrtPrice found ≤ price ∧ price < tickSqrtPrice (found + 1) := by
  have hbounds : minSqrtPrice ≤ price ∧ price < maxSqrtPrice := by
    rw [tickAt_eq, bind_eq_ok] at h
    obtain ⟨_, hrequire, -⟩ := h
    exact require_eq_ok.mp hrequire
  obtain ⟨floor, hfloor, hspec⟩ := tickAt_spec hbounds.1 hbounds.2
  obtain rfl : floor = found := Except.ok.inj (hfloor.symm.trans h)
  exact hspec

/-- A tick within the bounds is reached by a price exactly when it is at most the price's tick. -/
theorem tickSqrtPrice_le_iff_of_tickAt {tick found : ℤ} (hmin : minTick ≤ tick)
    (hmax : tick ≤ maxTick) (h : tickAt price = .ok found) :
    tickSqrtPrice tick ≤ price ↔ tick ≤ found := by
  obtain ⟨hge, hlt, hbelow, habove⟩ := spec_of_tickAt h
  constructor
  · intro hreached
    by_contra hout
    have hle := (tickSqrtPrice_le_iff (by omega) (by omega) hmin hmax).mpr
      (by omega : found + 1 ≤ tick)
    omega
  · intro hle
    exact le_trans ((tickSqrtPrice_le_iff hmin hmax hge hlt.le).mpr hle) hbelow

/-! ### The way there and back -/

theorem sqrtPriceAt_of_bounds {tick : ℤ} (hmin : minTick ≤ tick) (hmax : tick ≤ maxTick) :
    sqrtPriceAt tick = .ok (tickSqrtPrice tick) :=
  sqrtPriceAt_eq_ok.mpr ⟨⟨hmin, hmax⟩, rfl⟩

/-- The tick of the price of a tick is that tick. -/
theorem tickAt_tickSqrtPrice {tick : ℤ} (hmin : minTick ≤ tick) (hmax : tick < maxTick) :
    tickAt (tickSqrtPrice tick) = .ok tick := by
  have hlow : minSqrtPrice ≤ tickSqrtPrice tick := by
    rw [← tickSqrtPrice_minTick]
    exact (tickSqrtPrice_le_iff le_rfl (by decide) hmin hmax.le).mpr hmin
  have hhigh : tickSqrtPrice tick < maxSqrtPrice := by
    rw [← tickSqrtPrice_maxTick]
    exact (tickSqrtPrice_lt_iff hmin hmax.le (by decide) le_rfl).mpr hmax
  obtain ⟨found, hfound, hge, hlt, hbelow, -⟩ := tickAt_spec hlow hhigh
  have hle : found ≤ tick := (tickSqrtPrice_le_iff hge hlt.le hmin hmax.le).mp hbelow
  have hreached : tick ≤ found :=
    (tickSqrtPrice_le_iff_of_tickAt hmin hmax.le hfound).mp le_rfl
  rw [hfound, le_antisymm hle hreached]

/-- The two conversions undo each other. Every price within the bounds has a tick, which bounds
the ticks that the price reaches. From a tick to its price and back leads to the same tick, and
higher ticks have higher prices. -/
theorem tick_sqrtPrice_inverse :
    (∀ price, minSqrtPrice ≤ price → price < maxSqrtPrice →
      ∃ found, tickAt price = .ok found ∧ ∀ tick, minTick ≤ tick → tick ≤ maxTick →
        ∃ reached, sqrtPriceAt tick = .ok reached ∧ (reached ≤ price ↔ tick ≤ found)) ∧
    (∀ tick, minTick ≤ tick → tick < maxTick → (sqrtPriceAt tick >>= tickAt) = .ok tick) ∧
    ∀ low high, minTick ≤ low → low < high → high ≤ maxTick →
      ∃ lowPrice highPrice, sqrtPriceAt low = .ok lowPrice ∧ sqrtPriceAt high = .ok highPrice ∧
        lowPrice < highPrice := by
  refine ⟨fun price hlow hhigh ↦ ?_, fun tick hmin hmax ↦ ?_, fun low high hmin hlt hmax ↦ ?_⟩
  · obtain ⟨found, hfound, -⟩ := tickAt_spec hlow hhigh
    refine ⟨found, hfound, fun tick hmin hmax ↦ ?_⟩
    exact ⟨tickSqrtPrice tick, sqrtPriceAt_of_bounds hmin hmax,
      tickSqrtPrice_le_iff_of_tickAt hmin hmax hfound⟩
  · exact bind_eq_ok.mpr ⟨_, sqrtPriceAt_of_bounds hmin hmax.le, tickAt_tickSqrtPrice hmin hmax⟩
  · have hlowMax : low ≤ maxTick := hlt.le.trans hmax
    have hhighMin : minTick ≤ high := hmin.trans hlt.le
    exact ⟨_, _, sqrtPriceAt_of_bounds hmin hlowMax, sqrtPriceAt_of_bounds hhighMin hmax,
      (tickSqrtPrice_lt_iff hmin hlowMax hhighMin hmax).mpr hlt⟩

/-- The price four lies between the ticks 13863 and 13864. -/
theorem tick_sqrtPrice_inverse_four :
    tickAt (2 * q96) = .ok 13863 ∧
      (∃ reached, sqrtPriceAt 13863 = .ok reached ∧ reached ≤ 2 * q96) ∧
      (∃ reached, sqrtPriceAt 13864 = .ok reached ∧ ¬reached ≤ 2 * q96) ∧
      (sqrtPriceAt 13863 >>= tickAt) = .ok 13863 := by
  obtain ⟨hfloor, hback, -⟩ := tick_sqrtPrice_inverse
  obtain ⟨found, hfound, hreached⟩ := hfloor (2 * q96) (by decide) (by decide)
  have htick : tickAt (2 * q96) = .ok 13863 := by decide +kernel
  obtain rfl : found = 13863 := Except.ok.inj (hfound.symm.trans htick)
  obtain ⟨below, hbelow, hbelowIff⟩ := hreached 13863 (by decide) (by decide)
  obtain ⟨above, habove, haboveIff⟩ := hreached 13864 (by decide) (by decide)
  exact ⟨htick, ⟨below, hbelow, hbelowIff.mpr le_rfl⟩,
    ⟨above, habove, fun hle ↦ absurd (haboveIff.mp hle) (by decide)⟩,
    hback 13863 (by decide) (by decide)⟩

end RangeBook
