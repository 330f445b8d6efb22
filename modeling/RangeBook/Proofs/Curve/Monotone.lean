import Mathlib
import RangeBook.Proofs.Curve.Trade

/-!
# Trades of more

The further the price goes, the more the curve holds on the way (`exactAmount_le_of_leads`). So more
is paid and more is bought, after rounding as before it (`amount_up_le_amount_up`,
`amount_down_le_amount_down`).

The other way round, the more enters or leaves, the further the price goes
(`priceAfterInput_leads`, `priceAfterOutput_leads`). The price after token zero entered is worked
out in two ways. The one for products that leave 256 bits rounds a quotient down in its divisor,
which may take the price less far than the other one would. But it is only used for greater amounts,
and the unit that such an amount has in addition makes up for the rounding.
-/

set_option autoImplicit false
set_option relaxedAutoImplicit false

namespace RangeBook

theorem Token.Leads.pos {paid : Token} {first between last : ℕ}
    (h : paid.Leads first between) (hfirst : 0 < first) (hlast : 0 < last)
    (h' : paid.Leads between last) :
    0 < between := by
  cases paid with
  | zero => exact lt_of_lt_of_le hlast h'
  | one => exact lt_of_lt_of_le hfirst h

namespace Curve

variable {paid token : Token} {current near far next next' liquidity amount amount' : ℕ}

/-! ### Amounts -/

theorem amount_self {price : ℕ} (rounding : Rounding) (hprice : 0 < price) :
    Curve.amount token rounding price price liquidity = .ok 0 := by
  have hnothing : ∀ {a c : ℕ}, 0 < c → mulDiv rounding a 0 c = .ok 0 := by
    intro a c hpos
    have hfits : 0 < twoPow 256 := twoPow_pos 256
    cases rounding
    · exact mulDivFloor_eq_ok.mpr ⟨hpos.ne', by simpa using hfits, by simp⟩
    · have hzero : divCeil (a * 0) c = 0 :=
        Nat.le_zero.mp ((divCeil_le_iff hpos).mpr (by simp))
      exact mulDivCeil_eq_ok.mpr ⟨hpos.ne', by rwa [hzero], hzero.symm⟩
  cases token with
  | zero =>
    have hquotient : quotient rounding 0 price = 0 := by
      cases rounding
      · exact Nat.zero_div price
      · exact Nat.le_zero.mp ((divCeil_le_iff hprice).mpr (Nat.zero_le _))
    unfold Curve.amount amountZero
    simp only [max_self, min_self, Nat.sub_self]
    refine bind_eq_ok.mpr ⟨(), require_eq_ok.mpr hprice, ?_⟩
    exact bind_eq_ok.mpr ⟨0, hnothing hprice, congrArg Except.ok hquotient⟩
  | one =>
    unfold Curve.amount amountOne
    rw [max_self, min_self, Nat.sub_self]
    exact hnothing q96_pos

theorem exactAmount_le_of_leads (hcurrent : 0 < current) (hfar : 0 < far)
    (hnear : paid.Leads current near) (hleads : paid.Leads near far) :
    exactAmount token current near liquidity ≤ exactAmount token current far liquidity := by
  have hliquidity : (0 : ℚ) ≤ liquidity := Nat.cast_nonneg liquidity
  have hpos : 0 < near := hnear.pos hcurrent hfar hleads
  cases paid with
  | zero =>
    rw [exactAmount_comm, exactAmount_of_le hnear, exactAmount_comm,
      exactAmount_of_le (le_trans hleads hnear)]
    exact mul_le_mul_of_nonneg_left (sub_le_sub_left (height_le_height hfar hleads) _) hliquidity
  | one =>
    rw [exactAmount_of_le hnear, exactAmount_of_le (le_trans hnear hleads)]
    exact mul_le_mul_of_nonneg_left
      (sub_le_sub_right (height_le_height hpos hleads) _) hliquidity

/-- What the curve holds on a way in two parts. -/
theorem exactAmount_add (hnear : paid.Leads current near) (hleads : paid.Leads near far) :
    exactAmount token current near liquidity + exactAmount token near far liquidity =
      exactAmount token current far liquidity := by
  cases paid with
  | zero =>
    rw [exactAmount_comm, exactAmount_of_le hnear, exactAmount_comm _ near, exactAmount_of_le hleads,
      exactAmount_comm, exactAmount_of_le (le_trans hleads hnear)]
    ring
  | one =>
    rw [exactAmount_of_le hnear, exactAmount_of_le hleads,
      exactAmount_of_le (le_trans hnear hleads)]
    ring

theorem amount_up_le_amount_up (hcurrent : 0 < current) (hfar : 0 < far)
    (hnear : paid.Leads current near) (hleads : paid.Leads near far)
    (h : Curve.amount token .up current near liquidity = .ok amount)
    (h' : Curve.amount token .up current far liquidity = .ok amount') : amount ≤ amount' :=
  (amount_up_le_iff h).mpr (le_trans (exactAmount_le_of_leads hcurrent hfar hnear hleads)
    (exactAmount_le_amount_up h'))

theorem amount_down_le_amount_down (hcurrent : 0 < current) (hfar : 0 < far)
    (hnear : paid.Leads current near) (hleads : paid.Leads near far)
    (h : Curve.amount token .down current near liquidity = .ok amount)
    (h' : Curve.amount token .down current far liquidity = .ok amount') : amount ≤ amount' :=
  (le_amount_down_iff h').mpr (le_trans (amount_down_le_exactAmount h)
    (exactAmount_le_of_leads hcurrent hfar hnear hleads))

/-! ### Prices -/

/-- How far the price falls where token zero enters: no less than the quotient that is used for
greater amounts says, if the amount is one unit more than that. -/
theorem priceAfterZeroIn_le (hcurrent : 0 < current) (hle : amount ≤ amount')
    (h : priceAfterZeroIn current liquidity amount = .ok next)
    (h' : priceAfterZeroIn current liquidity amount' = .ok next') : next' ≤ next := by
  rcases Nat.eq_or_lt_of_le hle with rfl | hlt
  · rw [h] at h'
    exact (Except.ok.inj h').ge
  obtain ⟨hlow, -⟩ := priceAfterZeroIn_spec hcurrent h
  have hamount' : amount' ≠ 0 := (Nat.zero_lt_of_lt hlt).ne'
  unfold priceAfterZeroIn at h'
  rw [if_neg hamount'] at h'
  obtain ⟨_, -, h'⟩ := bind_eq_ok.mp h'
  set numerator := liquidity * q96 with hnumerator
  dsimp only at h'
  split at h'
  · obtain ⟨hpos, -, rfl⟩ := mulDivCeil_eq_ok.mp h'
    rw [divCeil_le_iff (Nat.pos_of_ne_zero hpos)]
    exact le_trans hlow
      (Nat.mul_le_mul_left _ (Nat.add_le_add_left (Nat.mul_le_mul_right _ hle) _))
  · obtain ⟨denominator, hdenominator, h'⟩ := bind_eq_ok.mp h'
    obtain ⟨-, rfl⟩ := within_eq_ok.mp hdenominator
    rw [← Except.ok.inj h', divCeil_le_iff (Nat.add_pos_right _ (Nat.zero_lt_of_lt hlt))]
    -- the unit by which the amounts differ makes up for what the divisor loses
    have hdivisor : numerator + amount * current ≤ (numerator / current + amount') * current := by
      calc numerator + amount * current
          ≤ (numerator / current + 1) * current + amount * current :=
            Nat.add_le_add_right (Nat.lt_mul_of_div_lt (Nat.lt_succ_self _) hcurrent).le _
        _ = (numerator / current + (amount + 1)) * current := by ring
        _ ≤ (numerator / current + amount') * current :=
            Nat.mul_le_mul_right _ (Nat.add_le_add_left hlt _)
    refine Nat.le_of_mul_le_mul_right ?_ hcurrent
    calc numerator * current
        ≤ next * (numerator + amount * current) := hlow
      _ ≤ next * ((numerator / current + amount') * current) := Nat.mul_le_mul_left _ hdivisor
      _ = next * (numerator / current + amount') * current := (Nat.mul_assoc _ _ _).symm

/-- More that enters takes the price no less far. -/
theorem priceAfterInput_leads (hle : amount ≤ amount')
    (h : priceAfterInput current liquidity amount paid = .ok next)
    (h' : priceAfterInput current liquidity amount' paid = .ok next') : paid.Leads next next' := by
  unfold priceAfterInput at h h'
  obtain ⟨_, hcurrent, h⟩ := bind_eq_ok.mp h
  obtain ⟨_, -, h⟩ := bind_eq_ok.mp h
  obtain ⟨_, -, h'⟩ := bind_eq_ok.mp h'
  obtain ⟨_, -, h'⟩ := bind_eq_ok.mp h'
  cases paid with
  | zero => exact priceAfterZeroIn_le (Nat.pos_of_ne_zero (require_eq_ok.mp hcurrent)) hle h h'
  | one =>
    obtain ⟨-, rfl⟩ := priceAfterOneIn_spec h
    obtain ⟨-, rfl⟩ := priceAfterOneIn_spec h'
    exact Nat.add_le_add_left (Nat.div_le_div_right (Nat.mul_le_mul_right _ hle)) _

/-- More that leaves takes the price no less far. -/
theorem priceAfterOutput_leads (hnext' : 0 < next') (htoward : paid.Leads current next')
    (hle : amount ≤ amount')
    (h : priceAfterOutput current liquidity amount paid = .ok next)
    (h' : priceAfterOutput current liquidity amount' paid = .ok next') : paid.Leads next next' := by
  have hheld := le_exactAmount_priceAfterOutput h'
  have hleCast : (amount : ℚ) ≤ amount' := by exact_mod_cast hle
  exact (priceAfterOutput_between hnext' htoward (le_trans hleCast hheld) h).2

end Curve

end RangeBook
