import Mathlib
import RangeBook.Proofs.Curve

/-!
# What a trade moves along the curve

The price after a trade is rounded so that the move from the old price to it stands for no more than
the amount that enters (`exactAmount_priceAfterInput_le`), and for no less than the amount that
leaves (`le_exactAmount_priceAfterOutput`).
-/

set_option autoImplicit false
set_option relaxedAutoImplicit false

namespace RangeBook.Curve

variable {paid : Token} {current next liquidity amount : ℕ}

/-- The curve holds at least the amount that left between the old price and the next one. -/
theorem le_exactAmount_priceAfterOutput
    (h : priceAfterOutput current liquidity amount paid = .ok next) :
    (amount : ℚ) ≤ exactAmount paid.other current next liquidity := by
  unfold priceAfterOutput at h
  obtain ⟨_, hcurrent, h⟩ := bind_eq_ok.mp h
  obtain ⟨_, -, h⟩ := bind_eq_ok.mp h
  have hpos : 0 < current := Nat.pos_of_ne_zero (require_eq_ok.mp hcurrent)
  cases paid with
  | zero =>
    obtain ⟨hliquidity, hfall, rfl⟩ := priceAfterOneOut_spec h
    have hceil := (divCeil_le_iff hliquidity).mp (le_refl (divCeil (amount * q96) liquidity))
    rw [exactAmount_comm, Token.other, exactAmount_one_eq (Nat.sub_le _ _),
      le_div_iff₀ (by exact_mod_cast q96_pos), Nat.sub_sub_self hfall.le, mul_comm liquidity]
    exact_mod_cast hceil
  | one =>
    obtain ⟨rfl, rfl⟩ | ⟨hfits, hnext⟩ := priceAfterZeroOut_spec h
    · rw [exactAmount_self, Nat.cast_zero]
    set numerator := liquidity * q96 with hnumerator
    have hrest : 0 < numerator - amount * current := Nat.sub_pos_of_lt hfits
    have hceil : numerator * current ≤ next * (numerator - amount * current) := by
      rw [hnext]
      exact (divCeil_le_iff hrest).mp le_rfl
    have hmoved : numerator * current + amount * (current * next) ≤ next * numerator := by
      rw [Nat.mul_sub, Nat.le_sub_iff_add_le (Nat.mul_le_mul_left _ hfits.le)] at hceil
      calc numerator * current + amount * (current * next)
          = numerator * current + next * (amount * current) := by ring
        _ ≤ next * numerator := hceil
    have hle : current ≤ next := by
      refine Nat.le_of_mul_le_mul_left ?_ (lt_of_lt_of_le hrest (Nat.sub_le _ _))
      rw [mul_comm numerator next]
      exact le_trans (Nat.le_add_right _ _) hmoved
    have hshift : amount * (current * next) ≤ numerator * (next - current) := by
      rw [Nat.mul_sub, mul_comm numerator next]
      exact Nat.le_sub_of_add_le' hmoved
    rw [Token.other, exactAmount_zero_eq hpos hle,
      le_div_iff₀ (by exact_mod_cast Nat.mul_pos hpos (lt_of_lt_of_le hpos hle))]
    exact_mod_cast hshift

/-- The way from the old price to the next one takes no more than the amount that entered. -/
theorem exactAmount_priceAfterInput_le
    (h : priceAfterInput current liquidity amount paid = .ok next) :
    exactAmount paid current next liquidity ≤ amount := by
  unfold priceAfterInput at h
  obtain ⟨_, hcurrent, h⟩ := bind_eq_ok.mp h
  obtain ⟨_, hliquidity, h⟩ := bind_eq_ok.mp h
  have hpos : 0 < current := Nat.pos_of_ne_zero (require_eq_ok.mp hcurrent)
  rw [require_eq_ok] at hliquidity
  cases paid with
  | zero =>
    obtain ⟨hlow, hhigh⟩ := priceAfterZeroIn_spec hpos h
    set numerator := liquidity * q96 with hnumerator
    have hnumeratorPos : 0 < numerator := Nat.mul_pos hliquidity q96_pos
    have hnext : 0 < next := by
      rcases Nat.eq_zero_or_pos next with hzero | hnext
      · rw [hzero, zero_mul] at hlow
        exact absurd (Nat.mul_pos hnumeratorPos hpos) (not_lt.mpr hlow)
      · exact hnext
    have hshift : numerator * (current - next) ≤ amount * (next * current) := by
      rw [Nat.mul_sub]
      refine Nat.sub_le_of_le_add ?_
      calc numerator * current
          ≤ next * (numerator + amount * current) := hlow
        _ = amount * (next * current) + numerator * next := by ring
    rw [exactAmount_comm, exactAmount_zero_eq hnext hhigh,
      div_le_iff₀ (by exact_mod_cast Nat.mul_pos hnext hpos)]
    exact_mod_cast hshift
  | one =>
    obtain ⟨hliquidity, rfl⟩ := priceAfterOneIn_spec h
    rw [exactAmount_one_eq (Nat.le_add_right _ _), div_le_iff₀ (by exact_mod_cast q96_pos),
      Nat.add_sub_cancel_left]
    exact_mod_cast Nat.mul_div_le _ _

end RangeBook.Curve
