import Mathlib
import RangeBook.Proofs.Share

/-!
# Smaller shares

Scaling a share by less makes it no greater (`scale_le_scale`). This is not plain, because the
quotient that a share is scaled to has its leading digits rounded up, and how many digits there are
depends on the quotient. But rounding up can only lengthen the smaller quotient to the length that
the greater one has at least. So its exponent is no less, and where both exponents are the same the
same places of both quotients are rounded.
-/

set_option autoImplicit false
set_option relaxedAutoImplicit false

namespace RangeBook.Share

variable {share next next' : Share} {numerator numerator' total amount : ℕ}

theorem smallest_le (share : Share) : smallest ≤ share := by
  rcases Nat.lt_or_ge share.exponent (twoPow 128 - 1) with hlt | hge
  · exact .inl hlt
  · exact .inr ⟨le_antisymm hge (Nat.le_sub_one_of_lt share.exponent_lt), share.mantissa_ge⟩

/-! ### Leading digits -/

theorem digits_le_digits {less more : ℕ} (hpos : 0 < less) (hle : less ≤ more) :
    digits less ≤ digits more :=
  digits_le hpos (lt_of_le_of_lt hle (lt_twoPow_digits more))

theorem pos_of_digits_ge (hdigits : 256 ≤ digits amount) : 0 < amount := by
  refine Nat.pos_of_ne_zero fun hzero ↦ ?_
  rw [hzero] at hdigits
  exact absurd hdigits (by decide)

/-- The leading digits are those of the value divided and rounded up, as far as 256 digits allow. -/
theorem leadingDigits_eq (hamount : amount < twoPow 512) (hdigits : 256 ≤ digits amount) :
    leadingDigits amount =
      min (divCeil amount (twoPow (digits amount - 256))) (twoPow 256 - 1) := by
  have hlength : amount < twoPow 256 * twoPow (digits amount - 256) := by
    rw [← twoPow_add, Nat.add_sub_cancel' hdigits]
    exact lt_twoPow_digits amount
  unfold leadingDigits
  rcases hdropped : dropDigits amount (digits amount - 256) with ⟨kept, dropped⟩
  obtain ⟨hsplit, hlt⟩ := dropDigits_split hamount hdropped
  have hunit := twoPow_pos (digits amount - 256)
  generalize twoPow (digits amount - 256) = unit at hlength hsplit hlt hunit ⊢
  have hkept : kept < twoPow 256 := by
    refine Nat.lt_of_mul_lt_mul_right (lt_of_le_of_lt ?_ hlength)
    omega
  dsimp only
  split
  · rename_i hnone
    have hceil : divCeil amount unit = kept := by
      rw [← hsplit, hnone, add_zero, divCeil_mul_self kept hunit]
    rw [hceil, min_eq_left (Nat.le_sub_one_of_lt hkept)]
  · rename_i hsome
    rw [← hsplit, divCeil_add_of_pos kept (Nat.pos_of_ne_zero hsome) hlt.le]

/-- Leading digits keep the order of values that are rounded in the same places. -/
theorem leadingDigits_le {less more places : ℕ} (hless : less < twoPow 512)
    (hmore : more < twoPow 512) (hdigits : 256 ≤ digits more)
    (hlength : digits less = digits more + places) (hle : less ≤ more * twoPow places) :
    leadingDigits less ≤ leadingDigits more := by
  rw [leadingDigits_eq hless (by omega), leadingDigits_eq hmore hdigits]
  refine min_le_min_right _ ((divCeil_le_iff (twoPow_pos _)).mpr ?_)
  calc less ≤ more * twoPow places := hle
    _ ≤ divCeil more (twoPow (digits more - 256)) * twoPow (digits more - 256) * twoPow places :=
      Nat.mul_le_mul_right _ ((divCeil_le_iff (twoPow_pos _)).mp le_rfl)
    _ = divCeil more (twoPow (digits more - 256)) * twoPow (digits less - 256) := by
      rw [Nat.mul_assoc, ← twoPow_add, hlength, Nat.sub_add_comm hdigits]

/-! ### Scaling -/

/-- A smaller quotient, in the places that it has more than a greater one, is no greater. -/
theorem scaledRatio_le (htotal : 0 < total) (hle : numerator ≤ numerator')
    (hdigits : digits (share.mantissa * numerator) ≤ digits (share.mantissa * numerator'))
    (hlength : digits (share.mantissa * numerator') ≤ 512) :
    share.scaledRatio numerator total ≤ share.scaledRatio numerator' total *
      twoPow (digits (share.mantissa * numerator') - digits (share.mantissa * numerator)) := by
  unfold scaledRatio
  generalize digits (share.mantissa * numerator) = length at hdigits ⊢
  generalize digits (share.mantissa * numerator') = length' at hdigits hlength ⊢
  have hproduct : share.mantissa * numerator ≤ share.mantissa * numerator' :=
    Nat.mul_le_mul_left _ hle
  generalize share.mantissa * numerator = product at hproduct ⊢
  generalize share.mantissa * numerator' = product' at hproduct ⊢
  rw [divCeil_le_iff htotal]
  calc product * twoPow (512 - length)
      = product * twoPow (512 - length') * twoPow (length' - length) := by
        rw [Nat.mul_assoc, ← twoPow_add]
        congr 2
        omega
    _ ≤ product' * twoPow (512 - length') * twoPow (length' - length) :=
        Nat.mul_le_mul_right _ (Nat.mul_le_mul_right _ hproduct)
    _ ≤ divCeil (product' * twoPow (512 - length')) total * total * twoPow (length' - length) :=
        Nat.mul_le_mul_right _ ((divCeil_le_iff htotal).mp le_rfl)
    _ = _ := Nat.mul_right_comm _ _ _

section

variable (hdigits : digits (share.mantissa * numerator) ≤ digits (share.mantissa * numerator'))
  (hratio : share.scaledRatio numerator total ≤ share.scaledRatio numerator' total *
    twoPow (digits (share.mantissa * numerator') - digits (share.mantissa * numerator)))
  (hscaled : ScaledUp share numerator total (share.scaledRatio numerator total)
    (share.scaledExponent numerator total))

include hdigits hratio hscaled

/-- Scaling by less leaves no smaller exponent: the smaller quotient has no more digits than the
greater one in the same places. -/
theorem scaledExponent_le :
    share.scaledExponent numerator' total ≤ share.scaledExponent numerator total := by
  have hratioPos := pos_of_digits_ge hscaled.digits_ge
  have hratioDigits : digits (share.scaledRatio numerator total) ≤
      digits (share.scaledRatio numerator' total) +
        (digits (share.mantissa * numerator') - digits (share.mantissa * numerator)) := by
    refine digits_le hratioPos (lt_of_le_of_lt hratio ?_)
    rw [twoPow_add]
    exact Nat.mul_lt_mul_of_pos_right (lt_twoPow_digits _) (twoPow_pos _)
  unfold scaledExponent
  omega

/-- Where scaling by less leaves the same exponent, it leaves no greater leading digits. -/
theorem leadingDigits_scaledRatio_le
    (hscaled' : ScaledUp share numerator' total (share.scaledRatio numerator' total)
      (share.scaledExponent numerator' total))
    (hlost : digits (share.mantissa * numerator) ≤
      768 - digits (share.scaledRatio numerator total))
    (hlost' : digits (share.mantissa * numerator') ≤
      768 - digits (share.scaledRatio numerator' total))
    (heq : share.scaledExponent numerator total = share.scaledExponent numerator' total) :
    leadingDigits (share.scaledRatio numerator total) ≤
      leadingDigits (share.scaledRatio numerator' total) := by
  have hone : 1 ≤ digits (share.mantissa * numerator) := Nat.le_add_left 1 _
  have hsame : digits (share.scaledRatio numerator total) =
      digits (share.scaledRatio numerator' total) +
        (digits (share.mantissa * numerator') - digits (share.mantissa * numerator)) := by
    unfold scaledExponent at heq
    omega
  exact leadingDigits_le hscaled.ratio_lt hscaled'.ratio_lt hscaled'.digits_ge hsame hratio

end

/-- Scaling a share by less makes it no greater. -/
theorem scale_le_scale (htotal : total < twoPow 256) (hle : numerator ≤ numerator')
    (h : share.scale numerator total = .ok next)
    (h' : share.scale numerator' total = .ok next') : next ≤ next' := by
  obtain ⟨hpos, hwithin⟩ := scale_eq_ok h
  obtain ⟨-, hwithin'⟩ := scale_eq_ok h'
  obtain ⟨hlost, hscaled, hresult⟩ := scaled_of_scale htotal h
  obtain ⟨hlost', hscaled', hresult'⟩ := scaled_of_scale htotal h'
  have hproduct : share.mantissa * numerator ≤ share.mantissa * numerator' :=
    Nat.mul_le_mul_left _ hle
  have hproductPos : 0 < share.mantissa * numerator := Nat.mul_pos share.mantissa_pos hpos
  have hdigits := digits_le_digits hproductPos hproduct
  have hlength : digits (share.mantissa * numerator') ≤ 512 :=
    digits_le (lt_of_lt_of_le hproductPos hproduct)
      (share.mantissa_mul_lt (lt_of_le_of_lt hwithin' htotal))
  have hratio := scaledRatio_le (lt_of_lt_of_le hpos hwithin) hle hdigits hlength
  have hexponent := scaledExponent_le hdigits hratio hscaled
  obtain ⟨hmantissa, hexponentEq⟩ | ⟨-, rfl⟩ := hresult
  · obtain ⟨hmantissa', hexponentEq'⟩ | ⟨hlow, -⟩ := hresult'
    · rcases Nat.eq_or_lt_of_le hexponent with heq | hlt
      · refine .inr ⟨by rw [hexponentEq, hexponentEq', heq], ?_⟩
        rw [hmantissa, hmantissa']
        exact leadingDigits_scaledRatio_le hdigits hratio hscaled hscaled' hlost hlost' heq.symm
      · exact .inl (by rwa [hexponentEq, hexponentEq'])
    · have hlt := next.exponent_lt
      rw [hexponentEq] at hlt
      exact absurd (lt_of_le_of_lt (le_trans hlow hexponent) hlt) (lt_irrefl _)
  · exact smallest_le next'

end RangeBook.Share
