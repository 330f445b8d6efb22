import Mathlib
import RangeBook.Proofs.Share.Portion
import RangeBook.Proofs.Share.Scaling

/-!
# Chains of fills

A level that is filled again and again has its share scaled by one fraction after the other
(`scaleAll`). While the exponent has room, each of them makes a relative error of at most
`2 ^ (-255)`, down (`mul_exact_le_scale`) or up (`scale_le_mul_exact`), also where the mantissa is
the least one there is and its last place counts most. So the errors of a chain multiply
(`scaleAll_tracks`), and those of `2 ^ 64` fills are still too small to move the part of an amount of
128 bits by more than one unit (`scaleAll_tracks_exactShare`).
-/

set_option autoImplicit false
set_option relaxedAutoImplicit false

namespace RangeBook.Share

variable {share next : Share} {numerator denominator : ℕ} {fractions : List (ℕ × ℕ)}

/-! ### One fill -/

/-- The quotient that a share is scaled to, before it is rounded up, fills a mantissa. -/
theorem two_pow_le_quotient (share : Share) (hpos : 0 < numerator) (hle : numerator ≤ denominator)
    (hdenominator : denominator < twoPow 256) :
    2 ^ 255 ≤ share.value * (numerator / denominator) *
      2 ^ (digits (share.scaledRatio numerator denominator) +
        share.scaledExponent numerator denominator) := by
  have hdenominatorPos : (0 : ℚ) < denominator := by exact_mod_cast lt_of_lt_of_le hpos hle
  have hwidth : (denominator : ℚ) ≤ 2 ^ 256 := by
    rw [← cast_twoPow]
    exact_mod_cast hdenominator.le
  have hraised : (2 ^ 511 : ℚ) ≤ share.raisedProduct numerator := by
    rw [← cast_twoPow]
    exact_mod_cast (raisedProduct_bounds share hpos hle hdenominator).1
  rw [value_mul_eq_quotient share hpos hle hdenominator, le_div_iff₀ hdenominatorPos]
  calc (2 : ℚ) ^ 255 * denominator ≤ 2 ^ 255 * 2 ^ 256 :=
        mul_le_mul_of_nonneg_left hwidth (by positivity)
    _ = 2 ^ 511 := (pow_add 2 255 256).symm
    _ ≤ share.raisedProduct numerator := hraised

/-- A share falls below the exact product by no more than a small part of it. -/
theorem mul_exact_le_scale (hdenominator : denominator < twoPow 256)
    (h : share.scale numerator denominator = .ok next) :
    (1 - 1 / 2 ^ 255) * (share.value * (numerator / denominator)) ≤ next.value := by
  have hexact := lt_scale_add_unit hdenominator h
  have hunit := next.unit_le
  rw [← le_div_iff₀ (by positivity)] at hunit
  calc (1 - 1 / 2 ^ 255) * (share.value * (numerator / denominator))
      ≤ (1 - 1 / 2 ^ 255) * (next.value + next.value / 2 ^ 255) :=
        mul_le_mul_of_nonneg_left (by linarith) (by norm_num)
    _ = (1 - (1 / 2 ^ 255) ^ 2) * next.value := by ring
    _ ≤ next.value := mul_le_of_le_one_left next.value_pos.le (by norm_num)

/-- Where the mantissa is the least one, its last place counts too much to bound the error by. But
then all digits that do not fit the mantissa are zeros, and the quotient was only rounded up to an
integer. -/
theorem ScaledUp.le_mul_exact_of_least {ratio exponent : ℕ}
    (h : ScaledUp share numerator denominator ratio exponent)
    (hquotient : 2 ^ 255 ≤
      share.value * (numerator / denominator) * 2 ^ (digits ratio + exponent))
    (hleast : next.mantissa = twoPow 255) (hexponent : next.exponent = exponent) :
    next.value ≤ (1 + 1 / 2 ^ 255) * (share.value * (numerator / denominator)) := by
  have hdigits := h.digits_ge
  have hlength : 2 ^ (digits ratio - 1) ≤ (ratio : ℚ) := by
    rw [← cast_twoPow]
    exact_mod_cast twoPow_digits_le (pos_of_digits_ge hdigits)
  have hplaces : next.value * 2 ^ (digits ratio + exponent) = 2 ^ (digits ratio - 1) := by
    rw [value_eq_mul_unit, mul_assoc, h.places hexponent, hleast, cast_twoPow, ← pow_add,
      show 255 + (digits ratio - 256) = digits ratio - 1 by omega]
  have hratio := h.ratio_lt_add_one
  rw [← mul_le_mul_iff_left₀ (show (0 : ℚ) < 2 ^ (digits ratio + exponent) by positivity),
    mul_assoc, hplaces]
  linarith

/-- Where the mantissa is not the least one, its last place is a small part of the exact product. -/
theorem le_mul_exact_of_lt_add_unit {exact : ℚ} (hmore : twoPow 255 < next.mantissa)
    (hnear : next.value < exact + next.unit) : next.value ≤ (1 + 1 / 2 ^ 255) * exact := by
  have hmantissa : (2 ^ 255 + 1 : ℚ) ≤ next.mantissa := by
    rw [← cast_twoPow]
    exact_mod_cast hmore
  have hvalue := mul_le_mul_of_nonneg_right hmantissa next.unit_pos.le
  rw [← value_eq_mul_unit] at hvalue
  linarith

/-- A share is rounded up by no more than a small part of the exact product. -/
theorem scale_le_mul_exact (hdenominator : denominator < twoPow 256)
    (hroom : share.exponent + 256 < twoPow 128)
    (h : share.scale numerator denominator = .ok next) :
    next.value ≤ (1 + 1 / 2 ^ 255) * (share.value * (numerator / denominator)) := by
  rcases Nat.eq_or_lt_of_le next.mantissa_ge with hleast | hmore
  · obtain ⟨hpos, hle⟩ := scale_eq_ok h
    obtain ⟨-, hscaled, ⟨-, hexponent⟩ | ⟨hlow, -⟩⟩ := scaled_of_scale hdenominator h
    · exact hscaled.le_mul_exact_of_least (two_pow_le_quotient share hpos hle hdenominator)
        hleast.symm hexponent
    · exact absurd (lt_of_le_of_lt hscaled.exponent_le hroom) (not_lt.mpr hlow)
  · exact le_mul_exact_of_lt_add_unit hmore (scale_lt_add_unit hdenominator hroom h)

/-- Scaling raises the exponent by at most 256. -/
theorem exponent_le_of_scale (hdenominator : denominator < twoPow 256)
    (hroom : share.exponent + 256 < twoPow 128)
    (h : share.scale numerator denominator = .ok next) :
    next.exponent ≤ share.exponent + 256 := by
  obtain ⟨ratio, exponent, hscaled, ⟨-, hexponent⟩ | ⟨hlow, -⟩⟩ := scaledUp_of_scale hdenominator h
  · exact hexponent ▸ hscaled.exponent_le
  · exact absurd (lt_of_le_of_lt hscaled.exponent_le hroom) (not_lt.mpr hlow)

/-! ### Many fills -/

/-- Scales a share by one fraction after the other. -/
def scaleAll (share : Share) (fractions : List (ℕ × ℕ)) : Outcome Share :=
  fractions.foldlM (fun share fraction ↦ share.scale fraction.1 fraction.2) share

/-- The exact product of fractions. -/
def exactShare (fractions : List (ℕ × ℕ)) : ℚ :=
  (fractions.map fun fraction ↦ (fraction.1 / fraction.2 : ℚ)).prod

/-- The fractions that a share can be scaled by: above zero, at most one, and of 256 bits. -/
def IsPart (fraction : ℕ × ℕ) : Prop :=
  0 < fraction.1 ∧ fraction.1 ≤ fraction.2 ∧ fraction.2 < twoPow 256

instance (fraction : ℕ × ℕ) : Decidable (IsPart fraction) :=
  inferInstanceAs (Decidable (_ ∧ _))

theorem exactShare_cons (fraction : ℕ × ℕ) (fractions : List (ℕ × ℕ)) :
    exactShare (fraction :: fractions) = fraction.1 / fraction.2 * exactShare fractions :=
  rfl

theorem IsPart.bounds {fraction : ℕ × ℕ} (h : IsPart fraction) :
    (0 : ℚ) < fraction.1 / fraction.2 ∧ (fraction.1 / fraction.2 : ℚ) ≤ 1 := by
  have hnumerator : (0 : ℚ) < fraction.1 := by exact_mod_cast h.1
  have hle : (fraction.1 : ℚ) ≤ fraction.2 := by exact_mod_cast h.2.1
  exact ⟨div_pos hnumerator (lt_of_lt_of_le hnumerator hle),
    (div_le_one (lt_of_lt_of_le hnumerator hle)).mpr hle⟩

theorem exactShare_bounds (h : ∀ fraction ∈ fractions, IsPart fraction) :
    0 < exactShare fractions ∧ exactShare fractions ≤ 1 := by
  induction fractions with
  | nil => exact ⟨one_pos, le_rfl⟩
  | cons fraction fractions ih =>
    obtain ⟨hfirst, hfirstLe⟩ := (h fraction List.mem_cons_self).bounds
    obtain ⟨hrest, hrestLe⟩ := ih fun other hother ↦ h other (List.mem_cons_of_mem _ hother)
    rw [exactShare_cons]
    exact ⟨mul_pos hfirst hrest, mul_le_one₀ hfirstLe hrest.le hrestLe⟩

/-- A share that is scaled by one fraction after the other is at most the share that it was, and its
relative error is at most that of one rounding for each fraction. -/
theorem scaleAll_tracks (h : ∀ fraction ∈ fractions, IsPart fraction)
    (hroom : share.exponent + 256 * fractions.length < twoPow 128) :
    ∃ left, share.scaleAll fractions = .ok left ∧ left.value ≤ share.value ∧
      (1 - 1 / 2 ^ 255) ^ fractions.length * (share.value * exactShare fractions) ≤ left.value ∧
      left.value ≤ (1 + 1 / 2 ^ 255) ^ fractions.length * (share.value * exactShare fractions) := by
  induction fractions generalizing share with
  | nil => exact ⟨share, rfl, le_rfl, by simp [exactShare], by simp [exactShare]⟩
  | cons fraction fractions ih =>
    obtain ⟨hpos, hle, hwidth⟩ := h fraction List.mem_cons_self
    rw [List.length_cons] at hroom
    have hfirst : share.exponent + 256 < twoPow 128 := by
      refine lt_of_le_of_lt (Nat.add_le_add_left ?_ _) hroom
      exact Nat.le_mul_of_pos_right 256 (Nat.succ_pos _)
    obtain ⟨next, hnext⟩ : ∃ next, share.scale fraction.1 fraction.2 = .ok next :=
      exists_scale hpos hle hwidth
    have hexponent := exponent_le_of_scale hwidth hfirst hnext
    have hbelow := mul_exact_le_scale hwidth hnext
    have habove := scale_le_mul_exact hwidth hfirst hnext
    have hfalls := value_le_value_iff.mpr (scaledDown_of_scale hwidth hnext).le_share
    have hparts : ∀ other ∈ fractions, IsPart other :=
      fun other hother ↦ h other (List.mem_cons_of_mem _ hother)
    have hexact := (exactShare_bounds hparts).1.le
    have hnextRoom : next.exponent + 256 * fractions.length < twoPow 128 := by omega
    obtain ⟨left, hleft, hleftLe, hlower, hupper⟩ := ih hparts hnextRoom
    refine ⟨left, bind_eq_ok.mpr ⟨next, hnext, hleft⟩, hleftLe.trans hfalls, ?_, ?_⟩
    · rw [exactShare_cons, List.length_cons]
      calc (1 - 1 / 2 ^ 255) ^ (fractions.length + 1) *
            (share.value * (fraction.1 / fraction.2 * exactShare fractions))
          = (1 - 1 / 2 ^ 255) ^ fractions.length *
              ((1 - 1 / 2 ^ 255) * (share.value * (fraction.1 / fraction.2)) *
                exactShare fractions) := by ring
        _ ≤ (1 - 1 / 2 ^ 255) ^ fractions.length * (next.value * exactShare fractions) :=
          mul_le_mul_of_nonneg_left (mul_le_mul_of_nonneg_right hbelow hexact)
            (pow_nonneg (by norm_num) _)
        _ ≤ left.value := hlower
    · rw [exactShare_cons, List.length_cons]
      calc left.value
          ≤ (1 + 1 / 2 ^ 255) ^ fractions.length * (next.value * exactShare fractions) := hupper
        _ ≤ (1 + 1 / 2 ^ 255) ^ fractions.length *
              ((1 + 1 / 2 ^ 255) * (share.value * (fraction.1 / fraction.2)) *
                exactShare fractions) :=
          mul_le_mul_of_nonneg_left (mul_le_mul_of_nonneg_right habove hexact) (by positivity)
        _ = _ := by ring

/-! ### The exact share -/

/-- Few small relative errors add up to little more than their sum. -/
theorem relativeErrors_bounds {error : ℚ} {rounds : ℕ} (hnonneg : 0 ≤ error) (hle : error ≤ 1)
    (hsmall : rounds * error ≤ 1 / 2) :
    1 - rounds * error ≤ (1 - error) ^ rounds ∧ (1 + error) ^ rounds ≤ 1 + 2 * (rounds * error) := by
  have hbelow : 1 - rounds * error ≤ (1 - error) ^ rounds := by
    have hbernoulli := one_add_mul_le_pow (show -2 ≤ -error by linarith) rounds
    rw [mul_neg, ← sub_eq_add_neg, ← sub_eq_add_neg] at hbernoulli
    exact hbernoulli
  refine ⟨hbelow, ?_⟩
  have hproduct : (1 + error) ^ rounds * (1 - error) ^ rounds ≤ 1 := by
    rw [← mul_pow]
    refine pow_le_one₀ (mul_nonneg (by linarith) (by linarith)) ?_
    calc (1 + error) * (1 - error) = 1 - error ^ 2 := by ring
      _ ≤ 1 := sub_le_self 1 (sq_nonneg error)
  have hpowNonneg : 0 ≤ (1 + error) ^ rounds := by positivity
  have hroom : (1 + error) ^ rounds * (1 - rounds * error) ≤ 1 :=
    le_trans (mul_le_mul_of_nonneg_left hbelow hpowNonneg) hproduct
  have hsum : 0 ≤ rounds * error := by positivity
  refine le_of_mul_le_mul_right (hroom.trans ?_) (show 0 < 1 - rounds * error by linarith)
  calc 1 ≤ 1 + rounds * error * (1 - 2 * (rounds * error)) :=
        le_add_of_nonneg_right (mul_nonneg hsum (by linarith))
    _ = (1 + 2 * (rounds * error)) * (1 - rounds * error) := by ring

/-- The errors of `2 ^ 64` fills are small beside the width of an amount. -/
theorem chainErrors_bounds {rounds : ℕ} (hrounds : rounds ≤ twoPow 64) :
    1 - 1 / 2 ^ 128 ≤ (1 - 1 / 2 ^ 255 : ℚ) ^ rounds ∧
      (1 + 1 / 2 ^ 255 : ℚ) ^ rounds ≤ 1 + 1 / 2 ^ 128 := by
  have hcast : (rounds : ℚ) ≤ 2 ^ 64 := by
    rw [← cast_twoPow]
    exact_mod_cast hrounds
  have herrors : (rounds : ℚ) * (1 / 2 ^ 255) ≤ 1 / 2 ^ 129 :=
    calc (rounds : ℚ) * (1 / 2 ^ 255) ≤ 2 ^ 64 * (1 / 2 ^ 255) :=
          mul_le_mul_of_nonneg_right hcast (by positivity)
      _ ≤ 1 / 2 ^ 129 := by norm_num
  obtain ⟨hlow, hhigh⟩ := relativeErrors_bounds (by positivity) (by norm_num)
    (herrors.trans (by norm_num))
  exact ⟨by linarith, by linarith⟩

theorem floor_le_floor_add_one {left right : ℚ} (hright : 0 ≤ right) (hle : left ≤ right + 1) :
    ⌊left⌋₊ ≤ ⌊right⌋₊ + 1 := by
  rw [← Nat.floor_add_one hright]
  exact Nat.floor_le_floor hle

/-- A relative error of `2 ^ (-128)` moves an amount of 128 bits, rounded down, by at most one. -/
theorem floor_near_floor {exact ratio : ℚ} (hexact : 0 ≤ exact) (hwidth : exact ≤ 2 ^ 128)
    (hbelow : 1 - 1 / 2 ^ 128 ≤ ratio) (habove : ratio ≤ 1 + 1 / 2 ^ 128) :
    ⌊exact * ratio⌋₊ ≤ ⌊exact⌋₊ + 1 ∧ ⌊exact⌋₊ ≤ ⌊exact * ratio⌋₊ + 1 := by
  have hratio : 0 ≤ ratio := le_trans (by norm_num) hbelow
  have herror : exact * (1 / 2 ^ 128) ≤ 1 := by
    rw [mul_one_div]
    exact (div_le_one (by positivity)).mpr hwidth
  refine ⟨floor_le_floor_add_one hexact ?_, floor_le_floor_add_one (mul_nonneg hexact hratio) ?_⟩
  · calc exact * ratio ≤ exact * (1 + 1 / 2 ^ 128) := mul_le_mul_of_nonneg_left habove hexact
      _ = exact + exact * (1 / 2 ^ 128) := by ring
      _ ≤ exact + 1 := by linarith
  · calc exact = exact * (1 - 1 / 2 ^ 128) + exact * (1 / 2 ^ 128) := by ring
      _ ≤ exact * ratio + 1 := add_le_add (mul_le_mul_of_nonneg_left hbelow hexact) herror

/-- A chain of at most `2 ^ 64` fills leaves of the largest share one whose ratio to the exact share
is off by no more than one rounding for each fill, and which takes the part of an amount of 128 bits
that the exact share does, but for one unit. -/
theorem scaleAll_tracks_exactShare (h : ∀ fraction ∈ fractions, IsPart fraction)
    (hlength : fractions.length ≤ twoPow 64) :
    ∃ left, largest.scaleAll fractions = .ok left ∧
      (1 - 1 / 2 ^ 255) ^ fractions.length ≤
        left.value / (largest.value * exactShare fractions) ∧
      left.value / (largest.value * exactShare fractions) ≤
        (1 + 1 / 2 ^ 255) ^ fractions.length ∧
      ∀ amount < twoPow 128, ∃ floor ceiling,
        portion amount left largest = .ok (floor, ceiling) ∧
          floor ≤ ⌊amount * exactShare fractions⌋₊ + 1 ∧
          ⌊amount * exactShare fractions⌋₊ ≤ floor + 1 := by
  have hroom : largest.exponent + 256 * fractions.length < twoPow 128 :=
    lt_of_le_of_lt (Nat.add_le_add_left (Nat.mul_le_mul_left 256 hlength) _) (by decide)
  obtain ⟨left, hleft, hle, hbelow, habove⟩ := scaleAll_tracks h hroom
  obtain ⟨hexactPos, hexactLe⟩ := exactShare_bounds h
  have hpos : 0 < largest.value * exactShare fractions := mul_pos largest.value_pos hexactPos
  rw [← le_div_iff₀ hpos] at hbelow
  rw [← div_le_iff₀ hpos] at habove
  refine ⟨left, hleft, hbelow, habove, fun amount hamount ↦ ?_⟩
  have hpart := portion_eq (lt_trans hamount (by decide)) (value_le_value_iff.mp hle)
  refine ⟨_, _, hpart, ?_⟩
  obtain ⟨hlow, hhigh⟩ := chainErrors_bounds hlength
  have hwidth : amount * exactShare fractions ≤ 2 ^ 128 := by
    refine le_trans (mul_le_of_le_one_right (Nat.cast_nonneg amount) hexactLe) ?_
    rw [← cast_twoPow]
    exact_mod_cast hamount.le
  have hsplit : amount * (left.value / largest.value) =
      amount * exactShare fractions * (left.value / (largest.value * exactShare fractions)) := by
    have hexact := hexactPos.ne'
    field_simp
  rw [hsplit]
  exact floor_near_floor (mul_nonneg (Nat.cast_nonneg amount) hexactPos.le) hwidth
    (hlow.trans hbelow) (habove.trans hhigh)

/-- Three fills leave two thirds, six sevenths and next to nothing of what was there before. -/
theorem scaleAll_tracks_exactShare_threeFills :
    ∃ left, largest.scaleAll [(2, 3), (6, 7), (1, twoPow 256 - 1)] = .ok left ∧
      (1 - 1 / 2 ^ 255) ^ 3 ≤
        left.value / (largest.value * exactShare [(2, 3), (6, 7), (1, twoPow 256 - 1)]) ∧
      left.value / (largest.value * exactShare [(2, 3), (6, 7), (1, twoPow 256 - 1)]) ≤
        (1 + 1 / 2 ^ 255) ^ 3 := by
  have hparts : ∀ fraction ∈ [(2, 3), (6, 7), (1, twoPow 256 - 1)], IsPart fraction := by
    decide
  obtain ⟨left, hleft, hbelow, habove, -⟩ :=
    scaleAll_tracks_exactShare hparts (show 3 ≤ twoPow 64 by decide)
  exact ⟨left, hleft, hbelow, habove⟩

end RangeBook.Share
