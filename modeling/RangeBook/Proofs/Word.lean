import Mathlib
import RangeBook.Proofs.Quotient
import RangeBook.Width
import RangeBook.Word

/-!
# Words stand for amounts

Amounts are plain naturals and integers, and no width is ever left unnoticed. On words the quotient
of a product is taken in twice their width and narrowed in the end. It is the quotient of the
amounts that the words stand for, rounded the same way and missing in the same cases
(`map_toNat_mulDivFloor?`, `map_toNat_mulDivCeil?`): nothing is lost in between.

An unsigned word is taken for a signed amount where its value passes as one
(`nonnegative?_eq_some_iff`). A signed amount keeps its magnitude (`magnitude_ofInt`), and its value
in a wider word and in a narrower one that holds it (`toInt_ofSigned128`, `lowSigned64_eq_toInt`).
-/

set_option autoImplicit false
set_option relaxedAutoImplicit false

namespace RangeBook

/-- A word is narrowed where its value fits. -/
theorem DoubleWord.map_toNat_narrow? (word : DoubleWord) :
    word.narrow?.map BitVec.toNat = fit256? word.toNat := by
  unfold DoubleWord.narrow? fit256?
  split
  · rename_i hfits
    rw [Option.map_some, BitVec.toNat_setWidth, ← twoPow_eq, Nat.mod_eq_of_lt hfits]
  · rfl

namespace Word

/-! ### Quotients of products -/

/-- A word that is below another has room for one more. -/
theorem toNat_add_one_of_lt {width : ℕ} {word bound : BitVec width}
    (hless : word.toNat < bound.toNat) : (word + 1).toNat = word.toNat + 1 := by
  rw [BitVec.toNat_add, BitVec.ofNat_eq_ofNat, BitVec.toNat_ofNat, Nat.add_mod_mod,
    Nat.mod_eq_of_lt (lt_of_le_of_lt hless bound.isLt)]

theorem toNat_ne_zero {word : Word} (h : word ≠ 0) : word.toNat ≠ 0 :=
  fun hzero ↦ h (BitVec.eq_of_toNat_eq hzero)

theorem toNat_product_div (a b c : Word) :
    (a.product b / c.widen).toNat = a.toNat * b.toNat / c.toNat := by
  rw [BitVec.toNat_udiv, toNat_product, toNat_widen]

theorem product_mod_eq_zero_iff {a b c : Word} :
    a.product b % c.widen = 0 ↔ a.toNat * b.toNat % c.toNat = 0 := by
  rw [← BitVec.toNat_inj, BitVec.toNat_umod, toNat_product, toNat_widen, BitVec.ofNat_eq_ofNat,
    BitVec.toNat_zero]

/-- There is room in twice the width to round a quotient up. -/
theorem toNat_product_div_add_one {a b c : Word} (hrest : a.toNat * b.toNat % c.toNat ≠ 0)
    (hdivisor : c.toNat ≠ 0) :
    (a.product b / c.widen + 1).toNat = a.toNat * b.toNat / c.toNat + 1 := by
  have hpos : 0 < a.toNat * b.toNat :=
    Nat.pos_of_ne_zero fun hnone ↦ hrest (by rw [hnone, Nat.zero_mod])
  have hdivides : c.toNat ≠ 1 := fun hone ↦ hrest (by rw [hone, Nat.mod_one])
  have hless : (a.product b / c.widen).toNat < (a.product b).toNat := by
    rw [toNat_product_div, toNat_product]
    exact Nat.div_lt_self hpos (by omega)
  rw [toNat_add_one_of_lt hless, toNat_product_div]

/-- On words a quotient rounded down is that of the amounts. -/
theorem map_toNat_mulDivFloor? (a b c : Word) :
    (a.mulDivFloor? b c).map BitVec.toNat = RangeBook.mulDivFloor? a.toNat b.toNat c.toNat := by
  by_cases hzero : c = 0
  · rw [hzero]
    rfl
  rw [mulDivFloor?, RangeBook.mulDivFloor?, if_neg hzero, if_neg (toNat_ne_zero hzero),
    DoubleWord.map_toNat_narrow?, toNat_product_div]

/-- On words a quotient rounded up is that of the amounts. -/
theorem map_toNat_mulDivCeil? (a b c : Word) :
    (a.mulDivCeil? b c).map BitVec.toNat = RangeBook.mulDivCeil? a.toNat b.toNat c.toNat := by
  by_cases hzero : c = 0
  · rw [hzero]
    rfl
  have hdivisor : c.toNat ≠ 0 := toNat_ne_zero hzero
  rw [mulDivCeil?, RangeBook.mulDivCeil?, if_neg hzero, if_neg hdivisor,
    DoubleWord.map_toNat_narrow?, divCeil_eq_ite _ (Nat.pos_of_ne_zero hdivisor)]
  by_cases hrest : a.toNat * b.toNat % c.toNat = 0
  · rw [if_pos (product_mod_eq_zero_iff.mpr hrest), if_pos hrest, toNat_product_div]
  · rw [if_neg (mt product_mod_eq_zero_iff.mp hrest), if_neg hrest,
      toNat_product_div_add_one hrest hdivisor]

/-! ### Limbs -/

theorem toNat_append_limb {width : ℕ} (high : BitVec width) (limb : BitVec 64) :
    (high ++ limb).toNat = limb.toNat + twoPow 64 * high.toNat := by
  rw [BitVec.toNat_append, ← Nat.shiftLeft_add_eq_or_of_lt limb.isLt, Nat.shiftLeft_eq, twoPow_eq,
    Nat.add_comm, Nat.mul_comm]

/-- The limbs of a word are its digits, the lowest first. -/
theorem toNat_ofLimbs (limb0 limb1 limb2 limb3 : BitVec 64) :
    (ofLimbs limb0 limb1 limb2 limb3).toNat =
      limb0.toNat + twoPow 64 * (limb1.toNat + twoPow 64 * (limb2.toNat +
        twoPow 64 * limb3.toNat)) := by
  rw [ofLimbs, toNat_append_limb, toNat_append_limb, toNat_append_limb]

/-! ### Signed amounts -/

variable {word : Word} {amount : ℤ}

/-- An unsigned word is read as a signed amount where its value passes as one. -/
theorem nonnegative?_eq_some_iff :
    word.nonnegative? = some amount ↔ int256 word.toNat = .ok amount := by
  have hpasses : word.msb = false ↔ (word.toNat : ℤ) < (twoPow 255 : ℕ) := by
    rw [BitVec.msb_eq_false_iff_two_mul_lt, Nat.cast_lt, twoPow_eq]
    omega
  rw [int256, within_eq_ok, nonnegative?]
  cases hmsb : word.msb with
  | true =>
    have habove : ¬(word.toNat : ℤ) < (twoPow 255 : ℕ) := by
      rw [← hpasses, hmsb]
      exact Bool.noConfusion
    exact ⟨fun hnone ↦ absurd hnone (Option.some_ne_none amount).symm,
      fun hvalue ↦ absurd hvalue.1.2 habove⟩
  | false =>
    have hbelow : -((twoPow 255 : ℕ) : ℤ) ≤ word.toNat := by omega
    rw [if_neg Bool.false_ne_true, BitVec.toInt_eq_toNat_of_msb hmsb, Option.some_inj]
    exact ⟨fun hvalue ↦ ⟨⟨hbelow, hpasses.mp hmsb⟩, hvalue⟩, fun hvalue ↦ hvalue.2⟩

/-- A signed amount of at most 256 bits is the amount that its word is read as. -/
theorem toInt_ofInt_of_int256 (h : int256 amount = .ok amount) :
    (BitVec.ofInt 256 amount).toInt = amount := by
  obtain ⟨⟨hge, hlt⟩, -⟩ := within_eq_ok.mp h
  exact BitVec.toInt_ofInt_eq_self (by decide) hge hlt

theorem magnitude_ofInt (h : int256 amount = .ok amount) :
    magnitude (BitVec.ofInt 256 amount) = amount.natAbs := by
  rw [magnitude, toInt_ofInt_of_int256 h]

theorem toInt_ofSigned128 (half : BitVec 128) : (ofSigned128 half).toInt = half.toInt :=
  BitVec.toInt_signExtend_of_le (by decide)

/-- The lowest 64 bits are all of a signed word whose value they can hold. -/
theorem lowSigned64_eq_toInt (hge : -twoPow 63 ≤ word.toInt) (hlt : word.toInt < twoPow 63) :
    word.lowSigned64 = word.toInt := by
  rw [cast_twoPow] at hge hlt
  rw [lowSigned64, ← BitVec.signExtend_eq_setWidth_of_le word (by decide), BitVec.toInt_signExtend]
  refine Int.bmod_eq_of_le_mul_two ?_ ?_
  · norm_num
    omega
  · norm_num
    omega

end Word

end RangeBook
