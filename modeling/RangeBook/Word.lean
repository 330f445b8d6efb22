import RangeBook.Bits

/-!
# Machine words of 256 and 512 bits

Amounts travel between callers as words of 256 bits. A word is read as unsigned (`toNat`) or, in
two's complement, as signed (`toInt`). The product of two words fits a word of twice the width, and
is divided there before it is narrowed again.
-/

set_option autoImplicit false
set_option relaxedAutoImplicit false

namespace RangeBook

/-- A word of 256 bits. -/
abbrev Word : Type :=
  BitVec 256

/-- A word of 512 bits. -/
abbrev DoubleWord : Type :=
  BitVec 512

namespace Word

/-- The same unsigned value in twice the width. -/
def widen (word : Word) : DoubleWord :=
  word.setWidth 512

/-- The product, which never leaves twice the width. -/
def product (left right : Word) : DoubleWord :=
  left.widen * right.widen

/-- The word with the given four limbs of 64 bits, the lowest first. -/
def ofLimbs (limb0 limb1 limb2 limb3 : BitVec 64) : Word :=
  limb3 ++ limb2 ++ limb1 ++ limb0

/-- The signed value, where the word is not above the largest signed value when read unsigned. -/
def nonnegative? (word : Word) : Option Int :=
  if word.msb then none else some word.toInt

/-- The magnitude of the signed value. -/
def magnitude (word : Word) : Nat :=
  word.toInt.natAbs

/-- The signed value of the lowest 64 bits. -/
def lowSigned64 (word : Word) : Int :=
  (word.setWidth 64).toInt

/-- The sign extension of a word of 128 bits. -/
def ofSigned128 (half : BitVec 128) : Word :=
  half.signExtend 256

end Word

/-- The same unsigned value in half the width, if it fits. -/
def DoubleWord.narrow? (word : DoubleWord) : Option Word :=
  if word.toNat < twoPow 256 then some (word.setWidth 256) else none

namespace Word

/-- `a * b / c` rounded down, divided in twice the width, where the quotient fits a word again. -/
def mulDivFloor? (a b c : Word) : Option Word :=
  if c = 0 then none else (a.product b / c.widen).narrow?

/-- `a * b / c` rounded up, divided in twice the width, where the quotient fits a word again. -/
def mulDivCeil? (a b c : Word) : Option Word :=
  if c = 0 then none
  else
    let quotient := a.product b / c.widen
    let rest := a.product b % c.widen
    (if rest = 0 then quotient else quotient + 1).narrow?

/-- Widening keeps the unsigned value. -/
@[simp] theorem toNat_widen (word : Word) : word.widen.toNat = word.toNat :=
  BitVec.toNat_setWidth_of_le (by decide)

/-- No product is lost when both factors are widened to twice their width. -/
theorem toNat_setWidth_mul {width wide : Nat} (left right : BitVec width)
    (hwide : width + width ≤ wide) :
    (left.setWidth wide * right.setWidth wide).toNat = left.toNat * right.toNat := by
  have hbound : left.toNat * right.toNat < 2 ^ wide :=
    Nat.lt_of_lt_of_le (Nat.mul_lt_mul'' left.isLt right.isLt)
      (by rw [← Nat.pow_add]; exact Nat.pow_le_pow_right (by decide) hwide)
  rw [BitVec.toNat_mul, BitVec.toNat_setWidth_of_le (by omega),
    BitVec.toNat_setWidth_of_le (by omega), Nat.mod_eq_of_lt hbound]

/-- The product of two words is the product of their values. -/
@[simp] theorem toNat_product (left right : Word) :
    (left.product right).toNat = left.toNat * right.toNat :=
  toNat_setWidth_mul left right (by decide)

end Word

end RangeBook
