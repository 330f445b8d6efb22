import Mathlib
import RangeBook.Proofs.Swap.LevelFill

/-!
# What a fill in part pays for

The owners of a level are told by the new share what a fill sold of it (`soldInPart`). A fill in
part never gives out more than its input buys at the exact price, and what it sold is less than one
unit above what it gives out, so the input is short of what was sold by less than one unit
(`soldInPart_lt_exactlyBought_add_one`).

An input pays for all that it sold, unless the new share has no room to be rounded up, and then it
is short by less than `2 ^ (-127)` of a unit. An output is priced by the amount that is given out,
which is rounded down, so it pays for all that it sold where that is a whole amount
(`paidInFull_of_compute`), and may pay nothing for a part of a unit where it is not
(`unpaidPart_not_paidInFull`). With the fee on top a fill in part pays the exact worth of what it
sold, but for the part of a unit that may stay unpaid (`worth_le_of_inPart`).
-/

set_option autoImplicit false
set_option relaxedAutoImplicit false

namespace RangeBook

/-- What an amount paid buys at a price, exactly. -/
def Book.exactlyBought (price : ℕ) (paid : Token) (amount : ℕ) : ℚ :=
  match paid with
  | .zero => amount * price / q96
  | .one => amount * q96 / price

/-- What the owners of a level sold as the share of it that is unfilled falls. -/
def Share.soldInPart (available : ℕ) (unfilled next : Share) : ℚ :=
  available * (1 - next.value / unfilled.value)

/-- How much of what a fill in part sold may stay unpaid: up to a unit where the amount is an output,
and a small part of one where it is an input and the new share has no room to be rounded up. -/
def Share.unpaidPart (next : Share) (amount : ℤ) : ℚ :=
  if amount < 0 then 1 else if next.mantissa < twoPow 256 - 1 then 0 else 1 / 2 ^ 127

variable {price available taken amountOut fee : ℕ} {unfilled next : Share} {remaining : ℤ}
  {paid : Token} {fill : LevelFill}

theorem Book.le_exactlyBought {amount : ℚ} {cost : ℕ} (hprice : 0 < price)
    (h : amount * unitCost price paid ≤ cost) : amount ≤ exactlyBought price paid cost := by
  have hq : (0 : ℚ) < (q96 : ℕ) := by exact_mod_cast twoPow_pos 96
  have hpriceCast : (0 : ℚ) < price := by exact_mod_cast hprice
  cases paid with
  | zero =>
    rw [unitCost, ← mul_div_assoc, div_le_iff₀ hpriceCast] at h
    rwa [exactlyBought, le_div_iff₀ hq]
  | one =>
    rw [unitCost, ← mul_div_assoc, div_le_iff₀ hq] at h
    rwa [exactlyBought, le_div_iff₀ hpriceCast]

theorem Book.exactlyBought_zero (price : ℕ) (paid : Token) : exactlyBought price paid 0 = 0 := by
  cases paid <;> rw [exactlyBought, Nat.cast_zero, zero_mul, zero_div]

namespace LevelFill

open Share (soldInPart)

attribute [local irreducible] tickSqrtPrice tickAt

/-! ### What a part sells -/

/-- What is sold is less than one unit above what counts as taken. -/
theorem TookPart.soldInPart_lt (h : TookPart available taken unfilled next amountOut)
    (havailable : available < twoPow 256) :
    soldInPart available unfilled next < amountOut + 1 := by
  obtain ⟨floor, ceiling, hportion, hceiling, rfl⟩ := h.amountOut_eq
  have hbelow := Share.portion_ceiling_lt havailable hportion
  rw [soldInPart, Nat.cast_sub hceiling, mul_one_sub]
  linarith

/-- A whole amount that is sold counts as taken. -/
theorem TookPart.soldInPart_le_of_whole {whole : ℕ}
    (h : TookPart available taken unfilled next amountOut) (havailable : available < twoPow 256)
    (hwhole : soldInPart available unfilled next = whole) :
    soldInPart available unfilled next ≤ amountOut := by
  have hlt := h.soldInPart_lt havailable
  rw [hwhole] at hlt ⊢
  have hlt : whole < amountOut + 1 := by exact_mod_cast hlt
  exact_mod_cast Nat.le_of_lt_succ hlt

/-- Taking nothing leaves the share as it is. -/
theorem TookPart.eq_of_nothing (h : TookPart available 0 unfilled next amountOut)
    (havailable : available < twoPow 256) : next = unfilled := by
  have hpos : (available : ℚ) ≠ 0 := by exact_mod_cast h.taken_lt.ne'
  have hscaled := Share.lt_scale_add_unit havailable h.scale_eq
  rw [Nat.sub_zero, div_self hpos, mul_one] at hscaled
  exact Share.eq_of_value_lt_add_unit (Share.value_le_value_iff.mp (h.bounds havailable).1) hscaled

/-! ### What a fill in part pays -/

/-- A fill in part of fixed input takes no more than what its input buys. -/
theorem tookPart_of_input (hprice : 0 < price) (hinput : 0 ≤ remaining)
    (h : compute price available unfilled remaining fee paid = .ok fill)
    (hpart : fill.unfilled? = some next) :
    ∃ bought : ℕ, TookPart available bought unfilled next fill.amountOut ∧
      (bought : ℚ) ≤ Book.exactlyBought price paid fill.amountIn := by
  cases (filled_of_compute h).2 with
  | whole => exact absurd hpart (Option.some_ne_none next).symm
  | outputPart houtput _ _ _ => exact absurd hinput (not_le.mpr houtput)
  | inputPart _ _ hbought htook =>
    obtain rfl := Option.some.inj hpart
    exact ⟨_, htook, Book.le_exactlyBought hprice (boughtFloor_le hbought)⟩

/-- A fill in part gives out no more than what its input buys. -/
theorem tookPart_of_compute (havailable : available < twoPow 128) (hprice : 0 < price)
    (h : compute price available unfilled remaining fee paid = .ok fill)
    (hpart : fill.unfilled? = some next) :
    ∃ taken, TookPart available taken unfilled next fill.amountOut ∧
      (fill.amountOut : ℚ) ≤ Book.exactlyBought price paid fill.amountIn := by
  rcases le_or_gt 0 remaining with hinput | houtput
  · obtain ⟨bought, htook, hbought⟩ := tookPart_of_input hprice hinput h hpart
    have hout : (fill.amountOut : ℚ) ≤ bought := by exact_mod_cast htook.amountOut_le havailable
    exact ⟨bought, htook, le_trans hout hbought⟩
  · cases (filled_of_compute h).2 with
    | whole => exact absurd hpart (Option.some_ne_none next).symm
    | inputPart hinput _ _ _ => exact absurd houtput (not_lt.mpr hinput)
    | outputPart _ htook hcost _ =>
      obtain rfl := Option.some.inj hpart
      exact ⟨_, htook, Book.le_exactlyBought hprice (Book.le_costCeil hcost)⟩

/-- What is sold is less than one unit above what the input buys. -/
theorem soldInPart_lt_exactlyBought_add_one (havailable : available < twoPow 128)
    (hprice : 0 < price) (h : compute price available unfilled remaining fee paid = .ok fill)
    (hpart : fill.unfilled? = some next) :
    soldInPart available unfilled next < Book.exactlyBought price paid fill.amountIn + 1 := by
  obtain ⟨taken, htook, hout⟩ := tookPart_of_compute havailable hprice h hpart
  have hsold := htook.soldInPart_lt (lt_trans havailable (by decide))
  linarith

/-- Whether the input of a fill in part buys what was sold, and nothing is sold where nothing is
paid. -/
structure PaidInFull (price available : ℕ) (unfilled next : Share) (paid : Token)
    (fill : LevelFill) : Prop where
  sold_le : soldInPart available unfilled next ≤ Book.exactlyBought price paid fill.amountIn
  eq_of_unpaid : fill.amountIn = 0 → next = unfilled

/-- A share that does not fall stays the same, so an input that buys what was sold pays in full. -/
theorem TookPart.paidInFull (h : TookPart available taken unfilled next amountOut)
    (havailable : available < twoPow 256)
    (hsold : soldInPart available unfilled next ≤ Book.exactlyBought price paid fill.amountIn) :
    PaidInFull price available unfilled next paid fill := by
  refine ⟨hsold, fun hunpaid ↦ ?_⟩
  rw [hunpaid, Book.exactlyBought_zero] at hsold
  have hpos : (0 : ℚ) < available := by exact_mod_cast Nat.zero_lt_of_lt h.taken_lt
  have hratio : 1 - next.value / unfilled.value ≤ 0 := nonpos_of_mul_nonpos_right hsold hpos
  have hge : unfilled.value ≤ next.value := (one_le_div unfilled.value_pos).mp (by linarith)
  exact Share.eq_of_value_lt_add_unit (Share.value_le_value_iff.mp (h.bounds havailable).1)
    (lt_of_le_of_lt hge (lt_add_of_pos_right _ next.unit_pos))

/-- An input of nothing takes nothing of the share. -/
theorem eq_of_unpaid_input (havailable : available < twoPow 128) (hprice : 0 < price)
    (hinput : 0 ≤ remaining) (h : compute price available unfilled remaining fee paid = .ok fill)
    (hpart : fill.unfilled? = some next) (hunpaid : fill.amountIn = 0) : next = unfilled := by
  obtain ⟨bought, htook, hbought⟩ := tookPart_of_input hprice hinput h hpart
  rw [hunpaid, Book.exactlyBought_zero] at hbought
  have hnothing : bought = 0 := Nat.le_zero.mp (by exact_mod_cast hbought)
  subst hnothing
  exact htook.eq_of_nothing (lt_trans havailable (by decide))

/-- What an input sells is at most a small part of a unit above what it buys. -/
theorem soldInPart_lt_of_input (havailable : available < twoPow 128) (hprice : 0 < price)
    (hinput : 0 ≤ remaining) (h : compute price available unfilled remaining fee paid = .ok fill)
    (hpart : fill.unfilled? = some next) :
    soldInPart available unfilled next <
      Book.exactlyBought price paid fill.amountIn + 1 / 2 ^ 127 := by
  obtain ⟨bought, htook, hbought⟩ := tookPart_of_input hprice hinput h hpart
  exact lt_of_lt_of_le (htook.part_lt_taken_add havailable) (by linarith)

/-- A fill in part is paid for in full if it spends an input and the new share has room to be
rounded up, or if what it sold is a whole amount. Otherwise an input is short by less than
`2 ^ (-127)` of a unit, and still sells nothing where it pays nothing, and an output is short by
less than a unit. -/
theorem paidInFull_of_compute (havailable : available < twoPow 128) (hprice : 0 < price)
    (h : compute price available unfilled remaining fee paid = .ok fill)
    (hpart : fill.unfilled? = some next) :
    ((0 ≤ remaining ∧ next.mantissa < twoPow 256 - 1) ∨
        (∃ whole : ℕ, soldInPart available unfilled next = whole) →
      PaidInFull price available unfilled next paid fill) ∧
    (0 ≤ remaining → soldInPart available unfilled next <
        Book.exactlyBought price paid fill.amountIn + 1 / 2 ^ 127 ∧
      (fill.amountIn = 0 → next = unfilled)) ∧
    soldInPart available unfilled next < Book.exactlyBought price paid fill.amountIn + 1 := by
  have hwide : available < twoPow 256 := lt_trans havailable (by decide)
  refine ⟨?_, fun hinput ↦ ⟨soldInPart_lt_of_input havailable hprice hinput h hpart,
    eq_of_unpaid_input havailable hprice hinput h hpart⟩,
    soldInPart_lt_exactlyBought_add_one havailable hprice h hpart⟩
  rintro (⟨hinput, hfits⟩ | ⟨whole, hwhole⟩)
  · obtain ⟨bought, htook, hbought⟩ := tookPart_of_input hprice hinput h hpart
    exact htook.paidInFull hwide (le_trans (htook.part_le_taken hwide hfits) hbought)
  · obtain ⟨taken, htook, hout⟩ := tookPart_of_compute havailable hprice h hpart
    exact htook.paidInFull hwide (le_trans (htook.soldInPart_le_of_whole hwide hwhole) hout)

/-- A fill in part pays at least the exact worth of what it sold, its fee included, but for the part
of a unit that may stay unpaid. -/
theorem worth_le_of_inPart (havailable : available < twoPow 128)
    (h : compute price available unfilled remaining fee paid = .ok fill)
    (hpart : fill.unfilled? = some next) :
    soldInPart available unfilled next * Book.charge price fee paid ≤
      fill.amountIn + fill.fee + next.unpaidPart remaining * Book.charge price fee paid := by
  have hwide : available < twoPow 256 := lt_trans havailable (by decide)
  have hcharge := Book.charge_nonneg price fee paid
  -- what was sold is compared with the amount that is paid for
  have hpaid : ∃ amount : ℕ, soldInPart available unfilled next ≤
        amount + next.unpaidPart remaining ∧
      amount * Book.charge price fee paid ≤ fill.amountIn + fill.fee := by
    unfold Share.unpaidPart
    split_ifs with houtput hfits
    · obtain ⟨wanted, htook, hpaid⟩ := taken_of_outputPart houtput h hpart
      exact ⟨fill.amountOut, (htook.soldInPart_lt hwide).le, hpaid⟩
    · obtain ⟨bought, htook, hpaid⟩ := taken_of_inputPart (not_lt.mp houtput) h hpart
      exact ⟨bought, by rw [add_zero]; exact htook.part_le_taken hwide hfits, hpaid⟩
    · obtain ⟨bought, htook, hpaid⟩ := taken_of_inputPart (not_lt.mp houtput) h hpart
      exact ⟨bought, (htook.part_lt_taken_add havailable).le, hpaid⟩
  obtain ⟨amount, hsold, hworth⟩ := hpaid
  calc soldInPart available unfilled next * Book.charge price fee paid
      ≤ (amount + next.unpaidPart remaining) * Book.charge price fee paid :=
        mul_le_mul_of_nonneg_right hsold hcharge
    _ = amount * Book.charge price fee paid +
        next.unpaidPart remaining * Book.charge price fee paid := add_mul _ _ _
    _ ≤ _ := by linarith

/-- Six sevenths of the largest share, rounded up. -/
def sixSevenths : Share where
  mantissa := 99250362203413881791632272864589635302802843999120483462392214863925539691373
  exponent := 0
  mantissa_ge := by decide
  mantissa_lt := by decide
  exponent_lt := Share.largest.exponent_lt

/-- An input of two leaves one unit to buy a seventh of a level with. -/
theorem paidInFull_sixSevenths :
    compute q96 7 .largest 2 3000 .zero = .ok ⟨1, 0, 1, some sixSevenths⟩ ∧
      PaidInFull q96 7 .largest sixSevenths .zero ⟨1, 0, 1, some sixSevenths⟩ := by
  have hfill : compute q96 7 .largest 2 3000 .zero = .ok ⟨1, 0, 1, some sixSevenths⟩ := by
    decide +kernel
  exact ⟨hfill, (paidInFull_of_compute (by decide) (by decide) hfill rfl).1
    (.inl ⟨by decide, by decide +kernel⟩)⟩

/-- An output of one takes the same seventh of a level at the price of a tick, but it is rounded to
nothing, and so is what is paid for it. -/
theorem unpaidPart_not_paidInFull :
    Book.tickPrice 0 = q96 ∧
      compute q96 7 .largest (-1) 3000 .zero = .ok ⟨0, 0, 0, some sixSevenths⟩ ∧
      ¬soldInPart 7 .largest sixSevenths ≤ Book.exactlyBought q96 .zero 0 ∧
      sixSevenths ≠ .largest := by
  refine ⟨by decide +kernel, by decide +kernel, ?_, by decide +kernel⟩
  unfold soldInPart Share.value Book.exactlyBought
  decide +kernel

end LevelFill

end RangeBook
