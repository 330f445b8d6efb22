import Mathlib
import RangeBook.Proofs.Book.Order
import RangeBook.Proofs.Fee
import RangeBook.Proofs.Share
import RangeBook.Swap.LevelFill

/-!
# Fills of a level

A fill uses a level up, or takes a part of it for all of an input or for an output (`Filled`). A
fill that uses a level up pays at least the exact worth of it. A fill in part says by the new share
what it took of the level, and offers no less afterwards than what the share leaves
(`LevelFill.Bounded`). A fill of fixed input pays for the amount that its input buys
(`taken_of_inputPart`). A fill of fixed output pays for the amount that it takes out
(`taken_of_outputPart`), which may be less than what the new share says.

Like a step along a range, a fill stays within the amount that is left to swap
(`spent_le_of_compute`, `bought_le_of_compute`). Where it takes a part it swaps all of that amount,
but for one unit of an output (`spent_eq_of_inPart`, `bought_near_of_inPart`).
-/

set_option autoImplicit false
set_option relaxedAutoImplicit false

namespace RangeBook.LevelFill

attribute [local irreducible] tickSqrtPrice tickAt

variable {price available taken amountOut fee : ℕ} {unfilled next : Share} {remaining : ℤ}
  {paid : Token} {fill : LevelFill}

/-! ### Parts of a level -/

/-- What taking a part of a level does: the share is scaled by what is left, and the amount that
counts is what the new share says was taken. -/
structure TookPart (available taken : ℕ) (unfilled next : Share) (amountOut : ℕ) : Prop where
  taken_lt : taken < available
  scale_eq : unfilled.scale (available - taken) available = .ok next
  amountOut_eq : ∃ floor ceiling, Share.portion available next unfilled = .ok (floor, ceiling) ∧
    ceiling ≤ available ∧ available - ceiling = amountOut

theorem tookPart_of_takePart (h : takePart available taken unfilled = .ok (next, amountOut)) :
    TookPart available taken unfilled next amountOut := by
  unfold takePart at h
  obtain ⟨left, hleft, h⟩ := bind_eq_ok.mp h
  obtain ⟨scaled, hscale, h⟩ := bind_eq_ok.mp h
  obtain ⟨⟨floor, ceiling⟩, hportion, h⟩ := bind_eq_ok.mp h
  obtain ⟨amount, hamount, h⟩ := bind_eq_ok.mp h
  obtain ⟨rfl, rfl⟩ := Prod.mk.inj (Except.ok.inj h)
  obtain ⟨-, rfl⟩ := within_eq_ok.mp hleft
  obtain ⟨hceiling, hout⟩ := within_eq_ok.mp hamount
  exact ⟨Nat.lt_of_sub_pos (Share.scale_eq_ok hscale).1, hscale,
    ⟨floor, ceiling, hportion, hceiling, hout⟩⟩

/-- The share does not rise, and it leaves some of the level, but no more than is offered
afterwards. -/
theorem TookPart.bounds (h : TookPart available taken unfilled next amountOut)
    (havailable : available < twoPow 256) :
    next.value ≤ unfilled.value ∧ amountOut < available ∧
      available * (next.value / unfilled.value) ≤ available - amountOut := by
  obtain ⟨floor, ceiling, hportion, hceiling, rfl⟩ := h.amountOut_eq
  obtain ⟨hle, -, hexact⟩ := Share.portion_bounds havailable hportion
  have havailablePos : (0 : ℚ) < available := by exact_mod_cast Nat.zero_lt_of_lt h.taken_lt
  have hpart : 0 < available * (next.value / unfilled.value) :=
    mul_pos havailablePos (div_pos next.value_pos unfilled.value_pos)
  have hceilingPos : 0 < ceiling := by exact_mod_cast lt_of_lt_of_le hpart hexact
  refine ⟨Share.value_le_value_iff.mpr hle, by omega, ?_⟩
  rw [Nat.cast_sub hceiling, sub_sub_cancel]
  exact hexact

/-- The share that is taken is no more than the amount that was to be taken, unless the new share
has no room to be rounded up. -/
theorem TookPart.part_le_taken (h : TookPart available taken unfilled next amountOut)
    (havailable : available < twoPow 256) (hfits : next.mantissa < twoPow 256 - 1) :
    available * (1 - next.value / unfilled.value) ≤ taken := by
  have hpos : (0 : ℚ) < available := by exact_mod_cast Nat.zero_lt_of_lt h.taken_lt
  have hscaled := Share.le_scale havailable h.scale_eq hfits
  rw [mul_comm, ← le_div_iff₀ unfilled.value_pos, Nat.cast_sub h.taken_lt.le] at hscaled
  have hkept := mul_le_mul_of_nonneg_left hscaled hpos.le
  rw [mul_div_cancel₀ _ hpos.ne'] at hkept
  linarith

/-- The last place of a share is too small to count in what it leaves of a level. -/
theorem TookPart.unit_part_le (h : TookPart available taken unfilled next amountOut)
    (havailable : available < twoPow 128) :
    available * (next.unit / unfilled.value) ≤ 1 / 2 ^ 127 := by
  have hvalue := (h.bounds (lt_trans havailable (by decide))).1
  have hwidth : (available : ℚ) ≤ 2 ^ 128 := by
    rw [← cast_twoPow]
    exact_mod_cast havailable.le
  rw [← mul_div_assoc, div_le_iff₀ unfilled.value_pos]
  calc available * next.unit ≤ 2 ^ 128 * next.unit :=
        mul_le_mul_of_nonneg_right hwidth next.unit_pos.le
    _ = 1 / 2 ^ 127 * (next.unit * 2 ^ 255) := by
      rw [show (2 : ℚ) ^ 255 = 2 ^ 128 * 2 ^ 127 from pow_add 2 128 127]
      field_simp
    _ ≤ 1 / 2 ^ 127 * unfilled.value :=
      mul_le_mul_of_nonneg_left (le_trans next.unit_le hvalue) (by positivity)

/-- The share that is taken is at most a small part of a unit above the amount that was to be
taken. -/
theorem TookPart.part_lt_taken_add (h : TookPart available taken unfilled next amountOut)
    (havailable : available < twoPow 128) :
    available * (1 - next.value / unfilled.value) < taken + 1 / 2 ^ 127 := by
  have hpos : (0 : ℚ) < available := by exact_mod_cast Nat.zero_lt_of_lt h.taken_lt
  have hunit := h.unit_part_le havailable
  have hscaled := Share.lt_scale_add_unit (lt_trans havailable (by decide)) h.scale_eq
  rw [mul_comm, ← lt_div_iff₀ unfilled.value_pos, add_div, div_lt_iff₀ hpos, add_mul,
    mul_comm _ (available : ℚ), mul_comm _ (available : ℚ), Nat.cast_sub h.taken_lt.le] at hscaled
  rw [mul_one_sub]
  linarith

/-- What counts as taken is at most what was to be taken. -/
theorem TookPart.amountOut_le (h : TookPart available taken unfilled next amountOut)
    (havailable : available < twoPow 128) : amountOut ≤ taken := by
  have htaken := h.taken_lt
  have hpart := h.part_lt_taken_add havailable
  have hsmall : (1 : ℚ) / 2 ^ 127 ≤ 1 := by norm_num
  obtain ⟨floor, ceiling, hportion, hceiling, rfl⟩ := h.amountOut_eq
  have hexact := (Share.portion_bounds (lt_trans havailable (by decide)) hportion).2.2
  have hleft : (available : ℚ) < (ceiling + taken + 1 : ℕ) := by
    rw [mul_one_sub] at hpart
    push_cast
    linarith
  have hleft : available < ceiling + taken + 1 := by exact_mod_cast hleft
  omega

/-- What counts as taken is at most one unit less than what was to be taken, as long as the share's
exponent has room to grow. -/
theorem TookPart.taken_le (h : TookPart available taken unfilled next amountOut)
    (havailable : available < twoPow 128) (hroom : unfilled.exponent + 256 < twoPow 128) :
    taken ≤ amountOut + 1 := by
  have hwide : available < twoPow 256 := lt_trans havailable (by decide)
  have hpos : (0 : ℚ) < available := by exact_mod_cast Nat.zero_lt_of_lt h.taken_lt
  have hunit := le_trans (h.unit_part_le havailable) (by norm_num : (1 : ℚ) / 2 ^ 127 ≤ 1)
  have hscaled := Share.scale_lt_add_unit hwide hroom h.scale_eq
  rw [← sub_lt_iff_lt_add, mul_comm, ← div_lt_iff₀ unfilled.value_pos, sub_div,
    lt_div_iff₀ hpos, sub_mul, mul_comm _ (available : ℚ), mul_comm _ (available : ℚ)] at hscaled
  obtain ⟨floor, ceiling, hportion, hceiling, rfl⟩ := h.amountOut_eq
  have hexact := (Share.portion_bounds hwide hportion).2.1
  have hneighbours := Share.portion_ceiling_le hwide hportion
  have hleft : (floor : ℚ) < (available - taken + 1 : ℕ) := by
    push_cast
    linarith
  have hleft : floor < available - taken + 1 := by exact_mod_cast hleft
  have htaken := h.taken_lt
  omega

/-! ### What a fill does -/

/-- The fills of a level: it is used up where the amount left to swap covers it, or a part of it is
taken for all of an input or for an output. -/
inductive Filled (price available : ℕ) (unfilled : Share) (remaining : ℤ) (fee : ℕ)
    (paid : Token) : LevelFill → Prop
  | whole {cost charged : ℕ}
    (cost_eq : Book.costCeil available price paid = .ok cost)
    (fee_eq : feeOn cost fee = .ok charged)
    (input : 0 ≤ remaining → ∃ budget, lessFee remaining.natAbs fee = .ok budget ∧ cost ≤ budget)
    (output : remaining < 0 → available ≤ remaining.natAbs) :
    Filled price available unfilled remaining fee paid ⟨cost, available, charged, none⟩
  | inputPart {budget bought amountOut : ℕ} {next : Share} (input : 0 ≤ remaining)
    (budget_eq : lessFee remaining.natAbs fee = .ok budget)
    (bought_eq : Book.boughtFloor budget price paid = .ok bought)
    (part : TookPart available bought unfilled next amountOut) :
    Filled price available unfilled remaining fee paid
      ⟨budget, amountOut, remaining.natAbs - budget, some next⟩
  | outputPart {amountIn amountOut charged : ℕ} {next : Share} (output : remaining < 0)
    (part : TookPart available remaining.natAbs unfilled next amountOut)
    (cost_eq : Book.costCeil amountOut price paid = .ok amountIn)
    (fee_eq : feeOn amountIn fee = .ok charged) :
    Filled price available unfilled remaining fee paid ⟨amountIn, amountOut, charged, some next⟩

theorem filled_of_exactInput (hinput : 0 ≤ remaining)
    (h : exactInput price available unfilled remaining.natAbs fee paid = .ok fill) :
    Filled price available unfilled remaining fee paid fill := by
  unfold exactInput at h
  obtain ⟨cost, hcost, h⟩ := bind_eq_ok.mp h
  obtain ⟨budget, hbudget, h⟩ := bind_eq_ok.mp h
  split at h
  · rename_i hcovers
    obtain ⟨charged, hcharged, h⟩ := bind_eq_ok.mp h
    obtain rfl := Except.ok.inj h
    exact .whole hcost hcharged (fun _ ↦ ⟨budget, hbudget, hcovers⟩)
      fun houtput ↦ absurd hinput (not_le.mpr houtput)
  · obtain ⟨bought, hbought, h⟩ := bind_eq_ok.mp h
    obtain ⟨⟨next, amountOut⟩, hpart, h⟩ := bind_eq_ok.mp h
    obtain rfl := Except.ok.inj h
    exact .inputPart hinput hbudget hbought (tookPart_of_takePart hpart)

theorem filled_of_exactOutput (houtput : remaining < 0)
    (h : exactOutput price available unfilled remaining.natAbs fee paid = .ok fill) :
    Filled price available unfilled remaining fee paid fill := by
  unfold exactOutput at h
  obtain ⟨cost, hcost, h⟩ := bind_eq_ok.mp h
  split at h
  · rename_i hcovers
    obtain ⟨charged, hcharged, h⟩ := bind_eq_ok.mp h
    obtain rfl := Except.ok.inj h
    exact .whole hcost hcharged (fun hinput ↦ absurd houtput (not_lt.mpr hinput))
      fun _ ↦ hcovers
  · obtain ⟨⟨next, amountOut⟩, hpart, h⟩ := bind_eq_ok.mp h
    obtain ⟨amountIn, hamountIn, h⟩ := bind_eq_ok.mp h
    obtain ⟨charged, hcharged, h⟩ := bind_eq_ok.mp h
    obtain rfl := Except.ok.inj h
    exact .outputPart houtput (tookPart_of_takePart hpart) hamountIn hcharged

theorem filled_of_compute (h : compute price available unfilled remaining fee paid = .ok fill) :
    fee < feeDenominator ∧ Filled price available unfilled remaining fee paid fill := by
  unfold compute at h
  obtain ⟨_, hfee, h⟩ := bind_eq_ok.mp h
  rw [require_eq_ok] at hfee
  split at h
  · rename_i hinput
    exact ⟨hfee, filled_of_exactInput hinput h⟩
  · rename_i houtput
    exact ⟨hfee, filled_of_exactOutput (not_le.mp houtput) h⟩

/-! ### The amount left to swap -/

/-- A fill spends no more than an input that is left to swap, its fee included. -/
theorem spent_le_of_compute (hinput : 0 ≤ remaining)
    (h : compute price available unfilled remaining fee paid = .ok fill) :
    fill.amountIn + fill.fee ≤ remaining.natAbs := by
  obtain ⟨hfee, hfilled⟩ := filled_of_compute h
  cases hfilled with
  | whole _ hcharged hcovers _ =>
    obtain ⟨budget, hbudget, hle⟩ := hcovers hinput
    exact add_feeOn_le hfee hbudget hle hcharged
  | inputPart _ hbudget _ _ => exact (Nat.add_sub_cancel' (lessFee_le_input hbudget)).le
  | outputPart houtput _ _ _ => exact absurd hinput (not_le.mpr houtput)

/-- A fill that takes a part of a level spends all of an input. -/
theorem spent_eq_of_inPart (hinput : 0 ≤ remaining)
    (h : compute price available unfilled remaining fee paid = .ok fill)
    (hpart : fill.unfilled? = some next) : fill.amountIn + fill.fee = remaining.natAbs := by
  cases (filled_of_compute h).2 with
  | whole => exact absurd hpart (Option.some_ne_none next).symm
  | inputPart _ hbudget _ _ => exact Nat.add_sub_cancel' (lessFee_le_input hbudget)
  | outputPart houtput _ _ _ => exact absurd hinput (not_le.mpr houtput)

/-- A fill buys no more than an output that is left to swap. -/
theorem bought_le_of_compute (havailable : available < twoPow 128) (houtput : remaining < 0)
    (h : compute price available unfilled remaining fee paid = .ok fill) :
    fill.amountOut ≤ remaining.natAbs := by
  cases (filled_of_compute h).2 with
  | whole _ _ _ hcovers => exact hcovers houtput
  | inputPart hinput _ _ _ => exact absurd hinput (not_le.mpr houtput)
  | outputPart _ htook _ _ => exact htook.amountOut_le havailable

/-- A fill that takes a part of a level buys all of an output but for one unit, as long as the
share's exponent has room to grow. -/
theorem bought_near_of_inPart (havailable : available < twoPow 128) (houtput : remaining < 0)
    (hroom : unfilled.exponent + 256 < twoPow 128)
    (h : compute price available unfilled remaining fee paid = .ok fill)
    (hpart : fill.unfilled? = some next) : remaining.natAbs ≤ fill.amountOut + 1 := by
  cases (filled_of_compute h).2 with
  | whole => exact absurd hpart (Option.some_ne_none next).symm
  | inputPart hinput _ _ _ => exact absurd hinput (not_le.mpr houtput)
  | outputPart _ htook _ _ => exact htook.taken_le havailable hroom

/-! ### The worth of a fill -/

/-- What holds of every fill: the whole level is paid for, and a part of it leaves some of the
level, but no more than is offered afterwards. -/
structure Bounded (price available : ℕ) (unfilled : Share) (fee : ℕ) (paid : Token)
    (fill : LevelFill) : Prop where
  amountOut_le : fill.amountOut ≤ available
  whole : fill.unfilled? = none → fill.amountOut = available ∧
    available * Book.charge price fee paid ≤ fill.amountIn + fill.fee
  part : ∀ next ∈ fill.unfilled?, next.value ≤ unfilled.value ∧ fill.amountOut < available ∧
    available * (next.value / unfilled.value) ≤ available - fill.amountOut

theorem TookPart.bounded (h : TookPart available taken unfilled next amountOut)
    (havailable : available < twoPow 256) (amountIn charged : ℕ) :
    Bounded price available unfilled fee paid ⟨amountIn, amountOut, charged, some next⟩ := by
  obtain ⟨hvalue, hout, hleft⟩ := h.bounds havailable
  refine ⟨hout.le, fun hnone ↦ absurd hnone (Option.some_ne_none next), fun other hother ↦ ?_⟩
  obtain rfl := Option.mem_some_iff.mp hother
  exact ⟨hvalue, hout, hleft⟩

theorem bounded_of_compute (havailable : available < twoPow 256)
    (h : compute price available unfilled remaining fee paid = .ok fill) :
    Bounded price available unfilled fee paid fill := by
  obtain ⟨hfee, hfilled⟩ := filled_of_compute h
  cases hfilled with
  | whole hcost hcharged _ _ =>
    exact ⟨le_rfl, fun _ ↦ ⟨rfl, Book.charge_le hfee (Book.le_costCeil hcost) hcharged⟩,
      fun next hnext ↦ absurd hnext (Option.not_mem_none next)⟩
  | inputPart _ _ _ htook => exact htook.bounded havailable _ _
  | outputPart _ htook _ _ => exact htook.bounded havailable _ _

theorem boughtFloor_le {cost bought : ℕ} (h : Book.boughtFloor cost price paid = .ok bought) :
    bought * Book.unitCost price paid ≤ cost := by
  have hq : (0 : ℚ) < (q96 : ℕ) := by exact_mod_cast twoPow_pos 96
  cases paid with
  | zero =>
    obtain ⟨hdivisor, -, rfl⟩ := mulDivFloor_eq_ok.mp h
    have hfloor := floor_le_div (cost * price) (Nat.pos_of_ne_zero hdivisor)
    rw [Nat.cast_mul, le_div_iff₀ hq] at hfloor
    rcases Nat.eq_zero_or_pos price with rfl | hprice
    · rw [Book.unitCost, Nat.cast_zero, div_zero, mul_zero]
      exact Nat.cast_nonneg cost
    · rw [Book.unitCost, ← mul_div_assoc, div_le_iff₀ (by exact_mod_cast hprice)]
      exact hfloor
  | one =>
    obtain ⟨hdivisor, -, rfl⟩ := mulDivFloor_eq_ok.mp h
    have hprice : (0 : ℚ) < price := by exact_mod_cast Nat.pos_of_ne_zero hdivisor
    have hfloor := floor_le_div (cost * q96) (Nat.pos_of_ne_zero hdivisor)
    rw [Nat.cast_mul, le_div_iff₀ hprice] at hfloor
    rw [Book.unitCost, ← mul_div_assoc, div_le_iff₀ hq]
    exact hfloor

/-- An input that is used up in a level pays at least the exact worth of the amount that it was to
take. -/
theorem taken_of_inputPart (hinput : 0 ≤ remaining)
    (h : compute price available unfilled remaining fee paid = .ok fill)
    (hpart : fill.unfilled? = some next) :
    ∃ bought : ℕ, TookPart available bought unfilled next fill.amountOut ∧
      bought * Book.charge price fee paid ≤ fill.amountIn + fill.fee := by
  have hspent : ((fill.amountIn + fill.fee : ℕ) : ℚ) = remaining.natAbs :=
    congrArg Nat.cast (spent_eq_of_inPart hinput h hpart)
  obtain ⟨hfee, hfilled⟩ := filled_of_compute h
  rw [← Nat.cast_add, hspent]
  cases hfilled with
  | whole => exact absurd hpart (Option.some_ne_none next).symm
  | outputPart houtput _ _ _ => exact absurd hinput (not_le.mpr houtput)
  | @inputPart budget bought _ _ _ hbudget hbought htook =>
    obtain rfl := Option.some.inj hpart
    refine ⟨bought, htook, ?_⟩
    calc _ = bought * Book.unitCost price paid * (feeDenominator / (feeDenominator - fee : ℕ)) := by
          rw [Book.charge, mul_assoc]
      _ ≤ budget * (feeDenominator / (feeDenominator - fee : ℕ)) :=
          mul_le_mul_of_nonneg_right (boughtFloor_le hbought) (by positivity)
      _ ≤ remaining.natAbs := lessFee_withFee_le hfee hbudget

/-- An output that a level offers is charged by the amount that counts as taken. -/
theorem taken_of_outputPart (houtput : remaining < 0)
    (h : compute price available unfilled remaining fee paid = .ok fill)
    (hpart : fill.unfilled? = some next) :
    ∃ wanted : ℕ, TookPart available wanted unfilled next fill.amountOut ∧
      fill.amountOut * Book.charge price fee paid ≤ fill.amountIn + fill.fee := by
  obtain ⟨hfee, hfilled⟩ := filled_of_compute h
  cases hfilled with
  | whole => exact absurd hpart (Option.some_ne_none next).symm
  | inputPart hinput _ _ _ => exact absurd houtput (not_lt.mpr hinput)
  | outputPart _ htook hcost hcharged =>
    obtain rfl := Option.some.inj hpart
    exact ⟨_, htook, Book.charge_le hfee (Book.le_costCeil hcost) hcharged⟩

end RangeBook.LevelFill
