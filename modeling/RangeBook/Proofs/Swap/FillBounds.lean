import Mathlib
import RangeBook.Proofs.Book.Price
import RangeBook.Proofs.Share.Scaling
import RangeBook.Proofs.Swap.PartFill

/-!
# What a fill of a level promises

At the price of a tick a fill of fixed input can always be worked out: an input that does not cover
the cost of the level buys less than the level, so a part of the level is left, and the share of it
can be scaled and taken (`compute_finishes`). A fill of fixed output fails only where an amount does
not fit.

Every fill that can be worked out stays within the amount that is left to swap, uses a level up
exactly where it gives out all of it, leaves of it what the new share says, rounded up, and takes in
at least the exact cost and the exact fee of what it gives out (`compute_reckoned`).
-/

set_option autoImplicit false
set_option relaxedAutoImplicit false

namespace RangeBook.LevelFill

attribute [local irreducible] tickSqrtPrice tickAt

variable {allowed : Failure → Prop} {price available taken amountOut fee cost : ℕ}
  {unfilled next : Share} {remaining tick : ℤ} {paid : Token} {fill : LevelFill}

/-! ### Fills of fixed input can be worked out -/

/-- Less than what is available can be taken out of every share. -/
theorem takePart_finishes (htaken : taken < available) (havailable : available < twoPow 256) :
    FailsOnly allowed (takePart available taken unfilled) := by
  obtain ⟨next, hnext⟩ : ∃ next, unfilled.scale (available - taken) available = .ok next :=
    Share.exists_scale (Nat.sub_pos_of_lt htaken) (Nat.sub_le _ _) havailable
  have hle := (Share.scaledDown_of_scale havailable hnext).le_share
  have hceiling := Nat.ceil_le.mpr (Share.part_le available hle)
  refine .bind_of_eq_ok (within_eq_ok.mpr ⟨htaken.le, rfl⟩) (.bind_of_eq_ok hnext ?_)
  exact .bind_of_eq_ok (Share.portion_eq havailable hle)
    (.bind_of_eq_ok (within_eq_ok.mpr ⟨hceiling, rfl⟩) (.pure _))

/-- An input that covers the cost of a level covers the fee on it too. -/
theorem whole_finishes {input budget : ℕ} (hfee : fee < feeDenominator) (hinput : input < twoPow 256)
    (hbudget : lessFee input fee = .ok budget) (hcovers : cost ≤ budget) :
    FailsOnly allowed (whole available cost fee) :=
  .bind (.mulDivCeil_of_le (Nat.sub_pos_of_lt hfee) (mul_fee_le_rest hfee hbudget hcovers)
    (lt_of_le_of_lt (Nat.sub_le _ _) hinput)) fun _ _ ↦ .pure _

theorem exactInput_finishes {input : ℕ} (hpos : 0 < price) (hprice : price ≤ twoPow 224)
    (havailable : available < twoPow 128) (hfee : fee < feeDenominator)
    (hinput : input < twoPow 256) :
    FailsOnly allowed (exactInput price available unfilled input fee paid) := by
  have hwide : available < twoPow 256 := lt_trans havailable (by decide)
  refine .bind (Book.costCeil_finishes hpos hprice havailable) fun cost hcost ↦
    .bind (lessFee_finishes hinput) fun budget hbudget ↦ .ite (fun hcovers ↦ ?_) fun hshort ↦ ?_
  · exact whole_finishes hfee hinput hbudget hcovers
  · obtain ⟨bought, hbought, hless⟩ :=
      Book.exists_boughtFloor_lt hpos hwide hcost (not_le.mp hshort)
    exact .bind_of_eq_ok hbought (.bind (takePart_finishes hless hwide) fun _ _ ↦ .pure _)

/-- A fill of fixed input can be worked out at every price of at most 224 bits. -/
theorem compute_finishes (hpos : 0 < price) (hprice : price ≤ twoPow 224)
    (havailable : available < twoPow 128) (hfee : fee < feeDenominator) (hinput : 0 ≤ remaining)
    (hwidth : remaining < twoPow 255) :
    FailsOnly allowed (compute price available unfilled remaining fee paid) := by
  have hbits : twoPow 255 < twoPow 256 := by decide
  refine .bind (.require (absurd hfee)) fun _ _ ↦ .ite (fun _ ↦ ?_) fun hnot ↦ absurd hinput hnot
  exact exactInput_finishes hpos hprice havailable hfee (by omega)

/-! ### Fills that can be worked out -/

/-- What is left of a level is what the new share says, rounded up. -/
theorem TookPart.amountOut_add_left (h : TookPart available taken unfilled next amountOut)
    (havailable : available < twoPow 256) :
    next ≤ unfilled ∧
      amountOut + ⌈available * (next.value / unfilled.value)⌉₊ = available := by
  obtain ⟨floor, ceiling, hportion, hceiling, rfl⟩ := h.amountOut_eq
  obtain ⟨hle, -, rfl⟩ := Share.eq_of_portion havailable hportion
  exact ⟨hle, Nat.sub_add_cancel hceiling⟩

/-- A fill gives out no more than what its input buys. -/
theorem amountOut_le_exactlyBought (havailable : available < twoPow 128) (hprice : 0 < price)
    (h : compute price available unfilled remaining fee paid = .ok fill) :
    (fill.amountOut : ℚ) ≤ Book.exactlyBought price paid fill.amountIn := by
  cases hunfilled : fill.unfilled? with
  | some next =>
    obtain ⟨taken, -, hbought⟩ := tookPart_of_compute havailable hprice h hunfilled
    exact hbought
  | none =>
    cases (filled_of_compute h).2 with
    | whole hcost _ _ _ => exact Book.le_exactlyBought hprice (Book.le_costCeil hcost)
    | inputPart | outputPart => exact absurd hunfilled (Option.some_ne_none _)

/-- A fill charges at least the exact fee on what is paid. -/
theorem mul_fee_le_of_compute (h : compute price available unfilled remaining fee paid = .ok fill) :
    fill.amountIn * fee ≤ fill.fee * (feeDenominator - fee) := by
  obtain ⟨hfee, hfilled⟩ := filled_of_compute h
  cases hfilled with
  | whole _ hcharged _ _ => exact mul_fee_le_feeOn hfee hcharged
  | inputPart _ hbudget _ _ => exact mul_fee_le_rest hfee hbudget le_rfl
  | outputPart _ _ _ hcharged => exact mul_fee_le_feeOn hfee hcharged

/-- What holds of every fill: the level is used up exactly where all of it is given out, and
otherwise what is left of it is what the new share says, rounded up. The input buys what is given
out, at the exact price, and the fee on it is no less than the exact one. -/
structure Reckoned (price available : ℕ) (unfilled : Share) (fee : ℕ) (paid : Token)
    (fill : LevelFill) : Prop where
  usedUp_iff : fill.amountOut = available ↔ fill.unfilled? = none
  left_eq : ∀ next ∈ fill.unfilled?, next ≤ unfilled ∧
    fill.amountOut + ⌈available * (next.value / unfilled.value)⌉₊ = available
  bought_le : (fill.amountOut : ℚ) ≤ Book.exactlyBought price paid fill.amountIn
  fee_le : fill.amountIn * fee ≤ fill.fee * (feeDenominator - fee)

theorem reckoned_of_compute (havailable : available < twoPow 128) (hprice : 0 < price)
    (h : compute price available unfilled remaining fee paid = .ok fill) :
    Reckoned price available unfilled fee paid fill := by
  have hwide : available < twoPow 256 := lt_trans havailable (by decide)
  have hbounded := bounded_of_compute hwide h
  refine ⟨⟨fun hall ↦ ?_, fun hnone ↦ (hbounded.whole hnone).1⟩, fun next hnext ↦ ?_,
    amountOut_le_exactlyBought havailable hprice h, mul_fee_le_of_compute h⟩
  · refine Option.eq_none_iff_forall_not_mem.mpr fun next hnext ↦ ?_
    exact absurd hall (hbounded.part next hnext).2.1.ne
  · obtain ⟨taken, htook, -⟩ := tookPart_of_compute havailable hprice h hnext
    exact htook.amountOut_add_left hwide

/-- At the price of a tick, a fill of fixed input can be worked out and spends at most the input,
and all of it where it takes a part of the level. A fill of fixed output that can be worked out gives
out no more than the output and the level, and no less than one unit below the output where it takes
a part and the exponent of the share has room. Both are reckoned in favour of the owners. -/
theorem compute_reckoned (hprice : Book.priceAt tick = .ok price) (hpos : 0 < price)
    (havailable : available < twoPow 128)
    (hremaining : -(twoPow 255 : ℤ) ≤ remaining ∧ remaining < twoPow 255)
    (hfee : fee < feeDenominator) :
    (0 ≤ remaining → ∃ fill, compute price available unfilled remaining fee paid = .ok fill ∧
      fill.amountIn + fill.fee ≤ remaining.natAbs ∧
      (fill.unfilled? ≠ none → fill.amountIn + fill.fee = remaining.natAbs)) ∧
    ∀ fill, compute price available unfilled remaining fee paid = .ok fill →
      (remaining < 0 → fill.amountOut ≤ min remaining.natAbs available ∧
        (fill.unfilled? ≠ none → unfilled.exponent ≤ twoPow 128 - 1 - 256 →
          remaining.natAbs ≤ fill.amountOut + 1)) ∧
      Reckoned price available unfilled fee paid fill := by
  refine ⟨fun hinput ↦ ?_, fun fill hfill ↦ ⟨fun houtput ↦ ⟨?_, fun hpart hroom ↦ ?_⟩, ?_⟩⟩
  · obtain ⟨fill, hfill⟩ := (compute_finishes hpos (Book.priceAt_le hprice) havailable hfee hinput
      hremaining.2).exists_eq_ok
    refine ⟨fill, hfill, spent_le_of_compute hinput hfill, fun hpart ↦ ?_⟩
    obtain ⟨next, hnext⟩ := Option.ne_none_iff_exists'.mp hpart
    exact spent_eq_of_inPart hinput hfill hnext
  · exact le_min (bought_le_of_compute havailable houtput hfill)
      (bounded_of_compute (lt_trans havailable (by decide)) hfill).amountOut_le
  · obtain ⟨next, hnext⟩ := Option.ne_none_iff_exists'.mp hpart
    have hexponent : unfilled.exponent + 256 < twoPow 128 := by
      have hwide : 256 < twoPow 128 := by decide
      omega
    exact bought_near_of_inPart havailable houtput hexponent hfill hnext
  · exact reckoned_of_compute havailable hpos hfill

/-- An input of a hundred takes a part of a level of a thousand. -/
theorem compute_reckoned_partOfLevel :
    Book.priceAt 60 = .ok 79704936542881920863903188247 ∧
      ∃ fill, compute 79704936542881920863903188247 1000 .largest 100 3000 .one = .ok fill ∧
        fill.unfilled? ≠ none ∧ fill.amountIn + fill.fee = 100 ∧
        Reckoned 79704936542881920863903188247 1000 .largest 3000 .one fill := by
  have hprice : Book.priceAt 60 = .ok 79704936542881920863903188247 := by decide +kernel
  obtain ⟨fill, hfill, -, hspent⟩ :
      ∃ fill, compute 79704936542881920863903188247 1000 .largest 100 3000 .one = .ok fill ∧
        fill.amountIn + fill.fee ≤ 100 ∧
        (fill.unfilled? ≠ none → fill.amountIn + fill.fee = 100) :=
    (compute_reckoned hprice (by decide) (by decide) (by decide) (by decide)).1 (by decide)
  have hisSome : (·.unfilled?.isSome) <$>
      compute 79704936542881920863903188247 1000 .largest 100 3000 .one = .ok true := by
    decide +kernel
  rw [hfill] at hisSome
  have hpart : fill.unfilled? ≠ none :=
    Option.isSome_iff_ne_none.mp (Except.ok.inj hisSome)
  have hreckoned :=
    (compute_reckoned hprice (by decide) (by decide) (by decide) (by decide)).2 fill hfill
  exact ⟨hprice, fill, hfill, hpart, hspent hpart, hreckoned.2⟩

end RangeBook.LevelFill
