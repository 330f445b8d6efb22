import Mathlib
import RangeBook.Proofs.Curve.Monotone
import RangeBook.Proofs.Share.Monotone
import RangeBook.Proofs.Swap.LevelFill
import RangeBook.Proofs.Swap.RangeStep

/-!
# Steps of two amounts

A step along a range goes all the way to its target where the amount that is left to swap covers it,
and otherwise uses that amount up on a part of the way (`RangeStep.Went`). Of two steps from the same
place towards the same target, one of which has no less left to swap, the one that has more covers
all that the other one covers. So either the two are the same, or the one that has less uses it up
and goes no further than the other (`RangeStep.Went.compare`).

The same holds of two fills of a level (`LevelFill.Filled.compare`). There a part of the level is
rounded by the shares, which keep the order of what is left.
-/

set_option autoImplicit false
set_option relaxedAutoImplicit false

namespace RangeBook

/-- Whether one amount left to swap is part of another one: both are inputs or both are outputs, and
the first is no greater. -/
def IsPartOf (part whole : ℤ) : Prop :=
  (0 ≤ part ∧ part ≤ whole) ∨ (part < 0 ∧ whole ≤ part)

theorem IsPartOf.natAbs_le {part whole : ℤ} (h : IsPartOf part whole) :
    part.natAbs ≤ whole.natAbs := by
  unfold IsPartOf at h
  omega

theorem IsPartOf.nonneg_iff {part whole : ℤ} (h : IsPartOf part whole) : 0 ≤ part ↔ 0 ≤ whole := by
  unfold IsPartOf at h
  omega

/-! ### Steps along a range -/

namespace RangeStep

open Curve

variable {paid : Token} {current target liquidity fee : ℕ} {remaining remaining' : ℤ}
  {step step' : RangeStep}

/-- A step that starts at its target goes all the way, whichever token is taken to be paid. -/
theorem Went.of_same {paid' : Token} (hcurrent : 0 < current)
    (h : Went paid current current liquidity remaining fee step) :
    Went paid' current current liquidity remaining fee step := by
  cases h with
  | whole htaken hinput houtput =>
    obtain ⟨hprice, hin, hout, hcharged⟩ := htaken
    have hinZero := Except.ok.inj ((amount_self .up hcurrent).symm.trans hin)
    have houtZero := Except.ok.inj ((amount_self .down hcurrent).symm.trans hout)
    refine .whole ⟨hprice, ?_, ?_, hcharged⟩ hinput houtput
    · rw [← hinZero]
      exact amount_self .up hcurrent
    · rw [← houtZero]
      exact amount_self .down hcurrent
  | inputPart _ hpart =>
    obtain ⟨budget, -, hless, -⟩ := hpart.price_eq
    rw [exactAmount_self] at hless
    exact absurd hless (not_lt.mpr (Nat.cast_nonneg _))
  | outputPart _ hpart =>
    obtain ⟨toTarget, htoTarget, hless⟩ := hpart.lt_toTarget
    obtain rfl := Except.ok.inj ((amount_self .down hcurrent).symm.trans htoTarget)
    exact absurd hless (Nat.not_lt_zero _)

/-- A step in the direction of a swap. One that starts at its target is taken to pay token zero, but
then nothing moves. -/
theorem went_of_compute (hcurrent : 0 < current) (htarget : 0 < target)
    (htoward : paid.Leads current target)
    (h : compute current target liquidity remaining fee = .ok step) :
    fee < feeDenominator ∧ Went paid current target liquidity remaining fee step := by
  obtain ⟨hfee, hwent⟩ := went_toward_of_compute htarget h
  refine ⟨hfee, ?_⟩
  by_cases hsame : current = target
  · subst hsame
    exact hwent.of_same hcurrent
  · rwa [paidToward_eq htoward hsame] at hwent

/-- Whether a step uses up the amount that is left to swap. -/
def UsesUp (remaining : ℤ) (step : RangeStep) : Prop :=
  (0 ≤ remaining ∧ step.amountIn + step.fee = remaining.natAbs) ∨
    (remaining < 0 ∧ step.amountOut = remaining.natAbs)

/-- Whether a step ends no further than another one, pays no more and buys no more. -/
structure NoFurther (paid : Token) (step step' : RangeStep) : Prop where
  leads : paid.Leads step.price step'.price
  spent_le : step.amountIn + step.fee ≤ step'.amountIn + step'.fee
  bought_le : step.amountOut ≤ step'.amountOut

theorem Whole.unique (h : Whole paid current target liquidity fee step)
    (h' : Whole paid current target liquidity fee step') : step' = step := by
  have hin := Except.ok.inj (h'.amountIn_eq.symm.trans h.amountIn_eq)
  have hcharged := h'.fee_eq
  rw [hin] at hcharged
  cases step
  cases step'
  simp only [mk.injEq]
  exact ⟨h'.price_eq.trans h.price_eq.symm, hin,
    Except.ok.inj (h'.amountOut_eq.symm.trans h.amountOut_eq),
    Except.ok.inj (hcharged.symm.trans h.fee_eq)⟩

/-- A step that goes all the way is the same whatever is left to swap beyond what it covers. -/
theorem Whole.eq_of_covers (h : Whole paid current target liquidity fee step)
    (hinput : 0 ≤ remaining →
      ∀ budget, lessFee remaining.natAbs fee = .ok budget → step.amountIn ≤ budget)
    (houtput : remaining < 0 → step.amountOut ≤ remaining.natAbs)
    (h' : Went paid current target liquidity remaining fee step') : step' = step := by
  cases h' with
  | whole htaken _ _ => exact h.unique htaken
  | inputPart hsign hpart =>
    obtain ⟨budget, hbudget, hless, -⟩ := hpart.price_eq
    exact absurd ((amount_up_le_iff h.amountIn_eq).mp (hinput hsign budget hbudget))
      (not_le.mpr hless)
  | outputPart hsign hpart =>
    obtain ⟨toTarget, htoTarget, hless⟩ := hpart.lt_toTarget
    obtain rfl := Except.ok.inj (htoTarget.symm.trans h.amountOut_eq)
    exact absurd (houtput hsign) (not_le.mpr hless)

section

variable (hcurrent : 0 < current) (htarget : 0 < target) (htoward : paid.Leads current target)

include hcurrent htarget htoward

/-- Where an input is used up on a part of the way, a step with more of it goes no less far. -/
theorem InputPart.noFurther (hfee : fee < feeDenominator) (hpart : IsPartOf remaining remaining')
    (hsign : 0 ≤ remaining)
    (h : InputPart paid current target liquidity remaining.natAbs fee step)
    (h' : Went paid current target liquidity remaining' fee step') :
    NoFurther paid step step' := by
  obtain ⟨hleads, hpast⟩ := h.between htarget htoward
  obtain ⟨budget, hbudget, hless, hprice⟩ := h.price_eq
  cases h' with
  | whole htaken _ _ =>
    have hbudgetLt := hless.trans_le (exactAmount_le_amount_up htaken.amountIn_eq)
    refine ⟨?_, ?_, ?_⟩
    · rw [htaken.price_eq]
      exact .of_past hpast
    · exact h.spent_eq.le.trans
        (le_add_feeOn hfee hbudget (by exact_mod_cast hbudgetLt) htaken.fee_eq)
    · exact amount_down_le_amount_down hcurrent htarget hleads (.of_past hpast) h.amountOut_eq
        htaken.amountOut_eq
  | inputPart _ h' =>
    obtain ⟨hleads', hpast'⟩ := h'.between htarget htoward
    obtain ⟨budget', hbudget', -, hprice'⟩ := h'.price_eq
    have hfurther := priceAfterInput_leads
      (lessFee_le_lessFee hpart.natAbs_le hbudget hbudget') hprice hprice'
    refine ⟨hfurther, ?_, ?_⟩
    · exact h.spent_eq.le.trans (hpart.natAbs_le.trans h'.spent_eq.ge)
    · exact amount_down_le_amount_down hcurrent (hleads'.pos hcurrent htarget (.of_past hpast'))
        hleads hfurther h.amountOut_eq h'.amountOut_eq
  | outputPart hsign' _ => exact absurd (hpart.nonneg_iff.mp hsign) (not_le.mpr hsign')

/-- Where an output is bought on a part of the way, a step with more of it goes no less far. -/
theorem OutputPart.noFurther (hpart : IsPartOf remaining remaining') (hsign : remaining < 0)
    (h : OutputPart paid current target liquidity remaining.natAbs fee step)
    (h' : Went paid current target liquidity remaining' fee step') :
    NoFurther paid step step' := by
  obtain ⟨hleads, hstays⟩ := h.between htarget htoward
  cases h' with
  | whole htaken _ _ =>
    obtain ⟨toTarget, htoTarget, hless⟩ := h.lt_toTarget
    obtain rfl := Except.ok.inj (htoTarget.symm.trans htaken.amountOut_eq)
    have hin := amount_up_le_amount_up hcurrent htarget hleads hstays h.amountIn_eq
      htaken.amountIn_eq
    refine ⟨?_, Nat.add_le_add hin (feeOn_le_feeOn hin h.fee_eq htaken.fee_eq),
      h.amountOut_eq.le.trans hless.le⟩
    rw [htaken.price_eq]
    exact hstays
  | inputPart hsign' _ => exact absurd (hpart.nonneg_iff.mpr hsign') (not_le.mpr hsign)
  | outputPart _ h' =>
    obtain ⟨hleads', hstays'⟩ := h'.between htarget htoward
    have hpos' := hleads'.pos hcurrent htarget hstays'
    have hfurther := priceAfterOutput_leads hpos' hleads' hpart.natAbs_le h.price_eq h'.price_eq
    have hin := amount_up_le_amount_up hcurrent hpos' hleads hfurther h.amountIn_eq h'.amountIn_eq
    exact ⟨hfurther, Nat.add_le_add hin (feeOn_le_feeOn hin h.fee_eq h'.fee_eq),
      h.amountOut_eq.le.trans (hpart.natAbs_le.trans h'.amountOut_eq.ge)⟩

/-- Of two steps the one with no less left to swap is the same, or goes no less far than the other
one, which then uses up what it has. -/
theorem Went.compare (hfee : fee < feeDenominator) (hpart : IsPartOf remaining remaining')
    (h : Went paid current target liquidity remaining fee step)
    (h' : Went paid current target liquidity remaining' fee step') :
    step' = step ∨ (UsesUp remaining step ∧ NoFurther paid step step') := by
  cases h with
  | whole htaken hinput houtput =>
    refine .inl (htaken.eq_of_covers (fun hsign budget' hbudget' ↦ ?_) (fun hsign ↦ ?_) h')
    · obtain ⟨budget, hbudget, hcovers⟩ := hinput (hpart.nonneg_iff.mpr hsign)
      exact hcovers.trans (lessFee_le_lessFee hpart.natAbs_le hbudget hbudget')
    · have hsign := not_le.mp (mt hpart.nonneg_iff.mp (not_le.mpr hsign))
      exact (houtput hsign).trans hpart.natAbs_le
  | inputPart hsign h =>
    exact .inr ⟨.inl ⟨hsign, h.spent_eq⟩,
      h.noFurther hcurrent htarget htoward hfee hpart hsign h'⟩
  | outputPart hsign h =>
    exact .inr ⟨.inr ⟨hsign, h.amountOut_eq⟩,
      h.noFurther hcurrent htarget htoward hpart hsign h'⟩

end

end RangeStep

/-! ### Fills of a level -/

namespace Book

variable {amount amount' cost cost' budget budget' bought bought' price : ℕ} {paid : Token}

theorem costCeil_le_costCeil (hle : amount ≤ amount') (h : costCeil amount price paid = .ok cost)
    (h' : costCeil amount' price paid = .ok cost') : cost ≤ cost' := by
  cases paid <;> obtain ⟨-, -, rfl⟩ := mulDivCeil_eq_ok.mp h <;>
    obtain ⟨-, -, rfl⟩ := mulDivCeil_eq_ok.mp h' <;>
    exact divCeil_le_divCeil (Nat.mul_le_mul_right _ hle) _

theorem boughtFloor_le_boughtFloor (hle : budget ≤ budget')
    (h : boughtFloor budget price paid = .ok bought)
    (h' : boughtFloor budget' price paid = .ok bought') : bought ≤ bought' := by
  cases paid <;> obtain ⟨-, -, rfl⟩ := mulDivFloor_eq_ok.mp h <;>
    obtain ⟨-, -, rfl⟩ := mulDivFloor_eq_ok.mp h' <;>
    exact Nat.div_le_div_right (Nat.mul_le_mul_right _ hle)

/-- A budget that covers the cost of an amount buys the amount. -/
theorem le_boughtFloor (hcovers : cost ≤ budget) (hcost : costCeil amount price paid = .ok cost)
    (hbought : boughtFloor budget price paid = .ok bought) : amount ≤ bought := by
  cases paid <;> obtain ⟨hcostDivisor, -, rfl⟩ := mulDivCeil_eq_ok.mp hcost <;>
    obtain ⟨hdivisor, -, rfl⟩ := mulDivFloor_eq_ok.mp hbought
  all_goals
    rw [Nat.le_div_iff_mul_le (Nat.pos_of_ne_zero hdivisor)]
    exact ((divCeil_le_iff (Nat.pos_of_ne_zero hcostDivisor)).mp le_rfl).trans
      (Nat.mul_le_mul_right _ hcovers)

end Book

namespace LevelFill

variable {price available taken taken' amountOut amountOut' fee : ℕ} {unfilled next next' : Share}
  {remaining remaining' : ℤ} {paid : Token} {fill fill' : LevelFill}

/-- Where more is to be taken of a level no less counts as taken. -/
theorem TookPart.amountOut_le_amountOut (havailable : available < twoPow 256) (hle : taken ≤ taken')
    (h : TookPart available taken unfilled next amountOut)
    (h' : TookPart available taken' unfilled next' amountOut') : amountOut ≤ amountOut' := by
  have hshare : next' ≤ next :=
    Share.scale_le_scale havailable (Nat.sub_le_sub_left hle _) h'.scale_eq h.scale_eq
  obtain ⟨floor, ceiling, hportion, hceiling, rfl⟩ := h.amountOut_eq
  obtain ⟨floor', ceiling', hportion', hceiling', rfl⟩ := h'.amountOut_eq
  exact Nat.sub_le_sub_left
    (Share.portion_ceiling_le_ceiling havailable hshare hportion' hportion) _

section

variable (havailable : available < twoPow 256) (hpart : IsPartOf remaining remaining')

include hpart

/-- A level that is used up is used up by every swap with no less left to swap. -/
theorem Filled.eq_of_covers {cost charged : ℕ}
    (hcost : Book.costCeil available price paid = .ok cost) (hcharged : feeOn cost fee = .ok charged)
    (hinput : 0 ≤ remaining →
      ∃ budget, lessFee remaining.natAbs fee = .ok budget ∧ cost ≤ budget)
    (houtput : remaining < 0 → available ≤ remaining.natAbs)
    (h' : Filled price available unfilled remaining' fee paid fill') :
    fill' = ⟨cost, available, charged, none⟩ := by
  cases h' with
  | whole hcost' hcharged' _ _ =>
    obtain rfl := Except.ok.inj (hcost.symm.trans hcost')
    obtain rfl := Except.ok.inj (hcharged.symm.trans hcharged')
    rfl
  | inputPart hsign' hbudget' hbought' htook' =>
    obtain ⟨budget, hbudget, hcovers⟩ := hinput (hpart.nonneg_iff.mpr hsign')
    have hcovers' := hcovers.trans (lessFee_le_lessFee hpart.natAbs_le hbudget hbudget')
    exact absurd (Book.le_boughtFloor hcovers' hcost hbought') (not_le.mpr htook'.taken_lt)
  | outputPart hsign' htook' _ _ =>
    have hsign := not_le.mp (mt hpart.nonneg_iff.mp (not_le.mpr hsign'))
    exact absurd ((houtput hsign).trans hpart.natAbs_le) (not_le.mpr htook'.taken_lt)

include havailable

/-- Where an input takes a part of a level, a swap with more of it pays no less and takes no less. -/
theorem Filled.inputPart_le {budget bought : ℕ} (hfee : fee < feeDenominator)
    (hsign : 0 ≤ remaining) (hbudget : lessFee remaining.natAbs fee = .ok budget)
    (hbought : Book.boughtFloor budget price paid = .ok bought)
    (htook : TookPart available bought unfilled next amountOut)
    (h' : Filled price available unfilled remaining' fee paid fill') :
    remaining.natAbs ≤ fill'.amountIn + fill'.fee ∧ amountOut ≤ fill'.amountOut := by
  cases h' with
  | whole hcost' hcharged' _ _ =>
    have hless := not_le.mp fun hcovers ↦
      absurd (Book.le_boughtFloor hcovers hcost' hbought) (not_le.mpr htook.taken_lt)
    exact ⟨le_add_feeOn hfee hbudget hless hcharged', (htook.bounds havailable).2.1.le⟩
  | inputPart _ hbudget' hbought' htook' =>
    refine ⟨?_, htook.amountOut_le_amountOut havailable (Book.boughtFloor_le_boughtFloor
      (lessFee_le_lessFee hpart.natAbs_le hbudget hbudget') hbought hbought') htook'⟩
    dsimp only
    rw [Nat.add_sub_cancel' (lessFee_le_input hbudget')]
    exact hpart.natAbs_le
  | outputPart hsign' _ _ _ => exact absurd (hpart.nonneg_iff.mp hsign) (not_le.mpr hsign')

/-- Where an output takes a part of a level, a swap with more of it pays no less and takes no
less. -/
theorem Filled.outputPart_le {amountIn charged : ℕ} (hsign : remaining < 0)
    (htook : TookPart available remaining.natAbs unfilled next amountOut)
    (hcost : Book.costCeil amountOut price paid = .ok amountIn)
    (hcharged : feeOn amountIn fee = .ok charged)
    (h' : Filled price available unfilled remaining' fee paid fill') :
    amountIn + charged ≤ fill'.amountIn + fill'.fee ∧ amountOut ≤ fill'.amountOut := by
  cases h' with
  | whole hcost' hcharged' _ _ =>
    have hout := (htook.bounds havailable).2.1.le
    have hcostLe := Book.costCeil_le_costCeil hout hcost hcost'
    exact ⟨Nat.add_le_add hcostLe (feeOn_le_feeOn hcostLe hcharged hcharged'), hout⟩
  | inputPart hsign' _ _ _ => exact absurd (hpart.nonneg_iff.mpr hsign') (not_le.mpr hsign)
  | outputPart _ htook' hcost' hcharged' =>
    have hout := htook.amountOut_le_amountOut havailable hpart.natAbs_le htook'
    have hcostLe := Book.costCeil_le_costCeil hout hcost hcost'
    exact ⟨Nat.add_le_add hcostLe (feeOn_le_feeOn hcostLe hcharged hcharged'), hout⟩

/-- Of two fills the one with no less left to swap uses the level up as the other one does, or moves
no less than the other one, which then takes a part. -/
theorem Filled.compare (hfee : fee < feeDenominator)
    (h : Filled price available unfilled remaining fee paid fill)
    (h' : Filled price available unfilled remaining' fee paid fill') :
    (fill.unfilled? = none ∧ fill' = fill) ∨
      (fill.unfilled?.isSome ∧ fill.amountIn + fill.fee ≤ fill'.amountIn + fill'.fee ∧
        fill.amountOut ≤ fill'.amountOut) := by
  cases h with
  | whole hcost hcharged hinput houtput =>
    exact .inl ⟨rfl, h'.eq_of_covers hpart hcost hcharged hinput houtput⟩
  | inputPart hsign hbudget hbought htook =>
    obtain ⟨hin, hout⟩ := h'.inputPart_le havailable hpart hfee hsign hbudget hbought htook
    exact .inr ⟨rfl, (Nat.add_sub_cancel' (lessFee_le_input hbudget)).le.trans hin, hout⟩
  | outputPart hsign htook hcost hcharged =>
    exact .inr ⟨rfl, h'.outputPart_le havailable hpart hsign htook hcost hcharged⟩

end

end LevelFill

end RangeBook
