import Mathlib
import RangeBook.Proofs.Pool.Abreast

/-!
# Exact outputs after exact inputs

What an exact input swap buys on a pool without orders to fill can be asked for as an exact output
instead. The two swaps take the same steps until the last one of the exact input swap, which may use
up its input between two ticks. There the exact output swap buys exactly what is missing, and it pays
no more for it as long as it ends no further (`RangeStep.InputPart.exactOutput`).

It may end further. A step of fixed output goes all the way to its target where what it wants is all
that the curve gives out up to there, rounded down. If less than one unit lies between the price where
the exact input swap ended and that target, then the exact output swap pays for the way to the target
as well (`Overshoots`), although it gets no more for it. So it agrees with the exact input swap, except
that it may overshoot to the next tick or to its limit (`exactOutput_of_exactInput`).
-/

set_option autoImplicit false
set_option relaxedAutoImplicit false

namespace RangeBook

attribute [local irreducible] tickSqrtPrice tickAt

/-- Whether a swap ends past a price, at its limit or at the price of a tick, although the liquidity
holds less than one unit of the token bought from the one price to the other. -/
structure Overshoots (paid : Token) (limit price price' liquidity : ℕ) : Prop where
  past : paid.Past price' price
  stop : price' = limit ∨ ∃ tick, sqrtPriceAt tick = .ok price'
  lt_one : Curve.exactAmount paid.other price price' liquidity < 1

namespace RangeStep

open Curve

variable {paid : Token} {current target liquidity input fee : ℕ} {remaining : ℤ}
  {step step' : RangeStep}

/-- A step for the output that an input bought on a part of the way. -/
theorem InputPart.exactOutput (hcurrent : 0 < current) (htarget : 0 < target)
    (htoward : paid.Leads current target) (hfee : fee < feeDenominator)
    (h : InputPart paid current target liquidity input fee step) (hsign : remaining < 0)
    (hsame : remaining.natAbs = step.amountOut)
    (h' : Went paid current target liquidity remaining fee step') :
    step'.amountOut = step.amountOut ∧ (step'.amountIn + step'.fee ≤ input ∨
      (step'.price = target ∧ exactAmount paid.other step.price target liquidity < 1)) := by
  obtain ⟨hleads, hpast⟩ := h.between htarget htoward
  cases h' with
  | whole htaken _ hcovers =>
    have hle := hcovers hsign
    rw [hsame] at hle
    have hout : step'.amountOut = step.amountOut :=
      le_antisymm hle (amount_down_le_amount_down hcurrent htarget hleads (.of_past hpast)
        h.amountOut_eq htaken.amountOut_eq)
    refine ⟨hout, .inr ⟨htaken.price_eq, ?_⟩⟩
    -- both ways hold the same number of whole units
    have hnear := amount_down_le_exactAmount h.amountOut_eq
    have hfar : exactAmount paid.other current target liquidity < (step.amountOut + 1 : ℕ) := by
      rw [← not_le, ← le_amount_down_iff htaken.amountOut_eq, hout]
      exact Nat.not_succ_le_self _
    rw [← exactAmount_add hleads (.of_past hpast)] at hfar
    push_cast at hfar
    linarith
  | inputPart hsign' _ => exact absurd hsign (not_lt.mpr hsign')
  | outputPart _ h' =>
    obtain ⟨budget, hbudget, -, hprice⟩ := h.price_eq
    have hpos := hleads.pos hcurrent htarget (.of_past hpast)
    have hheld : (remaining.natAbs : ℚ) ≤ exactAmount paid.other current step.price liquidity := by
      rw [hsame]
      exact amount_down_le_exactAmount h.amountOut_eq
    obtain ⟨hleads', hstays⟩ := priceAfterOutput_between hpos hleads hheld h'.price_eq
    have hcovers : step'.amountIn ≤ budget :=
      le_trans (amount_up_le_amount_up hcurrent hpos hleads' hstays h'.amountIn_eq h.amountIn_eq)
        ((amount_up_le_iff h.amountIn_eq).mpr (exactAmount_priceAfterInput_le hprice))
    exact ⟨h'.amountOut_eq.trans hsame, .inl (add_feeOn_le hfee hbudget hcovers h'.fee_eq)⟩

end RangeStep

namespace SwapState

variable {pool : Pool} {first second : SwapRequest} {state state' next next' last last' : SwapState}
  {move move' : RangeMove}

theorem exists_sqrtPriceAt_nextTick (pool : Pool) (request : SwapRequest) (state : SwapState) :
    ∃ tick, sqrtPriceAt tick = .ok (tickSqrtPrice (nextTick pool request state)) :=
  ⟨nextTick pool request state, sqrtPriceAt_of_bounds (le_max_left _ _)
    (max_le (by decide) (min_le_left _ _))⟩

/-- What is left of an output, where an exact output swap stands abreast of another one. -/
theorem Abreast.remaining_eq (halike : first.Alike second)
    (habreast : Abreast first second state state') (houtput : ¬second.IsExactInput) :
    state'.remaining = second.amount - (state.brought first).get first.paid.other := by
  rw [← habreast.brought_eq, ← halike.paid_eq, brought_bought _ houtput, sub_sub_cancel]

/-- The last step of an exact input swap that uses its input up between two ticks, and the step of an
exact output swap that wants what this bought. -/
theorem Abreast.exactOutput_of_inputPart (halike : first.Alike second)
    (habreast : Abreast first second state state') (hunderway : Underway pool first state)
    (hlevel : NextLevel pool first state none) (hlevel' : NextLevel pool second state' none)
    (hmoved : RangeMoved pool first state none move next)
    (hmoved' : RangeMoved pool second state' none move' next')
    (hpart : RangeStep.InputPart first.paid state.sqrtPrice
      (targetPrice first (tickSqrtPrice (nextTick pool first state)) none) state.liquidity
      state.remaining.natAbs pool.fee move.step)
    (hsign : state'.remaining < 0) (hsame : state'.remaining.natAbs = move.step.amountOut) :
    (next'.brought second).get first.paid.other = (next.brought first).get first.paid.other ∧
      ((next'.brought second).get first.paid ≤ (next.brought first).get first.paid ∨
        Overshoots first.paid first.limit next.sqrtPrice next'.sqrtPrice next.liquidity) := by
  have htarget := targetPrice_pos hunderway hlevel.past
  obtain ⟨htoward, -, hbeforeTick⟩ := targetPrice_leads (leads_nextTick hunderway)
    hunderway.leads_limit hlevel.past
  have hpast := (hpart.between htarget htoward).2
  obtain ⟨hout, hpaid⟩ := hpart.exactOutput hunderway.stands.price_pos htarget htoward
    (hmoved.went hunderway hlevel.past).1 hsign hsame
    (habreast.went halike hunderway hlevel hlevel' hmoved')
  refine ⟨?_, hpaid.imp (fun hle ↦ ?_) fun ⟨hreached, hunit⟩ ↦ ?_⟩
  · rw [hmoved'.brought_eq, hmoved.brought_eq, habreast.brought_eq, hout, halike.paid_eq,
      TokenPair.get_paired_other, TokenPair.get_paired_other]
  · have hspent := hpart.spent_eq
    rw [hmoved'.brought_eq, hmoved.brought_eq, habreast.brought_eq, halike.paid_eq,
      TokenPair.get_paired_self, TokenPair.get_paired_self]
    omega
  · -- short of the next tick the liquidity is still that of the last step
    have hne : move.step.price ≠ tickSqrtPrice (nextTick pool first state) := by
      intro heq
      rw [heq] at hpast
      exact Token.not_past_iff.mpr hbeforeTick hpast
    have hliquidity := hmoved.arrival.liquidity_eq
    rw [if_neg fun hand ↦ hne hand.1, add_zero] at hliquidity
    have hliquidity : next.liquidity = state.liquidity := by exact_mod_cast hliquidity
    rw [hmoved.sqrtPrice_eq, hmoved'.sqrtPrice_eq, hreached, hliquidity]
    refine ⟨hpast, ?_, hunit⟩
    obtain hlimit | htick | ⟨level, hmem, -⟩ := targetPrice_cases first
      (tickSqrtPrice (nextTick pool first state)) none
    · exact .inl hlimit
    · rw [htick]
      exact .inr (exists_sqrtPriceAt_nextTick pool first state)
    · exact absurd hmem (Option.not_mem_none level)

/-- So an exact output swap that wants no more than what the input bought in the end ends there. -/
theorem Abreast.exactOutput_of_inputPart_last (halike : first.Alike second)
    (habreast : Abreast first second state state') (houtput : ¬second.IsExactInput)
    (hunderway : Underway pool first state)
    (hlevel : NextLevel pool first state none) (hlevel' : NextLevel pool second state' none)
    (hmoved : RangeMoved pool first state none move next)
    (hmoved' : RangeMoved pool second state' none move' next')
    (hpart : RangeStep.InputPart first.paid state.sqrtPrice
      (targetPrice first (tickSqrtPrice (nextTick pool first state)) none) state.liquidity
      state.remaining.natAbs pool.fee move.step)
    (hamount : second.amount = (next.brought first).get first.paid.other)
    (hdone : ¬state'.IsDone second) (h' : Travelled pool second next' last') :
    (last'.brought second).get first.paid.other = (next.brought first).get first.paid.other ∧
      ((last'.brought second).get first.paid ≤ (next.brought first).get first.paid ∨
        Overshoots first.paid first.limit next.sqrtPrice last'.sqrtPrice next.liquidity) := by
  have hremaining := habreast.remaining_eq halike houtput
  have hbought := hmoved.brought_eq first.paid.other
  rw [TokenPair.get_paired_other] at hbought
  have hleft : state'.remaining ≠ 0 := fun hnone ↦ hdone (.inl hnone)
  obtain ⟨hout, hpaid⟩ := habreast.exactOutput_of_inputPart halike hunderway hlevel hlevel'
    hmoved hmoved' hpart (by omega) (by omega)
  have hnone : next'.remaining = 0 := by
    have hheld := brought_bought next' houtput
    rw [halike.paid_eq, hout, ← hamount] at hheld
    omega
  rw [h'.eq_of_done (.inl hnone)]
  exact ⟨hout, hpaid⟩

/-- Where an exact output swap that wants what an exact input swap will have bought stands abreast of
it, it buys exactly that, and pays no more unless it overshoots. -/
theorem Abreast.exactOutput (halike : first.Alike second) (hinput : first.IsExactInput)
    (houtput : ¬second.IsExactInput) (hbook : pool.book.Sound)
    (hempty : (pool.book.side first.paid.other).levels = .empty)
    (h : Travelled pool first state last)
    (hamount : second.amount = (last.brought first).get first.paid.other)
    (h' : Travelled pool second state' last') (habreast : Abreast first second state state')
    (hunderway : Underway pool first state) (hwithin : WithinAmount first state) :
    (last'.brought second).get first.paid.other = (last.brought first).get first.paid.other ∧
      ((last'.brought second).get first.paid ≤ (last.brought first).get first.paid ∨
        Overshoots first.paid first.limit last.sqrtPrice last'.sqrtPrice last.liquidity) := by
  induction h generalizing state' with
  | @done state _ =>
    have hremaining := habreast.remaining_eq halike houtput
    rw [hamount, sub_self] at hremaining
    rw [h'.eq_of_done (.inl hremaining)]
    exact ⟨habreast.brought_eq _, .inl (habreast.brought_eq _).le⟩
  | last _ hadvanced hlast =>
    obtain ⟨move, -, -, rfl⟩ := hadvanced.moved_of_empty hempty
    exact absurd hlast id
  | @advanced state next last step hdone hadvanced hgoing hrest ih =>
    have hleft : state.remaining ≠ 0 := fun hnone ↦ hdone (.inl hnone)
    have hremaining := habreast.remaining_eq halike houtput
    have hahead := hrest.precedes (hadvanced.underway hunderway)
    by_cases hdone' : state'.IsDone second
    · have hnone : state'.remaining = 0 := by
        refine hdone'.resolve_right fun hlimit ↦ hdone (.inr ?_)
        rwa [habreast.sqrtPrice_eq, halike.limit_eq] at hlimit
      have hbefore := (hadvanced.precedes hunderway).trans hahead
      rw [h'.eq_of_done hdone', habreast.brought_eq, habreast.brought_eq]
      exact ⟨by omega, .inl hbefore.paid_le⟩
    · obtain ⟨step', next', hadvanced', hends⟩ := h'.exists_step hdone'
      obtain ⟨move, hlevel, hmoved, rfl⟩ := hadvanced.moved_of_empty hempty
      obtain ⟨move', hlevel', hmoved', rfl⟩ :=
        hadvanced'.moved_of_empty (by rw [halike.paid_eq]; exact hempty)
      obtain ⟨hlast', -⟩ | ⟨-, hrest'⟩ := hends
      · exact absurd hlast' id
      have hbought := hmoved.brought_eq first.paid.other
      rw [TokenPair.get_paired_other] at hbought
      have hboughtLe := hahead.bought_le
      have hwent' := habreast.went halike hunderway hlevel hlevel' hmoved'
      cases (hmoved.went hunderway hlevel.past).2 with
      | whole htaken _ _ =>
        -- what the whole step buys is part of what the exact output swap still wants
        have hstep := htaken.eq_of_covers (fun hsign ↦ ?_) (fun hsign ↦ ?_) hwent'
        · exact ih hamount hrest' (habreast.of_moved halike rfl hmoved hmoved' hstep)
            (hadvanced.underway hunderway)
            (hadvanced.withinAmount hbook hunderway hwithin hleft)
        · exact absurd (.inl (by omega)) hdone'
        · omega
      | inputPart hsign hpart =>
        have hnext := hmoved.remaining_eq_zero hwithin hleft (.inl ⟨hsign, hpart.spent_eq⟩)
        obtain rfl := hrest.eq_of_done (.inl hnext)
        exact habreast.exactOutput_of_inputPart_last halike houtput hunderway hlevel hlevel' hmoved
          hmoved' hpart hamount hdone' hrest'
      | outputPart hsign _ => exact absurd (hwithin.input hinput) (not_le.mpr hsign)

end SwapState

open SwapState

namespace Pool

variable {pool after after' : Pool} {paid : Token} {limit : ℕ} {amounts amounts' : TokenPair ℤ}

/-- An exact output swap of what an exact input swap bought buys exactly that. It takes no more than
the exact input swap took, unless it overshoots to a tick or to its limit. -/
theorem exactOutput_of_exactInput (hreachable : pool.Reachable)
    (hempty : (pool.book.side paid.other).levels = .empty) {input output : ℤ} (hinput : 0 < input)
    (houtput : 0 < output) (h : swap ⟨paid, input, limit⟩ pool = .ok amounts after)
    (hbought : amounts.get paid.other = -output)
    (h' : swap ⟨paid, -output, limit⟩ pool = .ok amounts' after') :
    amounts'.get paid.other = -output ∧ (amounts'.get paid ≤ amounts.get paid ∨
      Overshoots paid limit after.sqrtPrice after'.sqrtPrice after.liquidity) := by
  obtain ⟨hadmits, last, htravelled, hprice, hliquidity, rfl⟩ := travelled_of_swap h
  obtain ⟨-, last', htravelled', hprice', -, rfl⟩ := travelled_of_swap h'
  have hbookkept := hreachable.bookkept
  have hunderway := hadmits.underway hbookkept.inBounds (hbookkept.stands hadmits.isOpen) .start
  have halike : SwapRequest.Alike ⟨paid, input, limit⟩ ⟨paid, -output, limit⟩ := ⟨rfl, rfl⟩
  obtain ⟨hout, hpaid⟩ := Abreast.exactOutput halike hinput.le (not_le.mpr (neg_neg_of_pos houtput))
    hreachable.sound_book hempty htravelled hbought.symm htravelled' (abreast_start pool _ _)
    hunderway (withinAmount_start pool _)
  rw [hprice, hprice', hliquidity]
  exact ⟨hout.trans hbought, hpaid⟩

/-- A pool with so little liquidity that hardly three units of either token lie before the end of its
range. -/
def thinRange : Pool :=
  ((Ledger.start standard).enterAll [.setFirstPrice q96, .addLiquidity ⟨1, -60, 60⟩ 1000]).pool

theorem thinRange_reachable : thinRange.Reachable :=
  Ledger.reachable_enterAll _ (.created create_standard) _

/-- An input of four buys two units and ends before the end of the range. Asked for as an output, the
two units are all that the range gives out, so the swap goes to its end. -/
theorem exactOutput_of_exactInput_thinRange :
    ∃ after after', swap ⟨.one, 4, 2 * q96⟩ thinRange = .ok ⟨-2, 4⟩ after ∧
      swap ⟨.one, -2, 2 * q96⟩ thinRange = .ok ⟨-2, 5⟩ after' ∧
      Overshoots .one (2 * q96) after.sqrtPrice after'.sqrtPrice after.liquidity := by
  have hinput := swap_of_amounts (by decide +kernel : SwapPlan.amounts <$>
    thinRange.planSwap ⟨.one, 4, 2 * q96⟩ = .ok ⟨-2, 4⟩)
  have houtput := swap_of_amounts (by decide +kernel : SwapPlan.amounts <$>
    thinRange.planSwap ⟨.one, -2, 2 * q96⟩ = .ok ⟨-2, 5⟩)
  have hempty : (thinRange.book.side Token.one.other).levels = .empty := by decide +kernel
  obtain ⟨-, hpaid⟩ := exactOutput_of_exactInput thinRange_reachable hempty (by decide)
    (by decide : (0 : ℤ) < 2) hinput rfl houtput
  exact ⟨_, _, hinput, houtput, hpaid.resolve_left (by decide)⟩

/-- So an exact output swap can take more than the exact input swap that buys as much. -/
theorem exactOutput_dearer_than_exactInput :
    thinRange.Reachable ∧ (thinRange.book.side .zero).levels = .empty ∧
      ∃ after after', swap ⟨.one, 4, 2 * q96⟩ thinRange = .ok ⟨-2, 4⟩ after ∧
        swap ⟨.one, -2, 2 * q96⟩ thinRange = .ok ⟨-2, 5⟩ after' ∧ ¬(5 : ℤ) ≤ 4 :=
  ⟨thinRange_reachable, by decide +kernel, _, _, swap_of_amounts (by decide +kernel),
    swap_of_amounts (by decide +kernel), by decide⟩

end Pool

end RangeBook
