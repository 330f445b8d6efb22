import Mathlib
import RangeBook.Proofs.Pool.Abreast
import RangeBook.Proofs.Pool.Crossings
import RangeBook.Proofs.Pool.Poke

/-!
# The fees of a swap reach the positions in range

What a step of a swap charges beyond the protocol's share belongs to the positions in whose range
it starts. Two roundings lie in between. The growth per unit of liquidity is rounded down, which
leaves over at most one unit of the token for each step (`SwapStep.FeeShared`), and what a poke
credits for the growth is rounded down, which leaves over at most one for each position. Nothing
else gets lost and nothing is credited twice (`swap_fees_reach_positions`).

Growth times liquidity is summed up over steps and positions. Taken position by position this is
what the pokes credit, and taken step by step it is what the steps charge (`total_sum_growthIn`).
-/

set_option autoImplicit false
set_option relaxedAutoImplicit false

namespace RangeBook

attribute [local irreducible] tickSqrtPrice tickAt

/-! ### The fees of steps -/

/-- What a step charges for the positions: its fee less the share of the protocol. -/
def SwapStep.providerFee : SwapStep → ℕ
  | .moved move => move.step.fee - move.protocolShare
  | .usedUp _ _ => 0
  | .filledInPart _ _ _ => 0

/-- The liquidity that shares the fee of a step: that of the positions in whose range it starts. -/
def SwapStep.sharedBy (positions : PositionTable) : SwapStep → ℕ
  | .moved move => positions.activeAt move.startTick
  | .usedUp _ _ => 0
  | .filledInPart _ _ _ => 0

/-- What the steps of a swap charge for the positions. -/
def SwapPlan.providerFees (plan : SwapPlan) : ℕ :=
  (plan.steps.map SwapStep.providerFee).sum

/-- Whether the liquidity that shares the fee of a move earns it, less at most one unit. -/
structure SwapStep.FeeShared (positions : PositionTable) (step : SwapStep) : Prop where
  is_move : ∃ move, step = .moved move
  growth_le : step.growthAdded.toNat ≤ step.providerFee * twoPow 128
  shared_le : step.growthAdded.toNat * step.sharedBy positions ≤ step.providerFee * twoPow 128
  le_shared : step.providerFee * twoPow 128 ≤
    step.growthAdded.toNat * step.sharedBy positions + twoPow 128

variable {steps : List SwapStep}

/-! ### Growth times liquidity -/

/-- What steps add to the growth inside a range, as a number. -/
def growthSum (steps : List SwapStep) (key : PositionKey) : ℕ :=
  (steps.map fun step ↦ (step.growthIn key.lower key.upper).toNat).sum

/-- What steps add to the growth, each times the liquidity that shares its fee. -/
def sharedSum (positions : PositionTable) (steps : List SwapStep) : ℕ :=
  (steps.map fun step ↦ step.growthAdded.toNat * step.sharedBy positions).sum

theorem total_growthIn (positions : PositionTable) (step : SwapStep) :
    (positions.total fun key position ↦
        (step.growthIn key.lower key.upper).toNat * position.liquidity) =
      step.growthAdded.toNat * step.sharedBy positions := by
  cases step with
  | moved move =>
    change _ = move.growthAdded.toNat * positions.activeAt move.startTick
    rw [PositionTable.activeAt, ← OrderedMap.total_mul_left]
    refine OrderedMap.total_congr fun key position _ ↦ ?_
    rw [SwapStep.growthIn]
    split_ifs
    · rfl
    · exact (Nat.zero_mul _).trans (Nat.mul_zero _).symm
  | usedUp tick fill => exact OrderedMap.total_of_zero fun _ _ _ ↦ Nat.zero_mul _
  | filledInPart tick fill left => exact OrderedMap.total_of_zero fun _ _ _ ↦ Nat.zero_mul _

/-- Position by position and step by step, growth times liquidity adds up to the same. -/
theorem total_sum_growthIn (positions : PositionTable) (steps : List SwapStep) :
    (positions.total fun key position ↦ growthSum steps key * position.liquidity) =
      sharedSum positions steps := by
  induction steps with
  | nil => exact OrderedMap.total_of_zero fun _ _ _ ↦ Nat.zero_mul _
  | cons step steps ih =>
    rw [sharedSum, List.map_cons, List.sum_cons, ← total_growthIn, ← sharedSum, ← ih,
      ← OrderedMap.total_add]
    refine OrderedMap.total_congr fun key position _ ↦ ?_
    rw [growthSum, List.map_cons, List.sum_cons, Nat.add_mul, growthSum]

theorem sharedSum_le {positions : PositionTable} (h : ∀ step ∈ steps, step.FeeShared positions) :
    sharedSum positions steps ≤ (steps.map SwapStep.providerFee).sum * twoPow 128 := by
  rw [sharedSum, ← List.sum_map_mul_right]
  exact List.sum_le_sum fun step hmem ↦ (h step hmem).shared_le

theorem le_sharedSum {positions : PositionTable} (h : ∀ step ∈ steps, step.FeeShared positions) :
    (steps.map SwapStep.providerFee).sum * twoPow 128 ≤
      sharedSum positions steps + steps.length * twoPow 128 := by
  have hlength : steps.length * twoPow 128 = (steps.map fun _ ↦ twoPow 128).sum := by
    rw [List.map_const', List.sum_replicate, smul_eq_mul]
  rw [sharedSum, hlength, ← List.sum_map_mul_right, ← List.sum_map_add]
  exact List.sum_le_sum fun step hmem ↦ (h step hmem).le_shared

theorem growthSum_le {positions : PositionTable} (h : ∀ step ∈ steps, step.FeeShared positions)
    (key : PositionKey) :
    growthSum steps key ≤ (steps.map SwapStep.providerFee).sum * twoPow 128 := by
  rw [growthSum, ← List.sum_map_mul_right]
  refine List.sum_le_sum fun step hmem ↦ ?_
  obtain ⟨move, rfl⟩ := (h step hmem).is_move
  refine le_trans ?_ (h _ hmem).growth_le
  rw [SwapStep.growthIn]
  split_ifs
  · exact le_rfl
  · exact Nat.zero_le _

/-- Growth that adds up without overflow. -/
theorem toNat_sum_growth {added : List Growth} (hfits : (added.map BitVec.toNat).sum < twoPow 256) :
    added.sum.toNat = (added.map BitVec.toNat).sum := by
  induction added with
  | nil => rfl
  | cons first added ih =>
    rw [List.map_cons, List.sum_cons] at hfits ⊢
    rw [List.sum_cons, BitVec.toNat_add, ih (lt_of_le_of_lt (Nat.le_add_left _ _) hfits)]
    exact Nat.mod_eq_of_lt hfits

namespace Pool

open SwapState

variable {pool after later : Pool} {request : SwapRequest} {plan : SwapPlan}
  {state next : SwapState} {nextLevel? : Option ℕ} {move : RangeMove} {key : PositionKey}
  {keys : List PositionKey}

/-! ### Steps of a swap -/

/-- What a move adds to the growth is what is left of its fee, for each unit of the liquidity around
the price. -/
theorem growthAdded_of_moved (h : pool.Bookkept) (hadmits : pool.Admits request)
    (hbefore : Course pool request steps state)
    (hmoved : RangeMoved pool request state nextLevel? move next) :
    move.growthAdded.toNat = (move.step.fee - move.protocolShare) * twoPow 128 /
      pool.positions.activeAt move.startTick := by
  rw [hmoved.startTick_eq, ← activeAt_of_course h hadmits hbefore]
  exact toNat_growthOf hmoved.growthAdded_eq

/-- Without liquidity around the price there is no fee. -/
theorem fee_eq_zero_of_moved (h : pool.Bookkept) (hadmits : pool.Admits request)
    (hbefore : Course pool request steps state) (hlevel : NextLevel pool request state nextLevel?)
    (hmoved : RangeMoved pool request state nextLevel? move next)
    (hzero : pool.positions.activeAt move.startTick = 0) : move.step.fee = 0 := by
  have hunderway := hadmits.underway h.inBounds (h.stands hadmits.isOpen) hbefore
  obtain ⟨hfee, hwent⟩ := hmoved.went hunderway hlevel.past
  rw [activeAt_of_course h hadmits hbefore, ← hmoved.startTick_eq, hzero] at hwent
  exact hwent.fee_eq_zero hfee

/-- The liquidity around the price shares the fee of a move. Without liquidity there is no fee. -/
theorem feeShared_of_moved (h : pool.Bookkept) (hcaps : pool.WithinCaps)
    (hadmits : pool.Admits request) (hbefore : Course pool request steps state)
    (hlevel : NextLevel pool request state nextLevel?)
    (hmoved : RangeMoved pool request state nextLevel? move next) :
    (SwapStep.moved move).FeeShared pool.positions := by
  have hadded := growthAdded_of_moved h hadmits hbefore hmoved
  refine ⟨⟨move, rfl⟩, ?_, ?_, ?_⟩
  · exact hadded.le.trans (Nat.div_le_self _ _)
  · change move.growthAdded.toNat * pool.positions.activeAt move.startTick ≤ _
    rw [hadded]
    exact Nat.div_mul_le_self _ _
  · change _ ≤ move.growthAdded.toNat * pool.positions.activeAt move.startTick + _
    rw [hadded]
    rcases Nat.eq_zero_or_pos (pool.positions.activeAt move.startTick) with hzero | hpos
    · have hnothing : (SwapStep.moved move).providerFee = 0 := by
        rw [SwapStep.providerFee, fee_eq_zero_of_moved h hadmits hbefore hlevel hmoved hzero,
          Nat.zero_sub]
      rw [hnothing, Nat.zero_mul]
      exact Nat.zero_le _
    · have hfits := (h.activeAt_lt hcaps move.startTick).le
      exact (Nat.lt_div_mul_add hpos).le.trans (Nat.add_le_add_left hfits _)

/-- Where there are no orders to fill, the fee of each step of a swap is shared. -/
theorem feeShared_of_course (h : pool.Bookkept) (hcaps : pool.WithinCaps)
    (hadmits : pool.Admits request) (hempty : (pool.book.side request.paid.other).levels = .empty)
    (hcourse : Course pool request steps state) :
    ∀ step ∈ steps, step.FeeShared pool.positions := by
  induction hcourse with
  | start => exact fun _ hmem ↦ absurd hmem List.not_mem_nil
  | advanced hbefore _ _ hadvanced ih =>
    intro step hmem
    rcases List.mem_append.mp hmem with hmem | hmem
    · exact ih step hmem
    · obtain ⟨move, hlevel, hmoved, rfl⟩ := hadvanced.moved_of_empty hempty
      rw [List.mem_singleton.mp hmem]
      exact feeShared_of_moved h hcaps hadmits hbefore hlevel hmoved

/-! ### What positions earn -/

/-- What the positions that hold liquidity earn by the steps is what these charge, up to one unit
for each step and for each position. -/
theorem sum_earned_bounds (h : ∀ step ∈ steps, step.FeeShared pool.positions)
    (hnodup : keys.Nodup) (hkeys : ∀ key, key ∈ keys ↔ (pool.position key).liquidity ≠ 0) :
    let earned := (keys.map fun key ↦
      growthSum steps key * (pool.position key).liquidity / twoPow 128).sum
    (steps.map SwapStep.providerFee).sum ≤ earned + keys.length + steps.length ∧
      earned ≤ (steps.map SwapStep.providerFee).sum := by
  intro earned
  let whole := keys.map fun key ↦ growthSum steps key * (pool.position key).liquidity
  have hearned : earned = (whole.map (· / twoPow 128)).sum := by
    rw [List.map_map]
    rfl
  have hlength : whole.length = keys.length := List.length_map _
  have hwhole : whole.sum = sharedSum pool.positions steps := by
    have hperm : keys.Perm pool.positions.held :=
      (List.perm_ext_iff_of_nodup hnodup pool.positions.nodup_held).mpr
        fun key ↦ (hkeys key).trans PositionTable.mem_held_iff.symm
    rw [← total_sum_growthIn, PositionTable.total_eq_sum_held _ fun key position hzero ↦ by
      rw [hzero, Nat.mul_zero]]
    exact (hperm.map _).sum_eq
  have hlow := sum_div_mul_le whole (twoPow 128)
  have hhigh := sum_le_sum_div_mul whole (twoPow_pos 128)
  rw [← hearned, hwhole] at hlow
  rw [← hearned, hwhole, hlength] at hhigh
  constructor
  · refine Nat.le_of_mul_le_mul_right ?_ (twoPow_pos 128)
    calc (steps.map SwapStep.providerFee).sum * twoPow 128
        ≤ sharedSum pool.positions steps + steps.length * twoPow 128 := le_sharedSum h
      _ ≤ (earned + keys.length) * twoPow 128 + steps.length * twoPow 128 :=
          Nat.add_le_add_right hhigh _
      _ = (earned + keys.length + steps.length) * twoPow 128 := (Nat.add_mul _ _ _).symm
  · exact Nat.le_of_mul_le_mul_right (hlow.trans (sharedSum_le h)) (twoPow_pos 128)

/-! ### What is pending after a swap -/

/-- In a pool that is up to date, what a swap leaves pending for a position is what its steps added
to the growth inside the range, in the token paid. -/
theorem pendingFees_midSwap (h : pool.Bookkept) (hpoked : pool.UpToDate)
    (hplanned : pool.Planned request plan)
    (hfits : growthSum plan.steps key < twoPow 256) (hheld : (pool.position key).liquidity ≠ 0) :
    (pool.midSwap request plan.steps plan.last).pendingFees key request.paid =
        growthSum plan.steps key * (pool.position key).liquidity / twoPow 128 ∧
      (pool.midSwap request plan.steps plan.last).pendingFees key request.paid.other = 0 := by
  have hget := PositionTable.get?_of_liquidity_ne_zero hheld
  have hinside := growthInside_of_course h hplanned hplanned.course
    (h.ranges key (by rw [hget]; rfl)).lower_lt_upper
    (h.isSome_of_isEnd hget hheld (.inl rfl)) (h.isSome_of_isEnd hget hheld (.inr rfl))
  have hlast := hpoked key hheld
  have hposition := pool.position_midSwap request plan.steps plan.last key
  constructor
  · have hsum : (plan.steps.map (SwapStep.growthIn key.lower key.upper)).sum.toNat =
        growthSum plan.steps key := by
      have hmap : growthSum plan.steps key =
          ((plan.steps.map (SwapStep.growthIn key.lower key.upper)).map BitVec.toNat).sum := by
        rw [List.map_map]
        rfl
      rw [hmap] at hfits ⊢
      exact toNat_sum_growth hfits
    rw [pendingFees, Position.earned, hposition, hinside, if_pos rfl, hlast, add_sub_cancel_left,
      hsum]
  · have hother : request.paid.other ≠ request.paid := by cases request.paid <;> decide
    refine Position.earned_of_growthInside_eq ?_
    rw [hposition, hinside, if_neg hother, add_zero, hlast]

/-! ### What pokes credit -/

/-- What is owed of a token to the owners of positions beyond what was owed before. -/
def raised (before after : Pool) (token : Token) (keys : List PositionKey) : ℤ :=
  (keys.map fun key ↦ ((after.position key).owed.get token : ℤ) -
    (before.position key).owed.get token).sum

/-- Pokes credit all that is pending, where there is room for it. -/
theorem Poked.raised_eq (h : pool.Poked keys later) {token : Token}
    (hroom : ∀ key ∈ keys,
      (pool.position key).owed.get token + pool.pendingFees key token < twoPow 128) :
    pool.raised later token keys =
      ((keys.map fun key ↦ pool.pendingFees key token).sum : ℕ) := by
  rw [raised, Nat.cast_list_sum, List.map_map]
  refine congrArg List.sum (List.map_congr_left fun key hmem ↦ ?_)
  have hsum := hroom key hmem
  have hpending : pool.pendingFees key token < twoPow 128 :=
    lt_of_le_of_lt (Nat.le_add_left _ _) hsum
  rw [h.get_owed hmem, wrap128_of_lt hpending, wrap128_of_lt hsum, Nat.cast_add,
    add_sub_cancel_left, Function.comp_apply]

/-- Pokes leave what is owed in a token alone if nothing is pending in it. -/
theorem Poked.owed_eq (h : pool.Poked keys later) (hfits : pool.positions.OwedFits) {token : Token}
    (hpending : ∀ key ∈ keys, pool.pendingFees key token = 0) (key : PositionKey) :
    (later.position key).owed.get token = (pool.position key).owed.get token := by
  by_cases hmem : key ∈ keys
  · rw [h.get_owed hmem, hpending key hmem]
    exact wrap128_of_lt (hfits key token)
  · rw [h.kept key hmem]

/-- What pokes after a swap credit for its fees. -/
structure FeesReach (after : Pool) (plan : SwapPlan) (paid : Token) (keys : List PositionKey)
    (later : Pool) : Prop where
  /-- The swap is made of moves along ranges only. -/
  moves : ∀ step ∈ plan.steps, ∃ move, step = .moved move
  /-- At most one unit is left over for each step and for each position. -/
  le_raised : (plan.providerFees : ℤ) - plan.steps.length - keys.length ≤
    after.raised later paid keys
  raised_le : after.raised later paid keys ≤ plan.providerFees
  /-- Nothing is credited in the token bought. -/
  other_eq : ∀ key, (later.position key).owed.get paid.other =
    (after.position key).owed.get paid.other

/-- After a swap that fills no orders, in a pool that was up to date, pokes of all positions that
hold liquidity credit what the swap charged for them, up to one unit for each step and position. -/
theorem swap_fees_reach_positions (h : pool.Reachable)
    (hempty : (pool.book.side request.paid.other).levels = .empty) (hpoked : pool.UpToDate)
    {brought : TokenPair ℤ} (hswap : swap request pool = .ok brought after)
    (hplan : pool.planSwap request = .ok plan) (hnodup : keys.Nodup)
    (hkeys : ∀ key, key ∈ keys ↔ (pool.position key).liquidity ≠ 0)
    (hfees : plan.providerFees < twoPow 128)
    (hroom : ∀ key ∈ keys, (after.position key).owed.get request.paid +
      after.pendingFees key request.paid < twoPow 128) :
    let pokes := keys.map Call.poke
    (Ledger.start after).finishing pokes = pokes ∧
      after.FeesReach plan request.paid keys ((Ledger.start after).enterAll pokes).pool := by
  intro pokes
  have hbooks := h.bookkept
  have hplanned := planned_of_planSwap hplan
  have hafter : after = pool.midSwap request plan.steps plan.last := by
    obtain ⟨plan', hplan', -, rfl⟩ := swap_eq_ok hswap
    obtain rfl := Except.ok.inj (hplan.symm.trans hplan')
    exact applySwap_eq hplanned
  have hrun : (Call.swap request).run pool = .ok brought after := hswap
  have hreachable := h.of_run hrun
  have hshared := feeShared_of_course hbooks h.withinCaps hplanned.admits hempty hplanned.course
  have hpending : ∀ key ∈ keys, after.pendingFees key request.paid =
      growthSum plan.steps key * (pool.position key).liquidity / twoPow 128 ∧
        after.pendingFees key request.paid.other = 0 := by
    intro key hmem
    have hfits : growthSum plan.steps key < twoPow 256 :=
      lt_of_le_of_lt (growthSum_le hshared key)
        (Nat.mul_lt_mul_of_pos_right hfees (twoPow_pos 128))
    rw [hafter]
    exact pendingFees_midSwap hbooks hpoked hplanned hfits ((hkeys key).mp hmem)
  have hheld : ∀ key ∈ keys, (after.position key).liquidity ≠ 0 := by
    intro key hmem
    rw [hafter, position_midSwap]
    exact (hkeys key).mp hmem
  obtain ⟨hfinishing, hlater⟩ := poked_enterAll (.start after) hreachable hnodup hheld
  change after.Poked keys ((Ledger.start after).enterAll pokes).pool at hlater
  have hraised : after.raised ((Ledger.start after).enterAll pokes).pool request.paid keys =
      ((keys.map fun key ↦
        growthSum plan.steps key * (pool.position key).liquidity / twoPow 128).sum : ℕ) := by
    rw [hlater.raised_eq hroom]
    exact congrArg _ (congrArg List.sum
      (List.map_congr_left fun key hmem ↦ (hpending key hmem).1))
  obtain ⟨hlow, hhigh⟩ := sum_earned_bounds hshared hnodup hkeys
  refine ⟨hfinishing, fun step hmem ↦ (hshared step hmem).is_move, ?_, ?_,
    hlater.owed_eq hreachable.owedFits fun key hmem ↦ (hpending key hmem).2⟩
  · rw [hraised, SwapPlan.providerFees]
    omega
  · rw [hraised]
    exact_mod_cast hhigh

/-- A run of `Pool.twoRanges` in which a part of the fees is set aside and a swap is made. -/
def afterSwap : Ledger :=
  (Ledger.start twoRanges).enterAll [.setProtocolPart ⟨4, 4⟩, .swap .pastFirstRange]

/-- The pool of this run once each of its positions is poked. -/
def justPoked : Pool :=
  (afterSwap.enterAll (afterSwap.pool.positions.held.map Call.poke)).pool

theorem afterSwap_reachable : afterSwap.pool.Reachable :=
  Ledger.reachable_enterAll (.start twoRanges) twoRanges_reachable _

theorem justPoked_reachable : justPoked.Reachable :=
  Ledger.reachable_enterAll afterSwap afterSwap_reachable _

theorem justPoked_upToDate : justPoked.UpToDate :=
  (poked_enterAll afterSwap afterSwap_reachable (PositionTable.nodup_held _)
    fun _ ↦ PositionTable.mem_held_iff.mp).2.upToDate fun _ ↦ PositionTable.mem_held_iff.mpr

/-- On the way back through both ranges the swap charges 22 units for the positions in three steps,
and all but one of them are credited. -/
theorem swap_fees_reach_positions_justPoked :
    let request : SwapRequest := ⟨.zero, 9000, 79000000000000000000000000000⟩
    let after := (Call.swap request).leaves justPoked
    let keys := justPoked.positions.held
    let pokes := keys.map Call.poke
    let later := ((Ledger.start after).enterAll pokes).pool
    (∃ plan, justPoked.planSwap request = .ok plan ∧
      (Ledger.start after).finishing pokes = pokes ∧ after.FeesReach plan .zero keys later) ∧
    (fun plan ↦ (plan.providerFees, plan.steps.length)) <$> justPoked.planSwap request =
      .ok (22, 3) ∧
    keys.length = 2 ∧ after.raised later .zero keys = 21 := by
  intro request after keys pokes later
  refine ⟨?_, by decide +kernel, by decide +kernel, by decide +kernel⟩
  have hfinishes : (Call.swap request).finishes justPoked = true := by decide +kernel
  obtain ⟨brought, hrun⟩ := Call.run_of_finishes hfinishes
  obtain ⟨plan, hplan, -, -⟩ := swap_eq_ok hrun
  have hfees : SwapPlan.providerFees <$> justPoked.planSwap request = .ok 22 := by decide +kernel
  rw [hplan] at hfees
  have hroom : ∀ key ∈ keys, (after.position key).owed.get .zero + after.pendingFees key .zero <
      twoPow 128 := by decide +kernel
  refine ⟨plan, hplan, swap_fees_reach_positions justPoked_reachable (by decide +kernel)
    justPoked_upToDate hrun hplan (PositionTable.nodup_held _)
    (fun key ↦ PositionTable.mem_held_iff) ?_ hroom⟩
  rw [Except.ok.inj hfees]
  decide

end Pool

end RangeBook
