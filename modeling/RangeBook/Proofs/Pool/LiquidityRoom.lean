import Mathlib
import RangeBook.Proofs.Pool.Bookkeeping

/-!
# Room for the liquidity of a pool

The liquidity that may rest at one tick is capped by an equal share of the 128-bit range for each
usable tick. Every position counts at both of its ends, and there are no more boundary ticks than
usable ones, so the caps bound twice the liquidity of all positions together
(`Bookkept.total_liquidity_le`). The liquidity around any tick then fits (`Bookkept.activeAt_lt`),
and so does what enters or leaves at a boundary tick (`Bookkept.netAt_bounds`), whatever way a swap
comes past it.
-/

set_option autoImplicit false
set_option relaxedAutoImplicit false

namespace RangeBook

attribute [local irreducible] tickSqrtPrice tickAt

/-! ### The cap of a tick -/

/-- There are as many usable ticks above zero as below it. -/
theorem tickSteps_eq {spacing : ℕ} (hpos : 0 < spacing) :
    tickSteps spacing = (2 * (maxTick.toNat / spacing) : ℕ) := by
  have hspacing : (spacing : ℤ) ≠ 0 := by exact_mod_cast hpos.ne'
  have habove : maxTick.tdiv spacing = (maxTick.toNat / spacing : ℕ) :=
    (Int.ofNat_tdiv maxTick.toNat spacing).symm
  have hbelow : minTick.tdiv spacing = -(maxTick.toNat / spacing : ℕ) := by
    rw [← habove, ← Int.neg_tdiv]
    rfl
  have hwidth : alignTick maxTick spacing - alignTick minTick spacing =
      (2 * (maxTick.toNat / spacing) : ℕ) * (spacing : ℤ) := by
    rw [alignTick, alignTick, habove, hbelow, Nat.cast_mul, Nat.cast_ofNat]
    ring
  rw [tickSteps, hwidth, Int.mul_tdiv_cancel _ hspacing]

/-- All usable ticks together may hold no more than 128 bits, and each of them less than a hundredth
of that. -/
theorem cap_spec {spacing cap : ℕ} (hpos : 0 < spacing) (hlt : spacing < maxTickSpacing)
    (h : maxLiquidityPerTick spacing = .ok cap) :
    (2 * (maxTick.toNat / spacing) + 1) * cap < twoPow 128 ∧ cap < twoPow 127 := by
  have hspacing : (spacing : ℤ) ≠ 0 := by exact_mod_cast hpos.ne'
  rw [maxLiquidityPerTick, if_neg hspacing, tickSteps_eq hpos] at h
  have hsteps : 2 * (maxTick.toNat / spacing) < twoPow 128 := by
    calc 2 * (maxTick.toNat / spacing) ≤ 2 * maxTick.toNat :=
          Nat.mul_le_mul_left 2 (Nat.div_le_self _ _)
      _ < twoPow 128 := by decide
  have hmany : 1 ≤ maxTick.toNat / spacing :=
    (Nat.one_le_div_iff hpos).mpr (le_trans hlt.le (by decide))
  rw [← Int.natCast_mod, Nat.mod_eq_of_lt hsteps, Int.toNat_natCast] at h
  rw [← Except.ok.inj h]
  have hshare := Nat.mul_div_le (twoPow 128 - 1) (2 * (maxTick.toNat / spacing) + 1)
  generalize (twoPow 128 - 1) / (2 * (maxTick.toNat / spacing) + 1) = share at hshare
  have hwidth : twoPow 128 = 2 * twoPow 127 := twoPow_succ 127
  have hwidthPos : 0 < twoPow 127 := twoPow_pos 127
  have hthree : 3 * share ≤ (2 * (maxTick.toNat / spacing) + 1) * share :=
    Nat.mul_le_mul_right share (by omega)
  constructor <;> omega

namespace Pool

variable {pool after : Pool} {tick : ℤ}

/-! ### What every pool keeps to -/

/-- Whether a pool keeps to the bounds that its operations check: its settings are those of an
allowed tier, no tick holds more than the cap, and the fees of the protocol have 128 bits. -/
structure WithinCaps (pool : Pool) : Prop where
  fee_lt : pool.fee < feeDenominator
  spacing_pos : 0 < pool.tickSpacing
  spacing_lt : pool.tickSpacing < maxTickSpacing
  cap_eq : maxLiquidityPerTick pool.tickSpacing = .ok pool.liquidityCap
  gross_le : ∀ tick boundary, pool.ticks.get? tick = some boundary →
    boundary.gross ≤ pool.liquidityCap
  protocolFees_lt : ∀ token, pool.protocolFees.get token < twoPow 128

theorem WithinCaps.of_create {fee tickSpacing : ℕ} (h : create fee tickSpacing = .ok pool) :
    pool.WithinCaps := by
  obtain ⟨hfee, ⟨hpos, hlt⟩, cap, hcap, rfl⟩ := created_of_create h
  refine ⟨hfee, hpos, hlt, hcap, fun tick boundary hget ↦ ?_, fun token ↦ ?_⟩
  · exact absurd hget (by simp)
  · cases token <;> exact twoPow_pos 128

/-- A change of liquidity checks the cap at both ends of its range. -/
theorem RangeAdjusted.gross_le {key : PositionKey} {delta : ℤ} {staged : TickTable}
    {position : Position} {amounts : TokenPair ℤ}
    (hadjusted : pool.RangeAdjusted key delta staged position amounts after)
    (h : pool.WithinCaps) {boundary : BoundaryTick} (hget : after.ticks.get? tick = some boundary) :
    boundary.gross ≤ pool.liquidityCap := by
  rw [hadjusted.ticks_eq] at hget
  split at hget
  · exact absurd hget (by simp)
  by_cases hdelta : delta = 0
  · rw [hadjusted.boundaries.unchanged hdelta] at hget
    exact h.gross_le tick boundary hget
  by_cases hend : key.IsEnd tick
  · obtain ⟨rangeEnd, rfl⟩ := PositionKey.isEnd_iff.mp hend
    obtain ⟨written, hwritten, hboundary⟩ := hadjusted.boundaries.adjusted hdelta rangeEnd
    obtain rfl : written = boundary := Option.some.inj (hwritten.symm.trans hget)
    exact hboundary.gross_le
  · rw [hadjusted.boundaries.off_ends tick hend] at hget
    exact h.gross_le tick boundary hget

theorem WithinCaps.gross_le_of_finished (h : pool.WithinCaps) {call : Call}
    {brought : TokenPair ℤ} (hfinished : Finished pool call brought after)
    {boundary : BoundaryTick} (hget : after.ticks.get? tick = some boundary) :
    boundary.gross ≤ pool.liquidityCap := by
  cases hfinished with
  | liquidityAdded _ hadjusted => exact hadjusted.gross_le h hget
  | liquidityRemoved _ hadjusted => exact hadjusted.gross_le h hget
  | @swapped request plan hplan =>
    have hplanned := planned_of_planSwap hplan
    rw [applySwap_eq hplanned] at hget
    have hkept := liquidityAt_midSwap pool request plan.steps plan.last tick
    rw [liquidityAt, hget, Option.map_some, liquidityAt, eq_comm, Option.map_eq_some_iff] at hkept
    obtain ⟨earlier, hearlier, hparts⟩ := hkept
    rw [← (Prod.mk.inj hparts).1]
    exact h.gross_le tick earlier hearlier
  | _ => exact h.gross_le tick boundary hget

theorem WithinCaps.protocolFees_lt_of_finished (h : pool.WithinCaps) {call : Call}
    {brought : TokenPair ℤ} (hfinished : Finished pool call brought after) (token : Token) :
    after.protocolFees.get token < twoPow 128 := by
  have hbefore := h.protocolFees_lt token
  cases hfinished with
  | liquidityAdded _ hadjusted =>
    rw [hadjusted.pool_eq]
    exact hbefore
  | @liquidityRemoved _ _ _ _ _ between _ hadjusted =>
    change between.protocolFees.get token < _
    rw [hadjusted.pool_eq]
    exact hbefore
  | @swapped request plan hplan =>
    change (pool.protocolFees.set request.paid plan.protocolFees).get token < _
    by_cases hpaid : token = request.paid
    · rw [hpaid, TokenPair.get_set_self]
      exact (planned_of_planSwap hplan).protocolFees_lt
    · rw [Token.eq_other_of_ne hpaid, TokenPair.get_set_other, ← Token.eq_other_of_ne hpaid]
      exact hbefore
  | protocolFeesCollected =>
    rw [TokenPair.get_zipWith]
    exact lt_of_le_of_lt (Nat.sub_le _ _) hbefore
  | _ => exact hbefore

theorem Reachable.withinCaps (hreachable : pool.Reachable) : pool.WithinCaps := by
  refine hreachable.of_kept .of_create fun _ h hfinished ↦ ?_
  obtain ⟨hfee, hspacing, hcap⟩ := settings_of_finished hfinished
  refine ⟨?_, ?_, ?_, ?_, fun tick boundary hget ↦ ?_, h.protocolFees_lt_of_finished hfinished⟩
  · rw [hfee]
    exact h.fee_lt
  · rw [hspacing]
    exact h.spacing_pos
  · rw [hspacing]
    exact h.spacing_lt
  · rw [hspacing, hcap]
    exact h.cap_eq
  · rw [hcap]
    exact h.gross_le_of_finished hfinished hget

/-! ### The liquidity of all positions -/

/-- There are no more boundary ticks than usable ones. -/
theorem Bookkept.ticks_size_le (h : pool.Bookkept) (hcaps : pool.WithinCaps) :
    pool.ticks.size ≤ 2 * (maxTick.toNat / pool.tickSpacing) + 1 := by
  set steps := maxTick.toNat / pool.tickSpacing with hsteps
  have hspacing : (0 : ℤ) < pool.tickSpacing := by exact_mod_cast hcaps.spacing_pos
  have hkeys : ∀ key, (pool.ticks.get? key).isSome →
      key ∈ (Finset.Icc (-(steps : ℤ)) steps).image (· * (pool.tickSpacing : ℤ)) := by
    intro key hstored
    obtain ⟨⟨place, rfl⟩, hmin, hmax⟩ := h.of_isSome hstored
    refine Finset.mem_image.mpr ⟨place, Finset.mem_Icc.mpr ?_, mul_comm _ _⟩
    have hstepsEq : (steps : ℤ) = maxTick / pool.tickSpacing := by
      rw [hsteps, Int.natCast_div]
      rfl
    have hupper : place ≤ steps := by
      rw [hstepsEq, Int.le_ediv_iff_mul_le hspacing, mul_comm]
      exact hmax
    have hlower : -place ≤ steps := by
      rw [hstepsEq, Int.le_ediv_iff_mul_le hspacing, neg_mul, mul_comm]
      exact neg_le_neg hmin
    omega
  calc pool.ticks.size
      ≤ ((Finset.Icc (-(steps : ℤ)) steps).image (· * (pool.tickSpacing : ℤ))).card :=
        OrderedMap.size_le_card hkeys
    _ ≤ (Finset.Icc (-(steps : ℤ)) steps).card := Finset.card_image_le
    _ = 2 * steps + 1 := by
        rw [Int.card_Icc]
        omega

theorem Bookkept.grossAt_le (h : pool.Bookkept) (hcaps : pool.WithinCaps) (tick : ℤ) :
    pool.positions.grossAt tick ≤ pool.liquidityCap := by
  rw [← (h.find_eq tick).1, TickTable.find]
  cases hget : pool.ticks.get? tick with
  | none => exact Nat.zero_le _
  | some boundary => exact hcaps.gross_le tick boundary hget

/-- Each position counts at both of its ends. -/
theorem Bookkept.total_grossAt (h : pool.Bookkept) :
    (pool.ticks.total fun tick _ ↦ pool.positions.grossAt tick) =
      2 * pool.positions.total fun _ position ↦ position.liquidity := by
  have hends : ∀ key position, pool.positions.get? key = some position →
      (pool.ticks.total fun tick _ ↦ if key.IsEnd tick then position.liquidity else 0) =
        2 * position.liquidity := by
    intro key position hget
    have hne := (h.ranges key (by rw [hget]; rfl)).lower_lt_upper.ne
    have hsplit : ∀ tick, (if key.IsEnd tick then position.liquidity else 0) =
        (if tick = key.lower then position.liquidity else 0) +
          if tick = key.upper then position.liquidity else 0 := by
      intro tick
      by_cases hlower : tick = key.lower
      · have hupper : tick ≠ key.upper := hlower ▸ hne
        rw [if_pos (.inl hlower), if_pos hlower, if_neg hupper, add_zero]
      · simp [PositionKey.IsEnd, hlower]
    by_cases hzero : position.liquidity = 0
    · simp [hzero, OrderedMap.total_zero]
    simp only [hsplit]
    rw [OrderedMap.total_add, OrderedMap.total_single, OrderedMap.total_single,
      if_pos (h.isSome_of_isEnd hget hzero (.inl rfl)),
      if_pos (h.isSome_of_isEnd hget hzero (.inr rfl)), two_mul]
  unfold PositionTable.grossAt
  rw [OrderedMap.total_comm, ← OrderedMap.total_mul_left]
  exact OrderedMap.total_congr hends

/-- The caps of the ticks bound twice the liquidity of all positions. -/
theorem Bookkept.total_liquidity_le (h : pool.Bookkept) (hcaps : pool.WithinCaps) :
    2 * (pool.positions.total fun _ position ↦ position.liquidity) < twoPow 128 := by
  calc 2 * (pool.positions.total fun _ position ↦ position.liquidity)
      = pool.ticks.total fun tick _ ↦ pool.positions.grossAt tick := h.total_grossAt.symm
    _ ≤ pool.ticks.total fun _ _ ↦ pool.liquidityCap :=
        OrderedMap.total_le_total fun tick _ _ ↦ h.grossAt_le hcaps tick
    _ = pool.ticks.size * pool.liquidityCap := by simp [OrderedMap.total, OrderedMap.size]
    _ ≤ (2 * (maxTick.toNat / pool.tickSpacing) + 1) * pool.liquidityCap :=
        Nat.mul_le_mul_right _ (h.ticks_size_le hcaps)
    _ < twoPow 128 := (cap_spec hcaps.spacing_pos hcaps.spacing_lt hcaps.cap_eq).1

/-- The liquidity around a tick is that of some of the positions. -/
theorem activeAt_le_total (positions : PositionTable) (tick : ℤ) :
    positions.activeAt tick ≤ positions.total fun _ position ↦ position.liquidity := by
  refine OrderedMap.total_le_total fun key position _ ↦ ?_
  split_ifs <;> omega

/-- The liquidity around any tick fits. -/
theorem Bookkept.activeAt_lt (h : pool.Bookkept) (hcaps : pool.WithinCaps) (tick : ℤ) :
    pool.positions.activeAt tick < twoPow 128 := by
  have hactive := activeAt_le_total pool.positions tick
  have htotal := h.total_liquidity_le hcaps
  omega

theorem Bookkept.lt_of_eq_weigh (h : pool.Bookkept) (hcaps : pool.WithinCaps) {liquidity : ℕ}
    (heq : (liquidity : ℤ) = pool.positions.weigh (PositionKey.rangeWeight tick)) :
    liquidity < twoPow 128 := by
  rw [← PositionTable.activeAt_eq_weigh] at heq
  rw [Nat.cast_injective heq]
  exact h.activeAt_lt hcaps tick

/-- What enters at a tick, in either direction, fits. -/
theorem Bookkept.netAt_bounds (h : pool.Bookkept) (hcaps : pool.WithinCaps) (tick : ℤ) :
    |pool.positions.netAt tick| < twoPow 127 := by
  have hnet := pool.positions.abs_netAt_le_grossAt tick
  have hgross := h.grossAt_le hcaps tick
  have hcap := (cap_spec hcaps.spacing_pos hcaps.spacing_lt hcaps.cap_eq).2
  omega

end Pool

end RangeBook
