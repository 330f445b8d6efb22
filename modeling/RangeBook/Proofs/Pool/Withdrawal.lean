import Mathlib
import RangeBook.Proofs.Pool.LiquidityRoom
import RangeBook.Proofs.Pool.PriceTick
import RangeBook.Proofs.Pool.RangeFailure

/-!
# Liquidity can always be taken out

Taking liquidity out of a position goes through many checked steps: what refers to its boundary
ticks, what enters there, the liquidity around the price, the amounts given back. None of them can
fail in a pool that is reached, as long as no more is taken out than the position holds
(`removeLiquidity_finishes`). What a boundary tick holds is what the positions hold there, so it
stays enough for the change, and all of it fits by the cap.

What is given back is the exact amount at the present price, rounded down, and what is owed can be
collected whenever the owner asks for it (`liquidity_withdrawable`).
-/

set_option autoImplicit false
set_option relaxedAutoImplicit false

namespace RangeBook

attribute [local irreducible] tickSqrtPrice tickAt

/-! ### Room at boundary ticks -/

/-- Whether a boundary tick has room for a change of the liquidity of a range that ends there. -/
structure BoundaryTick.HasRoom (boundary : BoundaryTick) (delta : ℤ) (rangeEnd : RangeEnd)
    (cap : ℕ) : Prop where
  gross_nonneg : 0 ≤ (boundary.gross : ℤ) + delta
  gross_le : (boundary.gross : ℤ) + delta ≤ cap
  net_lt : |boundary.net + rangeEnd.entering delta| < twoPow 127

section

variable {allowed : Failure → Prop} {boundary : BoundaryTick} {tick current delta : ℤ}
  {growth : TokenPair Growth} {rangeEnd : RangeEnd} {cap : ℕ}

theorem RangeEnd.int128_entering (rangeEnd : RangeEnd) (net delta : ℤ) :
    int128 (match rangeEnd with
      | .lower => net + delta
      | .upper => net - delta) = int128 (net + rangeEnd.entering delta) := by
  cases rangeEnd with
  | lower => rfl
  | upper => exact congrArg int128 (sub_eq_add_neg net delta)

theorem BoundaryTick.HasRoom.adjust_finishes (h : boundary.HasRoom delta rangeEnd cap)
    (hcap : cap < twoPow 128) :
    (adjust tick current delta growth rangeEnd cap).FailsOnly allowed boundary := by
  have hgross := h.gross_nonneg
  have hgrossLe := h.gross_le
  obtain ⟨hnetMin, hnetMax⟩ := abs_lt.mp h.net_lt
  have hnet : int128 (boundary.net + rangeEnd.entering delta) =
      .ok (boundary.net + rangeEnd.entering delta) := within_eq_ok.mpr ⟨⟨hnetMin.le, hnetMax⟩, rfl⟩
  obtain ⟨gross, hgrossEq⟩ := Int.eq_ofNat_of_zero_le hgross
  have hsum : addDelta boundary.gross delta = .ok gross :=
    addDelta_eq_ok.mpr ⟨hgrossEq.symm, by omega⟩
  have hcapped : require (gross ≤ cap) .liquidityCap = .ok () := require_eq_ok.mpr (by omega)
  unfold adjust
  refine .get_bind (.lift_bind hsum (.lift_bind hcapped ?_))
  rw [← rangeEnd.int128_entering] at hnet
  dsimp only
  by_cases hfirst : boundary.gross = 0 ∧ tick ≤ current
  · rw [if_pos hfirst]
    exact .set_bind (.lift_bind hnet (.modify_bind (.pure _)))
  · rw [if_neg hfirst]
    exact .lift_bind hnet (.modify_bind (.pure _))

end

namespace Pool

variable {pool after : Pool} {key : PositionKey} {position : Position} {delta : ℤ} {amount : ℕ}
  {allowed : Failure → Prop}

/-! ### Room for a change -/

/-- Whether nothing stands in the way of a change of the liquidity of a position. -/
structure HasRoomFor (pool : Pool) (key : PositionKey) (delta : ℤ) : Prop where
  fits : key.FitsPool pool.tickSpacing
  spacing_pos : 0 < pool.tickSpacing
  cap_lt : pool.liquidityCap < twoPow 128
  ends : delta ≠ 0 → ∀ rangeEnd, ∃ boundary,
    pool.ticks.get? (key.tickAt rangeEnd) = some boundary ∧
      boundary.HasRoom delta rangeEnd pool.liquidityCap
  position : ∀ inside, ∃ after, (pool.position key).adjust delta inside = .ok after
  amounts : ∃ result, pool.rangeAmounts key.lower key.upper delta = .ok result

theorem HasRoomFor.stageChange_finishes (h : pool.HasRoomFor key delta) :
    (stageChange key delta).FailsOnly allowed pool := by
  obtain ⟨result, hamounts⟩ := h.amounts
  refine stageChange_failsOnly h.fits.lower_lt_upper (fun hdelta rangeEnd ↦ ?_)
    (fun hdelta rangeEnd ↦ ?_) (fun inside ↦ ?_) (.of_eq_ok hamounts)
  · obtain ⟨boundary, hget, -⟩ := h.ends hdelta rangeEnd
    exact .inl (by rw [hget]; rfl)
  · obtain ⟨boundary, hget, hroom⟩ := h.ends hdelta rangeEnd
    rw [TickTable.find, hget, Option.getD_some]
    exact hroom.adjust_finishes h.cap_lt
  · obtain ⟨position, hposition⟩ := h.position inside
    exact .of_eq_ok hposition

/-- A change with room finishes. -/
theorem HasRoomFor.adjustPosition_finishes (h : pool.HasRoomFor key delta) :
    (adjustPosition key delta).FailsOnly allowed pool :=
  adjustPosition_failsOnly (checkRange_finishes h.fits) (checkTick_finishes h.fits h.spacing_pos)
    fun _ ↦ h.stageChange_finishes

/-! ### Room for a removal -/

/-- A position that holds liquidity can be adjusted downwards. -/
theorem adjust_finishes (hpos : 0 < position.liquidity) (hamount : amount ≤ position.liquidity)
    (hfit : position.liquidity < twoPow 128) (inside : TokenPair Growth) :
    FailsOnly allowed (position.adjust (-amount) inside) := by
  refine adjust_failsOnly ?_ hfit.le inside
  refine .ite (fun _ ↦ .bind (.require (absurd hpos)) fun _ _ ↦ .pure _) fun _ ↦ ?_
  have hrest : addDelta position.liquidity (-amount) = .ok (position.liquidity - amount) :=
    addDelta_eq_ok.mpr ⟨by omega, by omega⟩
  exact .of_eq_ok hrest

/-- The positions with less liquidity at one key. -/
def lowered (positions : PositionTable) (key : PositionKey) (amount : ℕ) : PositionTable :=
  positions.insert key { positions.find key with
    liquidity := (positions.find key).liquidity - amount }

theorem liquidity_lowered (hamount : amount ≤ position.liquidity) :
    ((position.liquidity - amount : ℕ) : ℤ) = position.liquidity + -(amount : ℤ) := by
  omega

/-- The liquidity of one position is at most half of what fits. -/
theorem Bookkept.liquidity_lt (h : pool.Bookkept) (hcaps : pool.WithinCaps)
    (hget : pool.positions.get? key = some position) : position.liquidity < twoPow 127 := by
  have htotal := h.total_liquidity_le hcaps
  have hle : position.liquidity ≤ pool.positions.total fun _ position ↦ position.liquidity :=
    OrderedMap.le_total (fun _ (other : Position) _ ↦ Nat.zero_le other.liquidity) hget
  have hwidth : twoPow 128 = 2 * twoPow 127 := twoPow_succ 127
  omega

/-- The ends of a position have room for taking some of its liquidity out. -/
theorem Bookkept.hasRoom_ends (h : pool.Bookkept) (hcaps : pool.WithinCaps)
    (hget : pool.positions.get? key = some position) (hpos : 0 < position.liquidity)
    (hamount : amount ≤ position.liquidity) (rangeEnd : RangeEnd) :
    ∃ boundary, pool.ticks.get? (key.tickAt rangeEnd) = some boundary ∧
      boundary.HasRoom (-amount) rangeEnd pool.liquidityCap := by
  have hfind : pool.positions.find key = position := PositionTable.find_eq hget
  have horder := (h.ranges key (by rw [hget]; rfl)).lower_lt_upper
  have hend := key.isEnd_tickAt rangeEnd
  obtain ⟨boundary, hboundary⟩ :=
    Option.isSome_iff_exists.mp (h.isSome_of_isEnd hget hpos.ne' hend)
  obtain ⟨hgross, hnet⟩ := h.find_eq (key.tickAt rangeEnd)
  rw [TickTable.find, hboundary, Option.getD_some] at hgross hnet
  have hliquidity := liquidity_lowered (hfind.symm ▸ hamount)
  have hlowGross : ((lowered pool.positions key amount).grossAt (key.tickAt rangeEnd) : ℤ) = _ :=
    PositionTable.grossAt_insert hliquidity (key.tickAt rangeEnd)
  have hlowNet : (lowered pool.positions key amount).netAt (key.tickAt rangeEnd) = _ :=
    PositionTable.netAt_insert hliquidity (key.tickAt rangeEnd)
  rw [← hgross, PositionKey.endWeight, if_pos hend, one_mul] at hlowGross
  rw [← hnet, PositionKey.netWeight_tickAt_mul horder] at hlowNet
  have hbound := (lowered pool.positions key amount).abs_netAt_le_grossAt (key.tickAt rangeEnd)
  have hcapped := hcaps.gross_le _ _ hboundary
  have hcap := (cap_spec hcaps.spacing_pos hcaps.spacing_lt hcaps.cap_eq).2
  refine ⟨boundary, hboundary, by omega, by omega, ?_⟩
  rw [← hlowNet]
  omega

/-- In a pool that is reached there is room for taking out what a position holds, or less. -/
theorem Reachable.hasRoomFor_removal (h : pool.Reachable)
    (hget : pool.positions.get? key = some position) (hpos : 0 < position.liquidity)
    (hamount : amount ≤ position.liquidity) : pool.IsOpen ∧ pool.HasRoomFor key (-amount) := by
  have hbooks := h.bookkept
  have hcaps := h.withinCaps
  have hfits := hbooks.ranges key (by rw [hget]; rfl)
  have hopen : pool.IsOpen := by
    by_contra hclosed
    rw [hbooks.closed hclosed] at hget
    exact absurd hget (by simp)
  have hwidth : twoPow 128 = 2 * twoPow 127 := twoPow_succ 127
  have hliquidity := hbooks.liquidity_lt hcaps hget
  have hfind : pool.positions.find key = position := PositionTable.find_eq hget
  have hcap := (cap_spec hcaps.spacing_pos hcaps.spacing_lt hcaps.cap_eq).2
  refine ⟨hopen, hfits, hcaps.spacing_pos, by omega,
    fun _ ↦ hbooks.hasRoom_ends hcaps hget hpos hamount, fun inside ↦ ?_, ?_⟩
  · rw [Pool.position, hfind]
    exact (adjust_finishes hpos hamount (by omega) inside).exists_eq_ok
  · refine (rangeAmounts_finishes hfits (hbooks.stands hopen) h.sqrtPrice_lt (by omega)
      fun hlow hhigh ↦ ?_).exists_eq_ok
    have hfit := hbooks.lt_of_eq_weigh hcaps hbooks.liquidity
    have hlowered : ((lowered pool.positions key amount).activeAt pool.tick : ℤ) = _ :=
      PositionTable.activeAt_insert (liquidity_lowered (hfind.symm ▸ hamount)) pool.tick
    rw [PositionTable.activeAt_eq_weigh pool.positions, ← hbooks.liquidity,
      PositionKey.rangeWeight, if_pos ⟨hlow, hhigh⟩, one_mul] at hlowered
    omega

/-- No more than what a position holds can always be taken out of it. -/
theorem Reachable.removeLiquidity_finishes (h : pool.Reachable)
    (hget : pool.positions.get? key = some position) (hpos : 0 < position.liquidity)
    (hamount : amount ≤ position.liquidity) :
    ∃ returned after, removeLiquidity key amount pool = .ok returned after := by
  obtain ⟨hopen, hroom⟩ := h.hasRoomFor_removal hget hpos hamount
  have hliquidity := h.bookkept.liquidity_lt h.withinCaps hget
  have hdelta : int128 amount = .ok (amount : ℤ) := within_eq_ok.mpr ⟨by omega, rfl⟩
  refine Action.FailsOnly.exists_eq_ok ?_
  unfold removeLiquidity
  refine .bind_of_eq_ok (opened_eq_ok.mpr ⟨hopen, rfl, rfl⟩) (.lift_bind hdelta ?_)
  exact .bind hroom.adjustPosition_finishes fun _ _ _ ↦ .modify_bind (.pure _)

/-! ### What is given back -/

theorem reserve_nonneg (hfits : key.FitsPool pool.tickSpacing) (amount : ℕ) (token : Token) :
    0 ≤ (amount : ℚ) * pool.rangeReserve key token :=
  mul_nonneg (Nat.cast_nonneg _)
    (rangeReserve_nonneg hfits.lower_lt_upper hfits.minTick_le hfits.le_maxTick token)

/-- The amounts that are given back for liquidity of a range are its reserves rounded down. -/
theorem natAbs_rangeAmounts {liquidity : ℕ} {amounts : TokenPair ℤ}
    (hfits : key.FitsPool pool.tickSpacing) (hstands : StandsAt pool.tick pool.sqrtPrice)
    (hdelta : delta ≤ 0)
    (h : pool.rangeAmounts key.lower key.upper delta = .ok (liquidity, amounts)) (token : Token) :
    (amounts.get token).natAbs = ⌊(delta.natAbs : ℚ) * pool.rangeReserve key token⌋₊ := by
  have hexact : (delta : ℚ) * pool.rangeReserve key token =
      -((delta.natAbs : ℚ) * pool.rangeReserve key token) := by
    rw [Nat.cast_natAbs, abs_of_nonpos hdelta, Int.cast_neg, neg_mul, neg_neg]
  rw [rangeAmounts_eq_ceil hfits.lower_lt_upper hfits.minTick_le hfits.le_maxTick hstands h, hexact,
    Int.ceil_neg, Int.natAbs_neg, ← Int.natCast_floor_eq_floor (reserve_nonneg hfits _ token),
    Int.natAbs_natCast]

/-! ### Later collections -/

theorem isOpen_enterAll (h : pool.Reachable) (hopen : pool.IsOpen) (calls : List Call) :
    ((Ledger.start pool).enterAll calls).pool.IsOpen := by
  refine Ledger.enterAll_of_kept (fun ledger ↦ ledger.pool.IsOpen) (fun _ ↦ True)
    (fun _ hreachable hkept hrun hfinished ↦ ?_) h hopen fun _ _ ↦ trivial
  rw [(Ledger.enter_of_ok hrun).1]
  exact isOpen_of_finished hreachable.bookkept hkept hfinished

/-- What is owed can always be collected from an open pool. -/
theorem collect_finishes (hopen : pool.IsOpen) (key : PositionKey) (requested : TokenPair ℕ) :
    ∃ paid after, collect key requested pool = .ok paid after := by
  refine Action.FailsOnly.exists_eq_ok ?_
  unfold collect
  refine .bind_of_eq_ok (opened_eq_ok.mpr ⟨hopen, rfl, rfl⟩) ?_
  cases pool.positions.get? key with
  | some position => exact set_pure_failsOnly _ _
  | none => exact .pure _

/-! ### Withdrawals -/

/-- What a withdrawal gives back and leaves. -/
structure Withdrawn (pool : Pool) (key : PositionKey) (amount : ℕ) (returned : TokenPair ℕ)
    (after : Pool) : Prop where
  liquidity_eq : (after.position key).liquidity = (pool.position key).liquidity - amount
  /-- The exact amounts at the present price are rounded down. -/
  returned_eq : ∀ token, returned.get token = ⌊(amount : ℚ) * pool.rangeReserve key token⌋₊
  /-- A tick is kept where a position that holds liquidity ends there, and nowhere else. -/
  absent_iff : ∀ tick, after.ticks.get? tick = none ↔
    ∀ other position, after.positions.get? other = some position → position.liquidity ≠ 0 →
      ¬other.IsEnd tick
  /-- Whatever is called in between, what is owed can be collected. -/
  collectable : ∀ calls requested, ∃ paid later,
    collect key requested ((Ledger.start after).enterAll calls).pool = .ok paid later

/-- In every pool that is reached, the owner of a position can take out any part of its liquidity,
and collect what is owed at any time after. -/
theorem liquidity_withdrawable (h : pool.Reachable)
    (hget : pool.positions.get? key = some position) (hpos : 0 < position.liquidity)
    (hamount : amount ≤ position.liquidity) :
    ∃ returned after, removeLiquidity key amount pool = .ok returned after ∧
      pool.Withdrawn key amount returned after := by
  obtain ⟨returned, after, hremove⟩ := h.removeLiquidity_finishes hget hpos hamount
  have hrun : (Call.removeLiquidity key amount).run pool = .ok (.both 0) after :=
    Action.bind_eq_ok.mpr ⟨returned, after, hremove, Action.pure_eq_ok.mpr ⟨rfl, rfl⟩⟩
  have hafter := h.of_run hrun
  have hbooks := h.bookkept
  have hfind : pool.position key = position := PositionTable.find_eq hget
  refine ⟨returned, after, hremove, ?_⟩
  obtain ⟨staged, changed, amounts, between, hopen, hadjusted, rfl, hafterEq⟩ :=
    removed_of_removeLiquidity hremove
  have hopenAfter : after.IsOpen :=
    isOpen_of_finished hbooks hopen (Call.finished_of_run hrun)
  refine ⟨?_, fun token ↦ ?_, fun tick ↦ ?_, fun calls requested ↦ ?_⟩
  · have hliquidity := (Position.adjusted_of_adjust hadjusted.position_eq).liquidity_eq
    have hwritten : after.position key = changed.credit (amounts.map Int.natAbs) := by
      rw [hafterEq, Pool.position, PositionTable.find_insert_self]
    rw [hwritten]
    change changed.liquidity = _
    omega
  · have hfits := hbooks.ranges key (by rw [hget]; rfl)
    rw [TokenPair.get_map, natAbs_rangeAmounts hfits (hbooks.stands hopen) (by omega)
      hadjusted.amounts_eq, Int.natAbs_neg, Int.natAbs_natCast]
  · rw [← not_iff_not, ← ne_eq, ← Option.isSome_iff_ne_none, hafter.bookkept.isSome_iff,
      PositionTable.grossAt_pos_iff]
    push Not
    simp only [Nat.pos_iff_ne_zero]
  · exact collect_finishes (isOpen_enterAll hafter hopenAfter calls) key requested

/-- Taking a whole position out at the lower end of its range gives back token zero only, and the
boundary tick goes with it. -/
theorem liquidity_withdrawable_whole :
    let key : PositionKey := ⟨2, 0, 120⟩
    (∃ returned after, removeLiquidity key 500000 twoRanges = .ok returned after ∧
      twoRanges.Withdrawn key 500000 returned after) ∧
    Prod.fst <$> (removeLiquidity key 500000).outcome twoRanges = .ok ⟨2990, 0⟩ ∧
    (twoRanges.ticks.get? 0).isSome ∧
    ((Call.removeLiquidity key 500000).leaves twoRanges).ticks.get? 0 = none := by
  have hget : twoRanges.positions.get? ⟨2, 0, 120⟩ = some ⟨500000, .both 0, .both 0⟩ := by
    decide +kernel
  exact ⟨liquidity_withdrawable twoRanges_reachable hget (by decide) (by decide),
    by decide +kernel, by decide +kernel, by decide +kernel⟩

end Pool

end RangeBook
