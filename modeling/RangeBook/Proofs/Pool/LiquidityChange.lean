import Mathlib
import RangeBook.Proofs.Pool.LiquidityCap
import RangeBook.Proofs.Pool.Poke

/-!
# Pools after changes of liquidity

The boundary ticks of a pool repeat what its positions hold, and the liquidity around its tick does
too. What the ticks keep beyond that are their snapshots of the growth. So two pools that agree on
the liquidity of every range and on the snapshots have the same ticks and the same liquidity,
however they came about (`eq_of_weigh`).

A tick that is not in use has a snapshot too, the one it would come into use with (`snapshot`). No
addition of liquidity changes any snapshot, and a removal changes none at a tick that stays in use.
This makes the pool after an addition (`Grown`) and after a removal (`Shrunk`) plain functions of
the pool before: one position is written, all else follows.
-/

set_option autoImplicit false
set_option relaxedAutoImplicit false

namespace RangeBook

attribute [local irreducible] tickSqrtPrice tickAt

/-! ### Positions -/

namespace Position

variable {position position' : Position} {inside : TokenPair Growth} {amount : ℕ}
  {returned : TokenPair ℕ}

/-- A position that is credited with its fees and holds more liquidity than before. -/
def grown (position : Position) (inside : TokenPair Growth) (amount : ℕ) : Position :=
  { position.poked inside with liquidity := position.liquidity + amount }

/-- A position that is credited with its fees and with what is given back for a part of its
liquidity. -/
def shrunk (position : Position) (inside : TokenPair Growth) (amount : ℕ)
    (returned : TokenPair ℕ) : Position :=
  { (position.poked inside).credit returned with liquidity := position.liquidity - amount }

theorem AdjustedTo.eq_grown (h : position.AdjustedTo amount inside position') :
    position' = position.grown inside amount := by
  have hliquidity : position'.liquidity = position.liquidity + amount := by
    have hsum := h.liquidity_eq
    omega
  refine h.eq_poked_with.trans ?_
  rw [hliquidity]
  rfl

theorem AdjustedTo.credit_eq_shrunk (h : position.AdjustedTo (-amount) inside position') :
    position'.credit returned = position.shrunk inside amount returned := by
  have hliquidity : position'.liquidity = position.liquidity - amount := by
    have hsum := h.liquidity_eq
    omega
  rw [h.eq_poked_with, hliquidity]
  rfl

theorem get_owed_credit (position : Position) (amounts : TokenPair ℕ) (token : Token) :
    (position.credit amounts).owed.get token =
      wrap128 (position.owed.get token + amounts.get token) := by
  cases token <;> rfl

/-- Two credits are one credit of the sums, however often the amounts owed overflow. -/
theorem credit_credit (position : Position) (first second : TokenPair ℕ) :
    (position.credit first).credit second = position.credit (first.zipWith (· + ·) second) := by
  have howed : ((position.credit first).credit second).owed =
      (position.credit (first.zipWith (· + ·) second)).owed := by
    refine TokenPair.ext_get fun token ↦ ?_
    simp only [get_owed_credit, TokenPair.get_zipWith, wrap128, Nat.mod_add_mod, Nat.add_assoc]
  exact congrArg (fun owed ↦ { position with owed }) howed

/-- A position that is up to date has nothing to be credited with. -/
theorem poked_eq_self (hlast : position.growthInside = inside)
    (hfits : ∀ token, position.owed.get token < twoPow 128) : position.poked inside = position := by
  have howed : (position.poked inside).owed = position.owed := by
    refine TokenPair.ext_get fun token ↦ ?_
    rw [get_owed_poked, earned_of_growthInside_eq (by rw [hlast])]
    exact wrap128_of_lt (hfits token)
  obtain ⟨liquidity, growthInside, owed⟩ := position
  simp only at hlast howed
  subst hlast
  exact congrArg (fun owed ↦ (⟨liquidity, growthInside, owed⟩ : Position)) howed

theorem grown_grown (position : Position) (inside : TokenPair Growth) (first second : ℕ) :
    (position.grown inside first).grown inside second = position.grown inside (first + second) := by
  have hpoked : (position.grown inside first).poked inside = position.grown inside first := by
    refine poked_eq_self rfl fun token ↦ ?_
    exact (get_owed_poked position inside token).trans_lt (wrap128_lt _)
  unfold grown at hpoked ⊢
  rw [hpoked, Nat.add_assoc]

/-- What is given back on top is credited on top. -/
theorem credit_shrunk (position : Position) (inside : TokenPair Growth) (amount : ℕ)
    (returned more : TokenPair ℕ) :
    (position.shrunk inside amount returned).credit more =
      position.shrunk inside amount (returned.zipWith (· + ·) more) :=
  congrArg (fun credited : Position ↦ { credited with liquidity := position.liquidity - amount })
    ((position.poked inside).credit_credit returned more)

theorem shrunk_shrunk (position : Position) (inside : TokenPair Growth) (first second : ℕ)
    (returned returned' : TokenPair ℕ) :
    (position.shrunk inside first returned).shrunk inside second returned' =
      position.shrunk inside (first + second) (returned.zipWith (· + ·) returned') := by
  have hpoked : (position.shrunk inside first returned).poked inside =
      position.shrunk inside first returned := by
    refine poked_eq_self rfl fun token ↦ ?_
    exact (get_owed_credit (position.poked inside) returned token).trans_lt (wrap128_lt _)
  rw [← credit_shrunk]
  unfold shrunk at hpoked ⊢
  rw [hpoked, ← Nat.sub_sub]
  rfl

end Position

/-! ### Weighted sums -/

theorem PositionTable.weigh_grown (positions : PositionTable) (key : PositionKey)
    (inside : TokenPair Growth) (amount : ℕ) (weight : PositionKey → ℤ) :
    weigh (positions.insert key ((positions.find key).grown inside amount)) weight =
      positions.weigh weight + weight key * amount :=
  weigh_insert (Nat.cast_add _ _) weight

theorem PositionTable.weigh_shrunk {positions : PositionTable} {key : PositionKey} {amount : ℕ}
    (hamount : amount ≤ (positions.find key).liquidity) (inside : TokenPair Growth)
    (returned : TokenPair ℕ) (weight : PositionKey → ℤ) :
    weigh (positions.insert key ((positions.find key).shrunk inside amount returned)) weight =
      positions.weigh weight - weight key * amount := by
  have hliquidity : (((positions.find key).shrunk inside amount returned).liquidity : ℤ) =
      (positions.find key).liquidity + -(amount : ℤ) := by
    change (((positions.find key).liquidity - amount : ℕ) : ℤ) = _
    omega
  rw [weigh_insert hliquidity, mul_neg, sub_eq_add_neg]

theorem PositionTable.grossAt_shrunk_le {positions : PositionTable} {key : PositionKey}
    {amount : ℕ} (hamount : amount ≤ (positions.find key).liquidity) (inside : TokenPair Growth)
    (returned : TokenPair ℕ) (tick : ℤ) :
    grossAt (positions.insert key ((positions.find key).shrunk inside amount returned)) tick ≤
      positions.grossAt tick := by
  have hsum := weigh_shrunk hamount inside returned (PositionKey.endWeight tick)
  rw [← grossAt_eq_weigh, ← grossAt_eq_weigh, PositionKey.endWeight] at hsum
  split_ifs at hsum <;> omega

namespace Pool

variable {pool between after left right : Pool} {key other : PositionKey} {amount : ℕ} {tick : ℤ}

/-! ### Snapshots -/

/-- The growth on the far side of a tick: the one that is kept where the tick is in use, and the one
that it would come into use with where it is not. -/
def snapshot (pool : Pool) (tick : ℤ) : TokenPair Growth :=
  match pool.ticks.get? tick with
  | some boundary => boundary.growthOutside
  | none => if tick ≤ pool.tick then pool.growth else .both 0

theorem snapshot_of_isSome (hstored : (pool.ticks.get? tick).isSome) :
    pool.snapshot tick = (pool.ticks.find tick).growthOutside := by
  obtain ⟨boundary, hget⟩ := Option.isSome_iff_exists.mp hstored
  rw [snapshot, TickTable.find, hget, Option.getD_some]

theorem snapshot_congr (htick : after.tick = pool.tick) (hgrowth : after.growth = pool.growth)
    (hget : after.ticks.get? tick = pool.ticks.get? tick) :
    after.snapshot tick = pool.snapshot tick := by
  rw [snapshot, snapshot, hget, htick, hgrowth]

/-- The growth inside a range both of whose ends are in use, or come into use now. -/
def growthWithin (pool : Pool) (key : PositionKey) : TokenPair Growth :=
  BoundaryTick.growthInside
    key.lower { BoundaryTick.blank with growthOutside := pool.snapshot key.lower }
    key.upper { BoundaryTick.blank with growthOutside := pool.snapshot key.upper }
    pool.tick pool.growth

theorem growthWithin_congr (htick : after.tick = pool.tick) (hgrowth : after.growth = pool.growth)
    (hsnapshot : ∀ rangeEnd,
      after.snapshot (key.tickAt rangeEnd) = pool.snapshot (key.tickAt rangeEnd)) :
    after.growthWithin key = pool.growthWithin key := by
  have hlower : after.snapshot key.lower = pool.snapshot key.lower := hsnapshot .lower
  have hupper : after.snapshot key.upper = pool.snapshot key.upper := hsnapshot .upper
  rw [growthWithin, growthWithin, hlower, hupper, htick, hgrowth]

section

variable {staged : TickTable} {delta : ℤ}

/-- A change of liquidity writes the snapshot of an end only where it comes into use. -/
theorem BoundariesStaged.growthOutside_end (hstaged : pool.BoundariesStaged key delta staged)
    (h : pool.Bookkept) (hdelta : delta ≠ 0) (rangeEnd : RangeEnd) :
    (staged.find (key.tickAt rangeEnd)).growthOutside = pool.snapshot (key.tickAt rangeEnd) := by
  by_cases hstored : (pool.ticks.get? (key.tickAt rangeEnd)).isSome
  · rw [hstaged.growthOutside_eq h hstored, snapshot_of_isSome hstored]
  · rw [Option.not_isSome_iff_eq_none] at hstored
    obtain ⟨boundary, hget, hboundary⟩ := hstaged.adjusted hdelta rangeEnd
    have hblank : pool.ticks.find (key.tickAt rangeEnd) = .blank := by
      rw [TickTable.find, hstored, Option.getD_none]
    have hunused : BoundaryTick.blank.gross = 0 := rfl
    rw [TickTable.find, hget, Option.getD_some, hboundary.growthOutside_eq, hblank, snapshot,
      hstored]
    simp only [hunused, true_and]
    rfl

/-- Once both ends are written, the growth inside is that of a range in use. -/
theorem BoundariesStaged.growthInside_eq_within
    (hstaged : pool.BoundariesStaged key delta staged) (h : pool.Bookkept) (hdelta : delta ≠ 0) :
    staged.growthInside key.lower key.upper pool.tick pool.growth = pool.growthWithin key := by
  have hlower : ((staged.get? key.lower).getD .blank).growthOutside = pool.snapshot key.lower :=
    hstaged.growthOutside_end h hdelta .lower
  have hupper : ((staged.get? key.upper).getD .blank).growthOutside = pool.snapshot key.upper :=
    hstaged.growthOutside_end h hdelta .upper
  simp only [TickTable.growthInside, growthWithin, BoundaryTick.growthInside,
    BoundaryTick.growthBelow, BoundaryTick.growthAbove, hlower, hupper]

end

/-! ### Pools with the same liquidity -/

/-- Whether two pools differ in no more than the accounts of their liquidity. -/
def DiffersInBooks (pool after : Pool) : Prop :=
  ∃ ticks positions liquidity, after = { pool with ticks, positions, liquidity }

theorem DiffersInBooks.trans (h : pool.DiffersInBooks between)
    (h' : between.DiffersInBooks after) : pool.DiffersInBooks after := by
  obtain ⟨_, _, _, rfl⟩ := h
  obtain ⟨_, _, _, rfl⟩ := h'
  exact ⟨_, _, _, rfl⟩

theorem DiffersInBooks.of_common (hleft : pool.DiffersInBooks left)
    (hright : pool.DiffersInBooks right) : left.DiffersInBooks right := by
  obtain ⟨_, _, _, rfl⟩ := hleft
  obtain ⟨_, _, _, rfl⟩ := hright
  exact ⟨_, _, _, rfl⟩

theorem DiffersInBooks.tick_eq (h : pool.DiffersInBooks after) : after.tick = pool.tick := by
  obtain ⟨_, _, _, rfl⟩ := h
  rfl

theorem DiffersInBooks.growth_eq (h : pool.DiffersInBooks after) : after.growth = pool.growth := by
  obtain ⟨_, _, _, rfl⟩ := h
  rfl

theorem DiffersInBooks.isOpen_iff (h : pool.DiffersInBooks after) :
    after.IsOpen ↔ pool.IsOpen := by
  obtain ⟨_, _, _, rfl⟩ := h
  rfl

theorem DiffersInBooks.tickSpacing_eq (h : pool.DiffersInBooks after) :
    after.tickSpacing = pool.tickSpacing := by
  obtain ⟨_, _, _, rfl⟩ := h
  rfl

theorem DiffersInBooks.liquidityCap_eq (h : pool.DiffersInBooks after) :
    after.liquidityCap = pool.liquidityCap := by
  obtain ⟨_, _, _, rfl⟩ := h
  rfl

theorem DiffersInBooks.rangeReserve_eq (h : pool.DiffersInBooks after) (key : PositionKey)
    (token : Token) : after.rangeReserve key token = pool.rangeReserve key token := by
  obtain ⟨_, _, _, rfl⟩ := h
  rfl

theorem grossAt_eq_of_weigh
    (hweigh : ∀ weight, right.positions.weigh weight = left.positions.weigh weight) (tick : ℤ) :
    right.positions.grossAt tick = left.positions.grossAt tick := by
  have hgross := hweigh (PositionKey.endWeight tick)
  rw [← PositionTable.grossAt_eq_weigh, ← PositionTable.grossAt_eq_weigh] at hgross
  exact Nat.cast_injective hgross

theorem Bookkept.isSome_of_grossAt_le (hpool : pool.Bookkept) (hafter : after.Bookkept)
    (hgross : after.positions.grossAt tick ≤ pool.positions.grossAt tick)
    (hstored : (after.ticks.get? tick).isSome) : (pool.ticks.get? tick).isSome := by
  rw [hafter.isSome_iff] at hstored
  rw [hpool.isSome_iff]
  exact hstored.trans_le hgross

/-- The boundary ticks follow from the liquidity of the positions and from the snapshots. -/
theorem Bookkept.ticks_eq (hleft : left.Bookkept) (hright : right.Bookkept)
    (hweigh : ∀ weight, right.positions.weigh weight = left.positions.weigh weight)
    (hsnapshot : ∀ tick, (left.ticks.get? tick).isSome → (right.ticks.get? tick).isSome →
      right.snapshot tick = left.snapshot tick) : right.ticks = left.ticks := by
  refine OrderedMap.ext_get? fun tick ↦ ?_
  have hgross := grossAt_eq_of_weigh hweigh tick
  have hiff : (right.ticks.get? tick).isSome ↔ (left.ticks.get? tick).isSome := by
    rw [hright.isSome_iff, hleft.isSome_iff, hgross]
  by_cases hstored : (right.ticks.get? tick).isSome
  · have hgrowth := hsnapshot tick (hiff.mp hstored) hstored
    rw [snapshot_of_isSome hstored, snapshot_of_isSome (hiff.mp hstored)] at hgrowth
    obtain ⟨hrightGross, hrightNet⟩ := hright.find_eq tick
    obtain ⟨hleftGross, hleftNet⟩ := hleft.find_eq tick
    have hnet : right.positions.netAt tick = left.positions.netAt tick := by
      rw [PositionTable.netAt_eq_weigh, PositionTable.netAt_eq_weigh, hweigh]
    obtain ⟨boundary, hget⟩ := Option.isSome_iff_exists.mp hstored
    obtain ⟨boundary', hget'⟩ := Option.isSome_iff_exists.mp (hiff.mp hstored)
    rw [TickTable.find, hget, Option.getD_some] at hgrowth hrightGross hrightNet
    rw [TickTable.find, hget', Option.getD_some] at hgrowth hleftGross hleftNet
    have heq : boundary = boundary' := by
      obtain ⟨gross, net, growthOutside⟩ := boundary
      obtain ⟨gross', net', growthOutside'⟩ := boundary'
      simp only at hgrowth hrightGross hrightNet hleftGross hleftNet
      rw [hgrowth, hrightGross, hrightNet, hleftGross, hleftNet, hgross, hnet]
    rw [hget, hget', heq]
  · have hstored' := mt hiff.mpr hstored
    rw [Option.not_isSome_iff_eq_none] at hstored hstored'
    rw [hstored, hstored']

/-- Pools with the same liquidity in every range and with the same snapshots differ in no more than
their positions. -/
theorem eq_of_weigh (hleft : left.Bookkept) (hright : right.Bookkept)
    (hbooks : left.DiffersInBooks right)
    (hweigh : ∀ weight, right.positions.weigh weight = left.positions.weigh weight)
    (hsnapshot : ∀ tick, (left.ticks.get? tick).isSome → (right.ticks.get? tick).isSome →
      right.snapshot tick = left.snapshot tick) :
    right = { left with positions := right.positions } := by
  have hticks := hleft.ticks_eq hright hweigh hsnapshot
  have hliquidity : right.liquidity = left.liquidity := by
    have hsum := hright.liquidity
    rw [hweigh, hbooks.tick_eq, ← hleft.liquidity] at hsum
    exact Nat.cast_injective hsum
  obtain ⟨ticks, positions, liquidity, rfl⟩ := hbooks
  simp only at hticks hliquidity
  rw [hticks, hliquidity]

/-- Where the positions are the same too, the pools are. -/
theorem eq_of_positions (hleft : left.Bookkept) (hright : right.Bookkept)
    (hbooks : left.DiffersInBooks right) (hpositions : right.positions = left.positions)
    (hsnapshot : ∀ tick, (left.ticks.get? tick).isSome → (right.ticks.get? tick).isSome →
      right.snapshot tick = left.snapshot tick) : right = left := by
  have heq := eq_of_weigh hleft hright hbooks (fun _ ↦ by rw [hpositions]) hsnapshot
  rw [hpositions] at heq
  exact heq

/-! ### Additions -/

/-- What an addition of liquidity takes and what it makes of a pool. -/
structure Grown (pool : Pool) (key : PositionKey) (amount : ℕ) (brought : TokenPair ℕ)
    (after : Pool) : Prop where
  fits : key.FitsPool pool.tickSpacing
  inBooks : pool.DiffersInBooks after
  positions_eq : after.positions = pool.positions.insert key
    ((pool.position key).grown (pool.growthWithin key) amount)
  snapshot_eq : ∀ tick, after.snapshot tick = pool.snapshot tick
  /-- The exact amounts at the present price are rounded up. -/
  brought_eq : ∀ token, brought.get token = ⌈(amount : ℚ) * pool.rangeReserve key token⌉₊

section

variable {brought : TokenPair ℕ} {key' : PositionKey} {amount' : ℕ}

theorem run_addLiquidity (hadded : addLiquidity key amount pool = .ok brought after) :
    (Call.addLiquidity key amount).run pool = .ok brought.paidIn after :=
  Action.bind_eq_ok.mpr ⟨brought, after, hadded, Action.pure_eq_ok.mpr ⟨rfl, rfl⟩⟩

theorem Reachable.of_addLiquidity (h : pool.Reachable)
    (hadded : addLiquidity key amount pool = .ok brought after) : after.Reachable :=
  h.of_run (run_addLiquidity hadded)

theorem grown_of_addLiquidity (h : pool.Reachable)
    (hadded : addLiquidity key amount pool = .ok brought after) :
    pool.Grown key amount brought after := by
  have hbooks := h.bookkept
  obtain ⟨staged, position, amounts, hopen, hpos, hadjusted, rfl⟩ := added_of_addLiquidity hadded
  have hdelta : (amount : ℤ) ≠ 0 := by omega
  have hposition := (Position.adjusted_of_adjust hadjusted.position_eq).eq_grown
  rw [hadjusted.boundaries.growthInside_eq_within hbooks hdelta] at hposition
  have hinBooks : pool.DiffersInBooks after := ⟨_, _, _, hadjusted.pool_eq⟩
  refine ⟨⟨hadjusted.lower_lt_upper, hadjusted.minTick_le, hadjusted.le_maxTick,
    hadjusted.spacing_dvd⟩, hinBooks, ?_, fun tick ↦ ?_, fun token ↦ ?_⟩
  · rw [hadjusted.positions_eq, hposition]
  · have hget : after.ticks.get? tick = staged.get? tick := by
      rw [hadjusted.ticks_eq, if_neg fun hneg ↦ absurd hneg.1 (by omega)]
    by_cases hend : key.IsEnd tick
    · obtain ⟨rangeEnd, rfl⟩ := PositionKey.isEnd_iff.mp hend
      have hstored : (after.ticks.get? (key.tickAt rangeEnd)).isSome := by
        obtain ⟨boundary, hboundary, -⟩ := hadjusted.boundaries.adjusted hdelta rangeEnd
        rw [hget, hboundary]
        rfl
      rw [snapshot_of_isSome hstored, hadjusted.find_eq hstored,
        hadjusted.boundaries.growthOutside_end hbooks hdelta]
    · exact snapshot_congr hinBooks.tick_eq hinBooks.growth_eq
        (hget.trans (hadjusted.boundaries.off_ends tick hend))
  · rw [TokenPair.get_map, rangeAmounts_eq_ceil hadjusted.lower_lt_upper hadjusted.minTick_le
      hadjusted.le_maxTick (hbooks.stands hopen) hadjusted.amounts_eq, Int.ceil_toNat,
      Int.cast_natCast]

namespace Grown

variable (h : pool.Grown key amount brought after)

include h

theorem position_self :
    after.position key = (pool.position key).grown (pool.growthWithin key) amount := by
  rw [Pool.position, h.positions_eq, PositionTable.find_insert_self]

theorem position_of_ne (hne : other ≠ key) : after.position other = pool.position other := by
  rw [Pool.position, h.positions_eq, PositionTable.find_insert_of_ne _ _ hne, Pool.position]

theorem growthWithin_eq (other : PositionKey) :
    after.growthWithin other = pool.growthWithin other :=
  growthWithin_congr h.inBooks.tick_eq h.inBooks.growth_eq fun _ ↦ h.snapshot_eq _

theorem weigh_eq (weight : PositionKey → ℤ) :
    after.positions.weigh weight = pool.positions.weigh weight + weight key * amount := by
  rw [h.positions_eq]
  exact pool.positions.weigh_grown _ _ _ _

/-- More liquidity refers to the ends of the range, and no more to the other ticks. -/
theorem grossAt_eq (tick : ℤ) :
    after.positions.grossAt tick =
      pool.positions.grossAt tick + if key.IsEnd tick then amount else 0 := by
  have hsum := h.weigh_eq (PositionKey.endWeight tick)
  rw [← PositionTable.grossAt_eq_weigh, ← PositionTable.grossAt_eq_weigh,
    PositionKey.endWeight] at hsum
  split_ifs at hsum ⊢ <;> omega

end Grown

/-- Whether a further addition finishes can be told before the first. -/
theorem Reachable.addLiquidity_after_iff (h : pool.Reachable)
    (hadded : addLiquidity key amount pool = .ok brought between) :
    (∃ brought' after, addLiquidity key' amount' between = .ok brought' after) ↔
      pool.IsOpen ∧ key'.FitsPool pool.tickSpacing ∧ 0 < amount' ∧
        ∀ rangeEnd, pool.positions.grossAt (key'.tickAt rangeEnd) +
          (if key.IsEnd (key'.tickAt rangeEnd) then amount else 0) + amount' ≤
            pool.liquidityCap := by
  have hgrown := grown_of_addLiquidity h hadded
  rw [(h.of_addLiquidity hadded).addLiquidity_finishes_iff, hgrown.inBooks.isOpen_iff,
    hgrown.inBooks.tickSpacing_eq, hgrown.inBooks.liquidityCap_eq]
  simp only [hgrown.grossAt_eq]

end

/-! ### Removals -/

/-- What a removal of liquidity gives back and what it makes of a pool. -/
structure Shrunk (pool : Pool) (key : PositionKey) (amount : ℕ) (returned : TokenPair ℕ)
    (after : Pool) : Prop where
  fits : key.FitsPool pool.tickSpacing
  amount_le : amount ≤ (pool.position key).liquidity
  inBooks : pool.DiffersInBooks after
  positions_eq : after.positions = pool.positions.insert key
    ((pool.position key).shrunk (pool.growthWithin key) amount returned)
  snapshot_eq : ∀ tick, (after.ticks.get? tick).isSome → after.snapshot tick = pool.snapshot tick
  /-- The exact amounts at the present price are rounded down. -/
  returned_eq : ∀ token, returned.get token = ⌊(amount : ℚ) * pool.rangeReserve key token⌋₊

section

variable {returned : TokenPair ℕ}

theorem Reachable.of_removeLiquidity (h : pool.Reachable)
    (hremoved : removeLiquidity key amount pool = .ok returned after) : after.Reachable := by
  have hrun : (Call.removeLiquidity key amount).run pool = .ok (.both 0) after :=
    Action.bind_eq_ok.mpr ⟨returned, after, hremoved, Action.pure_eq_ok.mpr ⟨rfl, rfl⟩⟩
  exact h.of_run hrun

theorem shrunk_of_removeLiquidity (h : pool.Reachable) (hpos : 0 < amount)
    (hremoved : removeLiquidity key amount pool = .ok returned after) :
    pool.Shrunk key amount returned after := by
  have hbooks := h.bookkept
  have hafter := (h.of_removeLiquidity hremoved).bookkept
  obtain ⟨staged, position, amounts, between, hopen, hadjusted, rfl, hafterEq⟩ :=
    removed_of_removeLiquidity hremoved
  have hdelta : -(amount : ℤ) ≠ 0 := by omega
  have hchanged := Position.adjusted_of_adjust hadjusted.position_eq
  rw [hadjusted.boundaries.growthInside_eq_within hbooks hdelta] at hchanged
  have hamount : amount ≤ (pool.position key).liquidity := by
    have hsum := hchanged.liquidity_eq
    omega
  have hpositions : after.positions = pool.positions.insert key
      ((pool.position key).shrunk (pool.growthWithin key) amount (amounts.map Int.natAbs)) := by
    rw [hafterEq, hchanged.credit_eq_shrunk]
  have hticks : after.ticks = between.ticks := by rw [hafterEq]
  have hfits : key.FitsPool pool.tickSpacing := ⟨hadjusted.lower_lt_upper, hadjusted.minTick_le,
    hadjusted.le_maxTick, hadjusted.spacing_dvd⟩
  refine ⟨hfits, hamount, ⟨after.ticks, after.positions, after.liquidity, ?_⟩, hpositions,
    fun tick hstored ↦ ?_, fun token ↦ ?_⟩
  · rw [hafterEq, hadjusted.pool_eq]
  · have hgross : after.positions.grossAt tick ≤ pool.positions.grossAt tick := by
      rw [hpositions]
      exact PositionTable.grossAt_shrunk_le hamount _ _ tick
    have hbefore := hbooks.isSome_of_grossAt_le hafter hgross hstored
    rw [snapshot_of_isSome hstored, snapshot_of_isSome hbefore, hticks]
    exact hadjusted.growthOutside_eq hbooks hbefore (hticks ▸ hstored)
  · rw [TokenPair.get_map, natAbs_rangeAmounts hfits (hbooks.stands hopen) (by omega)
      hadjusted.amounts_eq, Int.natAbs_neg, Int.natAbs_natCast]

/-- No more than what a position holds can be taken out. -/
theorem Reachable.exists_shrunk (h : pool.Reachable) (hpos : 0 < amount)
    (hheld : amount ≤ (pool.position key).liquidity) :
    ∃ returned after, removeLiquidity key amount pool = .ok returned after ∧
      pool.Shrunk key amount returned after := by
  have hliquidity : 0 < (pool.position key).liquidity := hpos.trans_le hheld
  obtain ⟨returned, after, hremoved⟩ := h.removeLiquidity_finishes
    (PositionTable.get?_of_liquidity_ne_zero hliquidity.ne') hliquidity hheld
  exact ⟨returned, after, hremoved, shrunk_of_removeLiquidity h hpos hremoved⟩

namespace Shrunk

variable (h : pool.Shrunk key amount returned after)

include h

theorem position_self :
    after.position key = (pool.position key).shrunk (pool.growthWithin key) amount returned := by
  rw [Pool.position, h.positions_eq, PositionTable.find_insert_self]

theorem liquidity_eq :
    (after.position key).liquidity = (pool.position key).liquidity - amount := by
  rw [h.position_self]
  rfl

theorem weigh_eq (weight : PositionKey → ℤ) :
    after.positions.weigh weight = pool.positions.weigh weight - weight key * amount := by
  rw [h.positions_eq]
  exact PositionTable.weigh_shrunk h.amount_le _ _ _

theorem grossAt_le (tick : ℤ) :
    after.positions.grossAt tick ≤ pool.positions.grossAt tick := by
  rw [h.positions_eq]
  exact PositionTable.grossAt_shrunk_le h.amount_le _ _ tick

/-- As long as liquidity is left, both ends of the range stay in use. -/
theorem growthWithin_eq (hafter : after.Bookkept) (hrest : amount < (pool.position key).liquidity) :
    after.growthWithin key = pool.growthWithin key := by
  have hheld : (after.position key).liquidity ≠ 0 := by
    rw [h.liquidity_eq]
    omega
  have hget := PositionTable.get?_of_liquidity_ne_zero hheld
  exact growthWithin_congr h.inBooks.tick_eq h.inBooks.growth_eq fun rangeEnd ↦
    h.snapshot_eq _ (hafter.isSome_of_isEnd hget hheld (key.isEnd_tickAt rangeEnd))

end Shrunk

end

end Pool

end RangeBook
