import Mathlib
import RangeBook.Proofs.Pool.LiquidityChange

/-!
# Laws of adding and removing liquidity

Three laws say that only the sum of the changes of liquidity counts.

Liquidity that is added in two parts, or taken out in two parts, makes of the pool what it makes at
once (`liquidity_splits`). Every part is rounded in favour of the pool, so the parts cost no less
and give back no more, by one unit at most. Liquidity that is added and taken out again leaves
nothing behind but what the position is owed (`addition_undone`). Additions to any positions finish
in either order, with the same amounts and the same pool (`additions_commute`).
-/

set_option autoImplicit false
set_option relaxedAutoImplicit false

namespace RangeBook

attribute [local irreducible] tickSqrtPrice tickAt

/-! ### Rounded parts -/

theorem ceil_parts_le {exact exact' : ℚ} (hexact : 0 ≤ exact) (hexact' : 0 ≤ exact') :
    ⌈exact⌉₊ + ⌈exact'⌉₊ ≤ ⌈exact + exact'⌉₊ + 1 := by
  have hparts := Int.ceil_add_ceil_le exact exact'
  rw [← Int.natCast_ceil_eq_ceil hexact, ← Int.natCast_ceil_eq_ceil hexact',
    ← Int.natCast_ceil_eq_ceil (add_nonneg hexact hexact')] at hparts
  omega

theorem floor_parts_between {exact exact' : ℚ} (hexact : 0 ≤ exact) (hexact' : 0 ≤ exact') :
    ⌊exact⌋₊ + ⌊exact'⌋₊ ≤ ⌊exact + exact'⌋₊ ∧ ⌊exact + exact'⌋₊ ≤ ⌊exact⌋₊ + ⌊exact'⌋₊ + 1 := by
  have hparts := Int.le_floor_add exact exact'
  have hwhole := Int.le_floor_add_floor exact exact'
  rw [← Int.natCast_floor_eq_floor hexact, ← Int.natCast_floor_eq_floor hexact',
    ← Int.natCast_floor_eq_floor (add_nonneg hexact hexact')] at hparts hwhole
  omega

namespace Pool

variable {pool between between' after after' : Pool} {key key' : PositionKey}
  {amount amount' first second : ℕ}

/-! ### Additions in parts -/

section

variable {brought brought' whole : TokenPair ℕ}

/-- An addition of known cost leaves what its call leaves. -/
theorem addLiquidity_of_cost
    (h : Prod.fst <$> (addLiquidity key amount).outcome pool = .ok brought) :
    addLiquidity key amount pool = .ok brought ((Call.addLiquidity key amount).leaves pool) := by
  cases hadded : addLiquidity key amount pool with
  | error failure after =>
    rw [Action.outcome, hadded] at h
    cases h
  | ok cost after =>
    rw [Action.outcome, hadded] at h
    obtain rfl : cost = brought := Except.ok.inj h
    rw [Call.leaves_of_ok (run_addLiquidity hadded)]

theorem Reachable.addLiquidity_parts_eq (h : pool.Reachable)
    (hfirst : addLiquidity key first pool = .ok brought between)
    (hsecond : addLiquidity key second between = .ok brought' after)
    (hwhole : addLiquidity key (first + second) pool = .ok whole after') : after' = after := by
  have hbetween := h.of_addLiquidity hfirst
  have hone := grown_of_addLiquidity h hfirst
  have htwo := grown_of_addLiquidity hbetween hsecond
  have hall := grown_of_addLiquidity h hwhole
  refine eq_of_positions (hbetween.of_addLiquidity hsecond).bookkept
    (h.of_addLiquidity hwhole).bookkept ((hone.inBooks.trans htwo.inBooks).of_common hall.inBooks)
    ?_ fun tick _ _ ↦ ?_
  · rw [hall.positions_eq, htwo.positions_eq, hone.growthWithin_eq, hone.position_self,
      Position.grown_grown, hone.positions_eq, OrderedMap.insert_insert]
  · rw [hall.snapshot_eq, htwo.snapshot_eq, hone.snapshot_eq]

/-- Liquidity can be added in parts where it can be added at once. -/
theorem Reachable.addLiquidity_parts_iff (h : pool.Reachable) (hpos : 0 < first)
    (hpos' : 0 < second) :
    (∃ brought brought' between, addLiquidity key first pool = .ok brought between ∧
      addLiquidity key second between = .ok brought' after) ↔
    ∃ whole, addLiquidity key (first + second) pool = .ok whole after := by
  constructor
  · rintro ⟨brought, brought', between, hfirst, hsecond⟩
    obtain ⟨hopen, hfits, -, hroom⟩ := (h.addLiquidity_after_iff hfirst).mp ⟨_, _, hsecond⟩
    obtain ⟨whole, after', hwhole⟩ := h.addLiquidity_finishes_iff.mpr
      ⟨hopen, hfits, Nat.add_pos_left hpos second, fun rangeEnd ↦ by
        have hend := hroom rangeEnd
        rwa [if_pos (key.isEnd_tickAt rangeEnd), Nat.add_assoc] at hend⟩
    exact ⟨whole, h.addLiquidity_parts_eq hfirst hsecond hwhole ▸ hwhole⟩
  · rintro ⟨whole, hwhole⟩
    obtain ⟨hopen, hfits, -, hroom⟩ := h.addLiquidity_finishes_iff.mp ⟨_, _, hwhole⟩
    obtain ⟨brought, between, hfirst⟩ := h.addLiquidity_finishes_iff.mpr
      ⟨hopen, hfits, hpos, fun rangeEnd ↦ by
        have hend := hroom rangeEnd
        omega⟩
    obtain ⟨brought', after', hsecond⟩ := (h.addLiquidity_after_iff hfirst).mpr
      ⟨hopen, hfits, hpos', fun rangeEnd ↦ by
        rw [if_pos (key.isEnd_tickAt rangeEnd), Nat.add_assoc]
        exact hroom rangeEnd⟩
    exact ⟨brought, brought', between, hfirst,
      h.addLiquidity_parts_eq hfirst hsecond hwhole ▸ hsecond⟩

theorem Grown.brought_between (hfirst : pool.Grown key first brought between)
    (hsecond : between.Grown key second brought' after)
    (hwhole : pool.Grown key (first + second) whole after') (token : Token) :
    whole.get token ≤ brought.get token + brought'.get token ∧
      brought.get token + brought'.get token ≤ whole.get token + 1 := by
  rw [hfirst.brought_eq, hsecond.brought_eq, hwhole.brought_eq, hfirst.inBooks.rangeReserve_eq,
    Nat.cast_add, add_mul]
  exact ⟨Nat.ceil_add_le _ _, ceil_parts_le (reserve_nonneg hfirst.fits first token)
    (reserve_nonneg hfirst.fits second token)⟩

end

/-! ### Removals in parts -/

section

variable {returned returned' whole : TokenPair ℕ}

theorem exists_rest {less more : TokenPair ℕ} (h : ∀ token, less.get token ≤ more.get token) :
    ∃ rest : TokenPair ℕ, more = less.zipWith (· + ·) rest := by
  refine ⟨more.zipWith (· - ·) less, TokenPair.ext_get fun token ↦ ?_⟩
  rw [TokenPair.get_zipWith, TokenPair.get_zipWith, Nat.add_sub_cancel' (h token)]

theorem Shrunk.returned_between (hfirst : pool.Shrunk key first returned between)
    (hsecond : between.Shrunk key second returned' after)
    (hwhole : pool.Shrunk key (first + second) whole after') (token : Token) :
    returned.get token + returned'.get token ≤ whole.get token ∧
      whole.get token ≤ returned.get token + returned'.get token + 1 := by
  rw [hfirst.returned_eq, hsecond.returned_eq, hwhole.returned_eq, hfirst.inBooks.rangeReserve_eq,
    Nat.cast_add, add_mul]
  exact floor_parts_between (reserve_nonneg hfirst.fits first token)
    (reserve_nonneg hfirst.fits second token)

theorem Shrunk.positions_parts (hfirst : pool.Shrunk key first returned between)
    (hsecond : between.Shrunk key second returned' after)
    (hinside : between.growthWithin key = pool.growthWithin key) :
    after.positions = pool.positions.insert key ((pool.position key).shrunk (pool.growthWithin key)
      (first + second) (returned.zipWith (· + ·) returned')) := by
  rw [hsecond.positions_eq, hinside, hfirst.position_self, Position.shrunk_shrunk,
    hfirst.positions_eq, OrderedMap.insert_insert]

/-- The position is owed for the parts what it is owed for the whole, less a shortfall. -/
theorem Shrunk.positions_shortfall (hfirst : pool.Shrunk key first returned between)
    (hsecond : between.Shrunk key second returned' after)
    (hwhole : pool.Shrunk key (first + second) whole after')
    (hinside : between.growthWithin key = pool.growthWithin key) :
    ∃ shortfall : TokenPair ℕ, (∀ token, shortfall.get token ≤ 1 ∧
        whole.get token = returned.get token + returned'.get token + shortfall.get token) ∧
      after'.positions = after.positions.insert key ((after.position key).credit shortfall) := by
  have hreturned := hfirst.returned_between hsecond hwhole
  have hparts := hfirst.positions_parts hsecond hinside
  have hposition : after.position key = (pool.position key).shrunk (pool.growthWithin key)
      (first + second) (returned.zipWith (· + ·) returned') := by
    rw [Pool.position, hparts, PositionTable.find_insert_self]
  obtain ⟨shortfall, hshortfall⟩ : ∃ shortfall : TokenPair ℕ,
      whole = (returned.zipWith (· + ·) returned').zipWith (· + ·) shortfall :=
    exists_rest fun token ↦ by
      rw [TokenPair.get_zipWith]
      exact (hreturned token).1
  refine ⟨shortfall, fun token ↦ ?_, ?_⟩
  · have hbounds := hreturned token
    rw [hshortfall, TokenPair.get_zipWith, TokenPair.get_zipWith] at hbounds ⊢
    omega
  · rw [hwhole.positions_eq, hposition, Position.credit_shrunk, ← hshortfall, hparts,
      OrderedMap.insert_insert]

/-- What is left when liquidity is taken out at once is what is left when it is taken out in parts,
but for what the parts give back less. -/
theorem Reachable.removeLiquidity_parts_eq (h : pool.Reachable) (hpos : 0 < first)
    (hpos' : 0 < second) (hfirst : removeLiquidity key first pool = .ok returned between)
    (hsecond : removeLiquidity key second between = .ok returned' after)
    (hwhole : removeLiquidity key (first + second) pool = .ok whole after') :
    ∃ shortfall : TokenPair ℕ, (∀ token, shortfall.get token ≤ 1 ∧
        whole.get token = returned.get token + returned'.get token + shortfall.get token) ∧
      after' = { after with
        positions := after.positions.insert key ((after.position key).credit shortfall) } := by
  have hbetween := h.of_removeLiquidity hfirst
  have hafter := hbetween.of_removeLiquidity hsecond
  have hone := shrunk_of_removeLiquidity h hpos hfirst
  have htwo := shrunk_of_removeLiquidity hbetween hpos' hsecond
  have hall := shrunk_of_removeLiquidity h (Nat.add_pos_left hpos second) hwhole
  have hinside := hone.growthWithin_eq hbetween.bookkept
    (lt_of_lt_of_le (Nat.lt_add_of_pos_right hpos') hall.amount_le)
  obtain ⟨shortfall, hshortfall, hpositions⟩ := hone.positions_shortfall htwo hall hinside
  refine ⟨shortfall, hshortfall, ?_⟩
  rw [← hpositions]
  refine eq_of_weigh hafter.bookkept (h.of_removeLiquidity hwhole).bookkept
    ((hone.inBooks.trans htwo.inBooks).of_common hall.inBooks) (fun weight ↦ ?_)
    fun tick hstored hstored' ↦ ?_
  · rw [hall.weigh_eq, htwo.weigh_eq, hone.weigh_eq]
    push_cast
    ring
  · -- A tick that is still in use after both parts was in use between them.
    have hheld := hbetween.bookkept.isSome_of_grossAt_le hafter.bookkept (htwo.grossAt_le tick)
      hstored
    rw [hall.snapshot_eq tick hstored', htwo.snapshot_eq tick hstored, hone.snapshot_eq tick hheld]

end

/-! ### Changes in parts -/

/-- Adding liquidity in two parts against adding it at once. -/
structure AdditionSplits (pool : Pool) (key : PositionKey) (first second : ℕ) : Prop where
  /-- The whole finishes where there is room for it at both ends of the range. -/
  whole_iff : (∃ whole after, addLiquidity key (first + second) pool = .ok whole after) ↔
    pool.IsOpen ∧ key.FitsPool pool.tickSpacing ∧ ∀ rangeEnd,
      pool.positions.grossAt (key.tickAt rangeEnd) + (first + second) ≤ pool.liquidityCap
  /-- Both parts finish where the whole does, and leave the same pool. -/
  finishes_iff : ∀ after,
    (∃ brought brought' between, addLiquidity key first pool = .ok brought between ∧
      addLiquidity key second between = .ok brought' after) ↔
    ∃ whole, addLiquidity key (first + second) pool = .ok whole after
  /-- The parts cost no less, and at most one unit more. -/
  cost_between : ∀ {brought brought' whole between after after'},
    addLiquidity key first pool = .ok brought between →
    addLiquidity key second between = .ok brought' after →
    addLiquidity key (first + second) pool = .ok whole after' →
    ∀ token, whole.get token ≤ brought.get token + brought'.get token ∧
      brought.get token + brought'.get token ≤ whole.get token + 1

/-- Taking liquidity out in two parts against taking it out at once: all of it finishes. The parts
give back no more, and at most one unit less. The pool that is left is the same, but for this
shortfall in what the position is owed. -/
def RemovalSplits (pool : Pool) (key : PositionKey) (first second : ℕ) : Prop :=
  ∃ returned returned' whole between after after',
    removeLiquidity key first pool = .ok returned between ∧
    removeLiquidity key second between = .ok returned' after ∧
    removeLiquidity key (first + second) pool = .ok whole after' ∧
    ∃ shortfall : TokenPair ℕ, (∀ token, shortfall.get token ≤ 1 ∧
        whole.get token = returned.get token + returned'.get token + shortfall.get token) ∧
      after' = { after with
        positions := after.positions.insert key ((after.position key).credit shortfall) }

/-- Liquidity that is added or taken out in two parts makes of a pool what it makes at once. -/
theorem liquidity_splits (h : pool.Reachable) (hpos : 0 < first) (hpos' : 0 < second) :
    pool.AdditionSplits key first second ∧
      (first + second ≤ (pool.position key).liquidity → pool.RemovalSplits key first second) := by
  have hsum : 0 < first + second := Nat.add_pos_left hpos second
  refine ⟨⟨?_, fun _ ↦ h.addLiquidity_parts_iff hpos hpos', fun hfirst hsecond hwhole ↦ ?_⟩,
    fun hheld ↦ ?_⟩
  · rw [h.addLiquidity_finishes_iff, and_iff_right hsum]
  · exact (grown_of_addLiquidity h hfirst).brought_between
      (grown_of_addLiquidity (h.of_addLiquidity hfirst) hsecond) (grown_of_addLiquidity h hwhole)
  · obtain ⟨returned, between, hfirst, hone⟩ :=
      h.exists_shrunk hpos ((Nat.le_add_right first second).trans hheld)
    have hrest : second ≤ (between.position key).liquidity := by
      rw [hone.liquidity_eq]
      omega
    obtain ⟨returned', after, hsecond, -⟩ := (h.of_removeLiquidity hfirst).exists_shrunk hpos' hrest
    obtain ⟨whole, after', hwhole, -⟩ := h.exists_shrunk hsum hheld
    exact ⟨returned, returned', whole, between, after, after', hfirst, hsecond, hwhole,
      h.removeLiquidity_parts_eq hpos hpos' hfirst hsecond hwhole⟩

/-- The last part of a position frees both ends of its range. The parts give back one unit less of
each token than the whole. -/
theorem liquidity_splits_wholePosition :
    let key : PositionKey := ⟨1, -60, 60⟩
    let between := (Call.removeLiquidity key 500100).leaves twoRanges
    (twoRanges.AdditionSplits key 500100 499900 ∧ twoRanges.RemovalSplits key 500100 499900) ∧
      Prod.fst <$> (removeLiquidity key 500100).outcome twoRanges = .ok ⟨1497, 1497⟩ ∧
      Prod.fst <$> (removeLiquidity key 499900).outcome between = .ok ⟨1497, 1497⟩ ∧
      Prod.fst <$> (removeLiquidity key 1000000).outcome twoRanges = .ok ⟨2995, 2995⟩ := by
  intro key between
  have hsplits : twoRanges.AdditionSplits key 500100 499900 ∧
      (500100 + 499900 ≤ (twoRanges.position key).liquidity →
        twoRanges.RemovalSplits key 500100 499900) :=
    liquidity_splits twoRanges_reachable (by decide) (by decide)
  have hheld : 500100 + 499900 ≤ (twoRanges.position key).liquidity := by decide +kernel
  exact ⟨⟨hsplits.1, hsplits.2 hheld⟩, by decide +kernel, by decide +kernel, by decide +kernel⟩

/-! ### Additions that are undone -/

section

variable {brought brought' : TokenPair ℕ}

/-- What is left of an addition that was taken out again. -/
structure AdditionUndone (pool : Pool) (key : PositionKey) (brought returned : TokenPair ℕ)
    (after : Pool) : Prop where
  returned_between : ∀ token, returned.get token ≤ brought.get token ∧
    brought.get token ≤ returned.get token + 1
  /-- The ticks, the liquidity, the price, the growth, the protocol's fees and the orders are what
  they were, as is all else that is not a position. -/
  pool_eq : after = { pool with positions := after.positions }
  others_eq : ∀ other, other ≠ key → after.positions.get? other = pool.positions.get? other
  liquidity_eq : (after.position key).liquidity = (pool.position key).liquidity

/-- Liquidity that was added can be taken out again, and nothing is left behind but what the
position is owed. -/
theorem addition_undone (h : pool.Reachable)
    (hadded : addLiquidity key amount pool = .ok brought between) :
    ∃ returned after, removeLiquidity key amount between = .ok returned after ∧
      pool.AdditionUndone key brought returned after := by
  have hgrown := grown_of_addLiquidity h hadded
  have hbetween := h.of_addLiquidity hadded
  have hpos := (h.addLiquidity_finishes_iff.mp ⟨_, _, hadded⟩).2.2.1
  have hliquidity : (between.position key).liquidity = (pool.position key).liquidity + amount := by
    rw [hgrown.position_self]
    rfl
  obtain ⟨returned, after, hremoved, hshrunk⟩ := hbetween.exists_shrunk hpos
    (hliquidity ▸ Nat.le_add_left _ _ : amount ≤ (between.position key).liquidity)
  refine ⟨returned, after, hremoved, fun token ↦ ?_, ?_, fun other hother ↦ ?_, ?_⟩
  · rw [hshrunk.returned_eq, hgrown.brought_eq, hgrown.inBooks.rangeReserve_eq]
    exact ⟨Nat.floor_le_ceil _, Nat.ceil_le_floor_add_one _⟩
  · refine eq_of_weigh h.bookkept (hbetween.of_removeLiquidity hremoved).bookkept
      (hgrown.inBooks.trans hshrunk.inBooks) (fun weight ↦ ?_) fun tick _ hstored ↦ ?_
    · rw [hshrunk.weigh_eq, hgrown.weigh_eq, add_sub_cancel_right]
    · rw [hshrunk.snapshot_eq tick hstored, hgrown.snapshot_eq]
  · rw [hshrunk.positions_eq, hgrown.positions_eq, OrderedMap.insert_insert,
      OrderedMap.get?_insert_of_ne _ _ hother]
  · rw [hshrunk.liquidity_eq, hliquidity, Nat.add_sub_cancel]

/-- A range with one end that was not in use, which is gone again afterwards. -/
theorem addition_undone_newBoundary :
    let key : PositionKey := ⟨3, -120, 60⟩
    let between := (Call.addLiquidity key 1000).leaves twoRanges
    addLiquidity key 1000 twoRanges = .ok ⟨3, 6⟩ between ∧
      (∃ returned after, removeLiquidity key 1000 between = .ok returned after ∧
        twoRanges.AdditionUndone key ⟨3, 6⟩ returned after) ∧
      (between.ticks.get? (-120)).isSome ∧ twoRanges.ticks.get? (-120) = none := by
  intro key between
  have hadded : addLiquidity key 1000 twoRanges = .ok ⟨3, 6⟩ between :=
    addLiquidity_of_cost (by decide +kernel)
  exact ⟨hadded, addition_undone twoRanges_reachable hadded, by decide +kernel, by decide +kernel⟩

/-! ### The order of additions -/

/-- The cost of an addition does not depend on what else is in the pool. -/
theorem Grown.brought_unique {left left' right right' : Pool}
    (hleft : left.Grown key amount brought left')
    (hright : right.Grown key amount brought' right') (hbooks : left.DiffersInBooks right) :
    brought = brought' := by
  refine TokenPair.ext_get fun token ↦ ?_
  rw [hleft.brought_eq, hright.brought_eq, hbooks.rangeReserve_eq]

theorem Grown.positions_comm (hfirst : pool.Grown key amount brought between)
    (hsecond : between.Grown key' amount' brought' after)
    (hfirst' : pool.Grown key' amount' brought' between')
    (hsecond' : between'.Grown key amount brought after') :
    after'.positions = after.positions := by
  rw [hsecond.positions_eq, hsecond'.positions_eq, hfirst.growthWithin_eq, hfirst'.growthWithin_eq,
    hfirst.positions_eq, hfirst'.positions_eq]
  by_cases hsame : key = key'
  · subst hsame
    rw [hfirst.position_self, hfirst'.position_self, Position.grown_grown, Position.grown_grown,
      OrderedMap.insert_insert, OrderedMap.insert_insert, Nat.add_comm]
  · rw [hfirst.position_of_ne (Ne.symm hsame), hfirst'.position_of_ne hsame]
    exact OrderedMap.insert_comm _ (Ne.symm hsame) _ _

theorem Reachable.additions_finish_swapped (h : pool.Reachable)
    (hfirst : addLiquidity key amount pool = .ok brought between)
    (hsecond : addLiquidity key' amount' between = .ok brought' after) :
    ∃ costs' costs between' after', addLiquidity key' amount' pool = .ok costs' between' ∧
      addLiquidity key amount between' = .ok costs after' := by
  obtain ⟨hopen, hfits, hpos, hroom⟩ := h.addLiquidity_finishes_iff.mp ⟨_, _, hfirst⟩
  obtain ⟨-, hfits', hpos', hroom'⟩ := (h.addLiquidity_after_iff hfirst).mp ⟨_, _, hsecond⟩
  obtain ⟨costs', between', hfirst'⟩ := h.addLiquidity_finishes_iff.mpr
    ⟨hopen, hfits', hpos', fun rangeEnd ↦ by
      have hend := hroom' rangeEnd
      omega⟩
  -- At a shared end the second addition was checked on top of the first, which is the same sum.
  have hswapped : ∀ rangeEnd, pool.positions.grossAt (key.tickAt rangeEnd) +
      (if key'.IsEnd (key.tickAt rangeEnd) then amount' else 0) + amount ≤ pool.liquidityCap := by
    intro rangeEnd
    by_cases hshared : key'.IsEnd (key.tickAt rangeEnd)
    · obtain ⟨rangeEnd', hsame⟩ := PositionKey.isEnd_iff.mp hshared
      have hend := hroom' rangeEnd'
      rw [← hsame, if_pos (key.isEnd_tickAt rangeEnd)] at hend
      rw [if_pos hshared]
      omega
    · rw [if_neg hshared]
      exact hroom rangeEnd
  obtain ⟨costs, after', hsecond'⟩ :=
    (h.addLiquidity_after_iff hfirst').mpr ⟨hopen, hfits, hpos, hswapped⟩
  exact ⟨costs', costs, between', after', hfirst', hsecond'⟩

/-- Two additions that finish one after the other finish in the other order too, each at the same
cost, and leave the same pool. -/
theorem additions_commute (h : pool.Reachable)
    (hfirst : addLiquidity key amount pool = .ok brought between)
    (hsecond : addLiquidity key' amount' between = .ok brought' after) :
    ∃ between', addLiquidity key' amount' pool = .ok brought' between' ∧
      addLiquidity key amount between' = .ok brought after := by
  obtain ⟨costs', costs, between', after', hfirst', hsecond'⟩ :=
    h.additions_finish_swapped hfirst hsecond
  have hbetween := h.of_addLiquidity hfirst
  have hbetween' := h.of_addLiquidity hfirst'
  have hone := grown_of_addLiquidity h hfirst
  have htwo := grown_of_addLiquidity hbetween hsecond
  have hone' := grown_of_addLiquidity h hfirst'
  have htwo' := grown_of_addLiquidity hbetween' hsecond'
  obtain rfl := hone'.brought_unique htwo hone.inBooks
  obtain rfl := hone.brought_unique htwo' hone'.inBooks
  have hsame : after' = after := by
    refine eq_of_positions (hbetween.of_addLiquidity hsecond).bookkept
      (hbetween'.of_addLiquidity hsecond').bookkept
      ((hone.inBooks.trans htwo.inBooks).of_common (hone'.inBooks.trans htwo'.inBooks))
      (hone.positions_comm htwo hone' htwo') fun tick _ _ ↦ ?_
    rw [htwo'.snapshot_eq, hone'.snapshot_eq, htwo.snapshot_eq, hone.snapshot_eq]
  exact ⟨between', hfirst', hsame ▸ hsecond'⟩

/-- Two ranges that share the tick between them, each with a new end of its own. -/
theorem additions_commute_sharedBoundary :
    let between := (Call.addLiquidity ⟨3, -120, 60⟩ 1000).leaves twoRanges
    let after := (Call.addLiquidity ⟨4, 60, 180⟩ 2000).leaves between
    addLiquidity ⟨3, -120, 60⟩ 1000 twoRanges = .ok ⟨3, 6⟩ between ∧
      addLiquidity ⟨4, 60, 180⟩ 2000 between = .ok ⟨12, 0⟩ after ∧
      ∃ between', addLiquidity ⟨4, 60, 180⟩ 2000 twoRanges = .ok ⟨12, 0⟩ between' ∧
        addLiquidity ⟨3, -120, 60⟩ 1000 between' = .ok ⟨3, 6⟩ after := by
  intro between after
  have hfirst : addLiquidity ⟨3, -120, 60⟩ 1000 twoRanges = .ok ⟨3, 6⟩ between :=
    addLiquidity_of_cost (by decide +kernel)
  have hsecond : addLiquidity ⟨4, 60, 180⟩ 2000 between = .ok ⟨12, 0⟩ after :=
    addLiquidity_of_cost (by decide +kernel)
  exact ⟨hfirst, hsecond, additions_commute twoRanges_reachable hfirst hsecond⟩

end

end Pool

end RangeBook
