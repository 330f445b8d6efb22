import Mathlib
import RangeBook.Proofs.Book.Queue
import RangeBook.Proofs.Pool.GrowthInside

/-!
# A pool without orders never owes more than it took in

What a pool owes is more than the amounts that it has written down for its owners and for the
protocol. Each position also holds a reserve, the exact amounts that its liquidity would give at
the present price, and fees that grew inside its range since it was last adjusted. The claims of a
token are the sum of all this as exact fractions (`claims`).

Every call brings at least as much of each token as it adds to the claims (`claims_le_of_finished`).
The roundings all err on the side of the pool: an amount taken in is at least the exact one, an
amount given out or credited at most the exact one, growth is rounded down, and what is kept modulo
a width is at most the sum. A move of the price shifts the reserves of the ranges around it
(`unitReserve_shift`) and of no others, because no boundary tick lies on its way.

So a run without orders never pays out, or writes down as owed, more than it took in
(`range_solvency`).
-/

set_option autoImplicit false
set_option relaxedAutoImplicit false

namespace RangeBook

attribute [local irreducible] tickSqrtPrice tickAt

open Curve

/-! ### Reserves -/

/-- The exact amount of a token that one unit of liquidity in a range holds at a price. -/
def unitReserve (token : Token) (low high price : ℕ) : ℚ :=
  match token with
  | .zero => height .zero high - height .zero (max low (min price high))
  | .one => height .one (max low (min price high)) - height .one low

variable {token : Token} {low high price price' : ℕ}

theorem unitReserve_nonneg (hlow : 0 < low) (hle : low ≤ high) :
    0 ≤ unitReserve token low high price := by
  have hmin : low ≤ max low (min price high) := le_max_left _ _
  have hmax : max low (min price high) ≤ high := max_le hle (min_le_right _ _)
  cases token
  · exact sub_nonneg.mpr (height_le_height (lt_of_lt_of_le hlow hmin) hmax)
  · exact sub_nonneg.mpr (height_le_height hlow hmin)

theorem unitReserve_of_le_low (hprice : price ≤ low) :
    unitReserve token low high price =
      match token with
      | .zero => height .zero high - height .zero low
      | .one => 0 := by
  have hat : max low (min price high) = low :=
    max_eq_left (le_trans (min_le_left _ _) hprice)
  cases token
  · rw [unitReserve, hat]
  · exact sub_eq_zero.mpr (congrArg (height .one) hat)

theorem unitReserve_of_high_le (hle : low ≤ high) (hprice : high ≤ price) :
    unitReserve token low high price =
      match token with
      | .zero => 0
      | .one => height .one high - height .one low := by
  have hat : max low (min price high) = high := by
    rw [min_eq_right hprice, max_eq_right hle]
  cases token
  · exact sub_eq_zero.mpr (congrArg (height .zero) hat.symm)
  · rw [unitReserve, hat]

theorem unitReserve_of_between (hlow : low ≤ price) (hhigh : price ≤ high) :
    unitReserve token low high price =
      match token with
      | .zero => height .zero high - height .zero price
      | .one => height .one price - height .one low := by
  have hat : max low (min price high) = price := by
    rw [min_eq_left hhigh, max_eq_right hlow]
  cases token <;> rw [unitReserve, hat]

/-- What a move of the price within a range shifts into the reserve of one unit of liquidity. -/
def unitShift (token : Token) (price price' : ℕ) : ℚ :=
  match token with
  | .zero => height .zero price - height .zero price'
  | .one => height .one price' - height .one price

theorem unitReserve_shift (hlow : low ≤ price) (hhigh : price ≤ high) (hlow' : low ≤ price')
    (hhigh' : price' ≤ high) :
    unitReserve token low high price' =
      unitReserve token low high price + unitShift token price price' := by
  rw [unitReserve_of_between hlow hhigh, unitReserve_of_between hlow' hhigh']
  cases token <;> simp only [unitShift] <;> ring

/-- Along the way of a price the token paid shifts in and the other one shifts out, each by the
exact amount between the two prices. -/
theorem mul_unitShift {paid : Token} (liquidity : ℕ) (hleads : paid.Leads price price') :
    liquidity * unitShift paid price price' = exactAmount paid price price' liquidity ∧
      liquidity * unitShift paid.other price price' =
        -exactAmount paid.other price price' liquidity := by
  cases paid with
  | zero =>
    have hle : price' ≤ price := hleads
    rw [exactAmount_comm, exactAmount_of_le hle, exactAmount_comm, Token.other,
      exactAmount_of_le hle, unitShift, unitShift]
    exact ⟨rfl, by ring⟩
  | one =>
    have hle : price ≤ price' := hleads
    rw [exactAmount_of_le hle, Token.other, exactAmount_of_le hle, unitShift, unitShift]
    exact ⟨rfl, by ring⟩

/-! ### Amounts of a change of liquidity -/

/-- The amount that a change of liquidity brings is the exact one rounded up, so that it is rounded
towards zero where liquidity is taken away. -/
theorem amountDelta_eq_ceil {delta amount : ℤ} (hpos : 0 < low) (hle : low ≤ high)
    (h : amountDelta token low high delta = .ok amount) :
    amount = ⌈(delta : ℚ) * (height token high - height token low)⌉ := by
  have hexact : exactAmount token low high delta.natAbs =
      (|delta| : ℤ) * (height token high - height token low) := by
    rw [exactAmount_of_le hle, Nat.cast_natAbs]
  have hnonneg : 0 ≤ exactAmount token low high delta.natAbs := by
    rw [exactAmount_of_le hle]
    exact mul_nonneg (Nat.cast_nonneg _) (sub_nonneg.mpr (height_le_height hpos hle))
  unfold amountDelta at h
  split at h
  · rename_i hneg
    obtain ⟨given, hgiven, h⟩ := bind_eq_ok.mp h
    obtain ⟨owed, howed, h⟩ := bind_eq_ok.mp h
    obtain ⟨-, rfl⟩ := within_eq_ok.mp howed
    have hfloor : given = ⌊exactAmount token low high delta.natAbs⌋₊ := amount_eq_round hgiven
    rw [← Except.ok.inj h, hfloor, Int.natCast_floor_eq_floor hnonneg, ← Int.ceil_neg, hexact,
      abs_of_neg hneg, Int.cast_neg, neg_mul, neg_neg]
  · rename_i hpos
    obtain ⟨taken, htaken, h⟩ := bind_eq_ok.mp h
    obtain ⟨-, rfl⟩ := within_eq_ok.mp h
    have hceil : taken = ⌈exactAmount token low high delta.natAbs⌉₊ := amount_eq_round htaken
    rw [hceil, Int.natCast_ceil_eq_ceil hnonneg, hexact, abs_of_nonneg (not_lt.mp hpos)]

namespace Pool

variable {pool after : Pool} {key : PositionKey} {delta : ℤ}

/-- The exact amount of a token that one unit of liquidity in a range holds at the pool's price. -/
def rangeReserve (pool : Pool) (key : PositionKey) (token : Token) : ℚ :=
  unitReserve token (tickSqrtPrice key.lower) (tickSqrtPrice key.upper) pool.sqrtPrice

theorem sqrtPrice_ends (horder : key.lower < key.upper) (hmin : minTick ≤ key.lower)
    (hmax : key.upper ≤ maxTick) :
    0 < tickSqrtPrice key.lower ∧ tickSqrtPrice key.lower ≤ tickSqrtPrice key.upper := by
  have hle : tickSqrtPrice minTick ≤ tickSqrtPrice key.lower :=
    (tickSqrtPrice_le_iff le_rfl (by decide) hmin (by omega)).mpr hmin
  rw [tickSqrtPrice_minTick] at hle
  exact ⟨lt_of_lt_of_le (by decide) hle,
    (tickSqrtPrice_le_iff hmin (by omega) (by omega) hmax).mpr horder.le⟩

theorem rangeReserve_nonneg (horder : key.lower < key.upper) (hmin : minTick ≤ key.lower)
    (hmax : key.upper ≤ maxTick) (token : Token) : 0 ≤ pool.rangeReserve key token := by
  obtain ⟨hpos, hle⟩ := sqrtPrice_ends horder hmin hmax
  exact unitReserve_nonneg hpos hle

/-- The amounts that a change of liquidity brings are its exact reserves rounded up. -/
theorem rangeAmounts_eq_ceil {liquidity : ℕ} {amounts : TokenPair ℤ}
    (horder : key.lower < key.upper) (hmin : minTick ≤ key.lower) (hmax : key.upper ≤ maxTick)
    (hstands : StandsAt pool.tick pool.sqrtPrice)
    (h : pool.rangeAmounts key.lower key.upper delta = .ok (liquidity, amounts)) (token : Token) :
    amounts.get token = ⌈(delta : ℚ) * pool.rangeReserve key token⌉ := by
  obtain ⟨hpos, hle⟩ := sqrtPrice_ends horder hmin hmax
  have hnothing : (0 : ℤ) = ⌈(delta : ℚ) * 0⌉ := by rw [mul_zero, Int.ceil_zero]
  unfold rangeReserve
  unfold rangeAmounts at h
  split at h
  · rename_i hzero
    rw [← (Prod.mk.inj (Except.ok.inj h)).2, hzero, Int.cast_zero, zero_mul, Int.ceil_zero]
    cases token <;> rfl
  split at h
  · rename_i hbelow
    obtain ⟨zero, hzero, h⟩ := bind_eq_ok.mp h
    rw [← (Prod.mk.inj (Except.ok.inj h)).2,
      unitReserve_of_le_low (hstands.le_tickSqrtPrice (by omega) hbelow)]
    cases token with
    | zero => exact amountDelta_eq_ceil hpos hle hzero
    | one => exact hnothing
  rename_i habove
  have hlow := hstands.tickSqrtPrice_le hmin (not_lt.mp habove)
  split at h
  · rename_i hinside
    have hhigh := hstands.le_tickSqrtPrice hmax hinside
    obtain ⟨zero, hzero, h⟩ := bind_eq_ok.mp h
    obtain ⟨one, hone, h⟩ := bind_eq_ok.mp h
    obtain ⟨sum, -, h⟩ := bind_eq_ok.mp h
    rw [← (Prod.mk.inj (Except.ok.inj h)).2, unitReserve_of_between hlow hhigh]
    cases token with
    | zero => exact amountDelta_eq_ceil hstands.price_pos hhigh hzero
    | one => exact amountDelta_eq_ceil hpos hlow hone
  · rename_i houtside
    obtain ⟨one, hone, h⟩ := bind_eq_ok.mp h
    rw [← (Prod.mk.inj (Except.ok.inj h)).2,
      unitReserve_of_high_le hle (hstands.tickSqrtPrice_le (by omega) (not_lt.mp houtside))]
    cases token with
    | zero => exact hnothing
    | one => exact amountDelta_eq_ceil hpos hle hone

/-- The amounts that a change of liquidity brings are at least its exact reserves, and none of them
is positive where liquidity is taken away. -/
theorem reserve_le_rangeAmounts {liquidity : ℕ} {amounts : TokenPair ℤ}
    (horder : key.lower < key.upper) (hmin : minTick ≤ key.lower) (hmax : key.upper ≤ maxTick)
    (hstands : StandsAt pool.tick pool.sqrtPrice)
    (h : pool.rangeAmounts key.lower key.upper delta = .ok (liquidity, amounts)) (token : Token) :
    (delta : ℚ) * pool.rangeReserve key token ≤ amounts.get token ∧
      (delta ≤ 0 → amounts.get token ≤ 0) := by
  rw [rangeAmounts_eq_ceil horder hmin hmax hstands h]
  refine ⟨Int.le_ceil _, fun hdelta ↦ Int.ceil_nonpos.mpr ?_⟩
  exact mul_nonpos_of_nonpos_of_nonneg (Int.cast_nonpos.mpr hdelta)
    (rangeReserve_nonneg horder hmin hmax token)

/-! ### Claims -/

/-- The fees per unit of liquidity that grew inside the range of a position since it was last
adjusted. -/
def pendingGrowth (pool : Pool) (key : PositionKey) (position : Position) (token : Token) : ℚ :=
  ((pool.growthInside key.lower key.upper).get token - position.growthInside.get token).toNat /
    2 ^ 128

/-- What a position has a claim to: the amount owed, its reserve and its pending fees. -/
def stake (pool : Pool) (token : Token) (key : PositionKey) (position : Position) : ℚ :=
  position.owed.get token +
    position.liquidity * (pool.rangeReserve key token + pool.pendingGrowth key position token)

/-- All that a pool has to hold of a token for its positions and for the protocol. -/
def claims (pool : Pool) (token : Token) : ℚ :=
  pool.positions.total (pool.stake token) + pool.protocolFees.get token

theorem pendingGrowth_nonneg (pool : Pool) (key : PositionKey) (position : Position)
    (token : Token) : 0 ≤ pool.pendingGrowth key position token := by
  unfold pendingGrowth
  positivity

/-- The fees that are credited are at most the pending ones. -/
theorem feesEarned_le {now last : Growth} {liquidity earned : ℕ}
    (h : Position.feesEarned now last liquidity = .ok earned) :
    (earned : ℚ) ≤ liquidity * ((now - last).toNat / 2 ^ 128) := by
  unfold Position.feesEarned at h
  obtain ⟨quotient, hquotient, h⟩ := bind_eq_ok.mp h
  rw [← Except.ok.inj h]
  obtain ⟨-, -, rfl⟩ := mulDivFloor_eq_ok.mp hquotient
  have hfloor := floor_le_div ((now - last).toNat * liquidity) (twoPow_pos 128)
  rw [Nat.cast_mul, cast_twoPow] at hfloor
  calc (wrap128 ((now - last).toNat * liquidity / twoPow 128) : ℚ)
      ≤ ((now - last).toNat * liquidity / twoPow 128 : ℕ) := by exact_mod_cast wrap128_le _
    _ ≤ (now - last).toNat * liquidity / 2 ^ 128 := hfloor
    _ = liquidity * ((now - last).toNat / 2 ^ 128) := by ring

/-- The stakes of all positions after one of them is written, where the others keep theirs. -/
theorem total_stake_insert (position : Position) (token : Token)
    (hothers : ∀ other p, other ≠ key → pool.positions.get? other = some p →
      after.stake token other p = pool.stake token other p) :
    OrderedMap.total (pool.positions.insert key position) (after.stake token) =
      pool.positions.total (pool.stake token) - pool.stake token key (pool.position key) +
        after.stake token key position := by
  have hat : OrderedMap.amountAt pool.positions (pool.stake token) key =
      pool.stake token key (pool.position key) := by
    rw [OrderedMap.amountAt, Pool.position, PositionTable.find]
    cases OrderedMap.get? pool.positions key with
    | some position => rfl
    | none =>
      have howed : Position.blank.owed.get token = 0 := by cases token <;> rfl
      rw [Option.elim_none, Option.getD_none, stake, howed]
      exact (by norm_num [Position.blank])
  have hwritten : OrderedMap.amountAt (pool.positions.insert key position) (after.stake token) key =
      after.stake token key position := by
    rw [OrderedMap.amountAt, OrderedMap.get?_insert_self, Option.elim_some]
  have hsum := OrderedMap.total_add_amountAt (pool.stake token) (after.stake token) key
    (fun other hother ↦ OrderedMap.get?_insert_of_ne pool.positions position hother) hothers
  rw [hat, hwritten] at hsum
  linarith

/-- A stake depends on the price and on the growth inside its range, where it holds liquidity. -/
theorem stake_congr {position : Position} (token : Token)
    (hprice : after.sqrtPrice = pool.sqrtPrice)
    (hinside : position.liquidity ≠ 0 →
      after.growthInside key.lower key.upper = pool.growthInside key.lower key.upper) :
    after.stake token key position = pool.stake token key position := by
  unfold stake rangeReserve pendingGrowth
  by_cases hzero : position.liquidity = 0
  · rw [hzero, Nat.cast_zero, zero_mul, zero_mul]
  · rw [hprice, hinside hzero]

/-! ### Changes of liquidity -/

section Adjusted

variable {staged : TickTable} {position : Position} {amounts : TokenPair ℤ}

/-- The stakes of the other positions stay as they are. -/
theorem RangeAdjusted.stake_other
    (hadjusted : pool.RangeAdjusted key delta staged position amounts after) (h : pool.Bookkept)
    (hafter : after.Bookkept) {other : PositionKey} {p : Position} (hne : other ≠ key)
    (hget : pool.positions.get? other = some p) (token : Token) :
    after.stake token other p = pool.stake token other p := by
  refine stake_congr token (by rw [hadjusted.pool_eq]) fun hliquidity ↦ ?_
  have hget' : after.positions.get? other = some p := by
    rw [hadjusted.positions_eq, OrderedMap.get?_insert_of_ne _ _ hne]
    exact hget
  exact hadjusted.growthInside_eq h (h.isSome_of_isEnd hget hliquidity (.inl rfl))
    (h.isSome_of_isEnd hget hliquidity (.inr rfl))
    (hafter.isSome_of_isEnd hget' hliquidity (.inl rfl))
    (hafter.isSome_of_isEnd hget' hliquidity (.inr rfl))

/-- Nothing is pending for the liquidity that a position holds once it is adjusted. -/
theorem RangeAdjusted.liquidity_mul_pendingGrowth
    (hadjusted : pool.RangeAdjusted key delta staged position amounts after)
    (hafter : after.Bookkept) (token : Token) :
    (position.liquidity : ℚ) * after.pendingGrowth key position token = 0 := by
  by_cases hzero : position.liquidity = 0
  · rw [hzero, Nat.cast_zero, zero_mul]
  have hget : after.positions.get? key = some position := by
    rw [hadjusted.positions_eq]
    exact OrderedMap.get?_insert_self _ _ _
  have hinside : after.growthInside key.lower key.upper =
      staged.growthInside key.lower key.upper pool.tick pool.growth := by
    change after.growthInside key.lower key.upper =
      ({ pool with ticks := staged } : Pool).growthInside key.lower key.upper
    refine growthInside_congr (by rw [hadjusted.pool_eq]) (by rw [hadjusted.pool_eq]) ?_ ?_
    · rw [hadjusted.find_eq (hafter.isSome_of_isEnd hget hzero (.inl rfl))]
    · rw [hadjusted.find_eq (hafter.isSome_of_isEnd hget hzero (.inr rfl))]
  have hlast := (Position.adjusted_of_adjust hadjusted.position_eq).growthInside_eq
  rw [pendingGrowth, hinside, hlast, sub_self, show (0 : Growth).toNat = 0 from rfl,
    Nat.cast_zero, zero_div, mul_zero]

/-- What is credited to a position as it is adjusted was pending. -/
theorem RangeAdjusted.owed_le
    (hadjusted : pool.RangeAdjusted key delta staged position amounts after) (h : pool.Bookkept)
    (token : Token) :
    (position.owed.get token : ℚ) ≤ (pool.position key).owed.get token +
      (pool.position key).liquidity * pool.pendingGrowth key (pool.position key) token := by
  obtain ⟨earned, hearned, howedEq⟩ :=
    (Position.adjusted_of_adjust hadjusted.position_eq).owed_eq token
  have hcredit : (earned : ℚ) ≤ (pool.position key).liquidity *
      pool.pendingGrowth key (pool.position key) token := by
    have hle := feesEarned_le hearned
    by_cases hzero : (pool.position key).liquidity = 0
    · rw [hzero, Nat.cast_zero, zero_mul] at hle ⊢
      exact hle
    have hget : pool.positions.get? key = some (pool.position key) :=
      PositionTable.get?_of_liquidity_ne_zero hzero
    have hinside : staged.growthInside key.lower key.upper pool.tick pool.growth =
        pool.growthInside key.lower key.upper :=
      hadjusted.boundaries.growthInside_eq h (h.isSome_of_isEnd hget hzero (.inl rfl))
        (h.isSome_of_isEnd hget hzero (.inr rfl))
    rw [hinside] at hle
    exact hle
  have hwrap : (position.owed.get token : ℚ) ≤ (pool.position key).owed.get token + earned := by
    rw [howedEq]
    exact_mod_cast wrap128_le _
  linarith

/-- The stake of the position that is adjusted grows by no more than the reserve of the change. -/
theorem RangeAdjusted.stake_le
    (hadjusted : pool.RangeAdjusted key delta staged position amounts after) (h : pool.Bookkept)
    (hafter : after.Bookkept) (token : Token) :
    after.stake token key position ≤
      pool.stake token key (pool.position key) + delta * pool.rangeReserve key token := by
  have hliquidity : (position.liquidity : ℚ) = (pool.position key).liquidity + delta := by
    exact_mod_cast hadjusted.liquidity_eq
  have hreserve : after.rangeReserve key token = pool.rangeReserve key token := by
    unfold rangeReserve
    rw [hadjusted.pool_eq]
  have hsplit : after.stake token key position =
      position.owed.get token + position.liquidity * pool.rangeReserve key token := by
    rw [stake, mul_add, hadjusted.liquidity_mul_pendingGrowth hafter, add_zero, hreserve]
  have howed := hadjusted.owed_le h token
  rw [hsplit, hliquidity, stake]
  linarith

/-- A change of liquidity adds to the claims no more than the reserve of the change. -/
theorem RangeAdjusted.claims_le
    (hadjusted : pool.RangeAdjusted key delta staged position amounts after) (h : pool.Bookkept)
    (hafter : after.Bookkept) (token : Token) :
    after.claims token ≤ pool.claims token + delta * pool.rangeReserve key token := by
  have hfees : after.protocolFees = pool.protocolFees := by rw [hadjusted.pool_eq]
  have hstake := hadjusted.stake_le h hafter token
  have htotal := total_stake_insert position token
    fun other p hne hget ↦ hadjusted.stake_other h hafter hne hget token
  unfold claims
  rw [hadjusted.positions_eq, htotal, hfees]
  linarith

end Adjusted

/-- Crediting a position adds to its stake no more than the amount credited. -/
theorem stake_credit_le (pool : Pool) (token : Token) (key : PositionKey) (position : Position)
    (amounts : TokenPair ℕ) :
    pool.stake token key (position.credit amounts) ≤
      pool.stake token key position + amounts.get token := by
  have howed : (position.credit amounts).owed.get token ≤
      position.owed.get token + amounts.get token := by
    simp only [Position.credit, TokenPair.get_zipWith]
    exact wrap128_le _
  have howedCast : ((position.credit amounts).owed.get token : ℚ) ≤
      position.owed.get token + amounts.get token := by exact_mod_cast howed
  have hrest : pool.stake token key (position.credit amounts) -
      (position.credit amounts).owed.get token =
        pool.stake token key position - position.owed.get token := by
    simp only [stake, add_sub_cancel_left]
    rfl
  linarith

/-- Writing one position changes the claims by its stake. -/
theorem claims_insert (pool : Pool) (token : Token) (key : PositionKey) (position : Position) :
    ({ pool with positions := pool.positions.insert key position } : Pool).claims token =
      pool.claims token - pool.stake token key (pool.position key) +
        pool.stake token key position := by
  have hstake : ∀ other p,
      ({ pool with positions := pool.positions.insert key position } : Pool).stake token other p =
        pool.stake token other p := fun _ _ ↦ rfl
  have htotal := total_stake_insert position token fun other p (_ : other ≠ key) _ ↦ hstake other p
  unfold claims
  rw [htotal, hstake]
  ring

/-! ### Swaps -/

section Swaps

variable {request : SwapRequest} {plan : SwapPlan} {steps : List SwapStep}
  {state next : SwapState} {nextLevel? : Option ℕ} {move : RangeMove}

/-- What a fee adds to the growth, where a quotient by no liquidity is zero. -/
theorem toNat_growthOf {fee liquidity : ℕ} {added : Growth}
    (h : SwapState.growthOf fee liquidity = .ok added) :
    added.toNat = fee * twoPow 128 / liquidity := by
  unfold SwapState.growthOf at h
  split at h
  · rename_i hzero
    rw [hzero, Nat.div_zero, ← Except.ok.inj h]
    rfl
  · obtain ⟨quotient, hquotient, h⟩ := bind_eq_ok.mp h
    obtain ⟨-, hfits, rfl⟩ := mulDivFloor_eq_ok.mp hquotient
    rw [← Except.ok.inj h, BitVec.toNat_ofNat]
    exact Nat.mod_eq_of_lt hfits

/-- What the liquidity that a fee is shared by earns of it is at most the fee. -/
theorem growthOf_le {fee liquidity : ℕ} {added : Growth}
    (h : SwapState.growthOf fee liquidity = .ok added) :
    (liquidity : ℚ) * (added.toNat / 2 ^ 128) ≤ fee := by
  have hmul : liquidity * added.toNat ≤ fee * twoPow 128 := by
    rw [toNat_growthOf h]
    exact Nat.mul_div_le _ _
  have hmulCast : (liquidity : ℚ) * added.toNat ≤ fee * 2 ^ 128 := by
    rw [← cast_twoPow]
    exact_mod_cast hmul
  rw [← mul_div_assoc, div_le_iff₀ (by positivity)]
  exact hmulCast

theorem protocolShare_le (pool : Pool) (request : SwapRequest) (fee : ℕ) :
    SwapState.protocolShare pool request fee ≤ fee := by
  unfold SwapState.protocolShare
  split
  · exact Nat.zero_le _
  · exact Nat.div_le_self _ _

/-- Growth that is added to a difference adds at most as much to its value. -/
theorem toNat_add_sub_le (now last added : Growth) :
    (now + added - last).toNat ≤ (now - last).toNat + added.toNat := by
  have hswap : now + added - last = now - last + added := by ring
  rw [hswap, BitVec.toNat_add]
  exact Nat.mod_le _ _

theorem positions_midSwap (pool : Pool) (request : SwapRequest) (steps : List SwapStep)
    (state : SwapState) : (pool.midSwap request steps state).positions = pool.positions := by
  rw [Pool.midSwap, foldl_applyStep_eq]

theorem position_midSwap (pool : Pool) (request : SwapRequest) (steps : List SwapStep)
    (state : SwapState) (key : PositionKey) :
    (pool.midSwap request steps state).position key = pool.position key := by
  rw [Pool.position, positions_midSwap, Pool.position]

/-- What a move adds per unit of the liquidity around the price: a shift of the reserve, and growth
in the token paid. -/
def unitGain (request : SwapRequest) (state : SwapState) (move : RangeMove) (token : Token) : ℚ :=
  unitShift token state.sqrtPrice move.step.price +
    if token = request.paid then (move.growthAdded.toNat : ℚ) / 2 ^ 128 else 0

/-- The reserve of a range shifts with the price where the range is around it. -/
theorem rangeReserve_of_moved (h : pool.Bookkept)
    (hmoved : SwapState.RangeMoved pool request state nextLevel? move next)
    (hunderway : SwapState.Underway pool request state)
    (hlevel : ∀ level ∈ nextLevel?, request.paid.Past level state.sqrtPrice)
    (steps : List SwapStep) {position : Position} (hget : pool.positions.get? key = some position)
    (hne : position.liquidity ≠ 0) (token : Token) :
    (pool.midSwap request (steps ++ [.moved move]) next).rangeReserve key token =
      (pool.midSwap request steps state).rangeReserve key token +
        if key.lower ≤ state.tick ∧ state.tick < key.upper then
          unitShift token state.sqrtPrice move.step.price else 0 := by
  have hfits := h.ranges key (by rw [hget]; rfl)
  have horder := hfits.lower_lt_upper
  obtain ⟨-, hle⟩ := sqrtPrice_ends horder hfits.minTick_le hfits.le_maxTick
  have hlower := h.isSome_of_isEnd hget hne (.inl rfl)
  have hupper := h.isSome_of_isEnd hget hne (.inr rfl)
  obtain ⟨hlowerBelow, hlowerAbove⟩ := hmoved.sqrtPrice_sides hunderway hlevel hlower
  obtain ⟨hupperBelow, hupperAbove⟩ := hmoved.sqrtPrice_sides hunderway hlevel hupper
  have hstands := hunderway.stands
  change unitReserve token (tickSqrtPrice key.lower) (tickSqrtPrice key.upper) next.sqrtPrice =
    unitReserve token (tickSqrtPrice key.lower) (tickSqrtPrice key.upper) state.sqrtPrice + _
  rw [← hmoved.sqrtPrice_eq]
  by_cases hin : key.lower ≤ state.tick
  · by_cases hout : state.tick < key.upper
    · rw [if_pos ⟨hin, hout⟩]
      exact unitReserve_shift (hstands.tickSqrtPrice_le hfits.minTick_le hin)
        (hstands.le_tickSqrtPrice hfits.le_maxTick hout) (hlowerBelow hin) (hupperAbove hout)
    · have habove := not_lt.mp hout
      have hmin := hfits.minTick_le
      rw [if_neg fun hboth ↦ hout hboth.2, add_zero,
        unitReserve_of_high_le hle (hupperBelow habove),
        unitReserve_of_high_le hle (hstands.tickSqrtPrice_le (by omega) habove)]
  · have hbelow := not_le.mp hin
    have hmax := hfits.le_maxTick
    rw [if_neg fun hboth ↦ hin hboth.1, add_zero,
      unitReserve_of_le_low (hlowerAbove hbelow),
      unitReserve_of_le_low (hstands.le_tickSqrtPrice (by omega) hbelow)]

/-- A move adds to the stake of a position what it adds per unit of the liquidity around the
price. -/
theorem stake_of_moved_le (h : pool.Bookkept)
    (hmoved : SwapState.RangeMoved pool request state nextLevel? move next)
    (hunderway : SwapState.Underway pool request state)
    (hlevel : SwapState.NextLevel pool request state nextLevel?) (steps : List SwapStep)
    {position : Position} (hget : pool.positions.get? key = some position) (token : Token) :
    (pool.midSwap request (steps ++ [.moved move]) next).stake token key position ≤
      (pool.midSwap request steps state).stake token key position +
        unitGain request state move token *
          ((if key.lower ≤ state.tick ∧ state.tick < key.upper then position.liquidity else 0 : ℕ) :
            ℚ) := by
  by_cases hne : position.liquidity = 0
  · simp only [stake, hne, Nat.cast_zero, zero_mul, ite_self, mul_zero, add_zero, le_refl]
  have hfits := h.ranges key (by rw [hget]; rfl)
  have hreserve := rangeReserve_of_moved h hmoved hunderway hlevel.past steps hget hne token
  have hinside := growthInside_of_advanced (.moved hlevel hmoved) hunderway steps
    hfits.lower_lt_upper (h.isSome_of_isEnd hget hne (.inl rfl))
    (h.isSome_of_isEnd hget hne (.inr rfl)) token
  have hpending : (pool.midSwap request (steps ++ [.moved move]) next).pendingGrowth key position
      token ≤ (pool.midSwap request steps state).pendingGrowth key position token +
        if token = request.paid ∧ key.lower ≤ state.tick ∧ state.tick < key.upper then
          (move.growthAdded.toNat : ℚ) / 2 ^ 128 else 0 := by
    unfold pendingGrowth
    rw [hinside, SwapStep.growthIn, hmoved.startTick_eq]
    by_cases hpaid : token = request.paid
    · by_cases hin : key.lower ≤ state.tick ∧ state.tick < key.upper
      · rw [if_pos hpaid, if_pos hin, if_pos ⟨hpaid, hin⟩, ← add_div]
        refine div_le_div_of_nonneg_right ?_ (by positivity)
        exact_mod_cast toNat_add_sub_le _ _ _
      · rw [if_pos hpaid, if_neg hin, if_neg fun hboth ↦ hin hboth.2, add_zero, add_zero]
    · rw [if_neg hpaid, if_neg fun hboth ↦ hpaid hboth.1, add_zero, add_zero]
  have hliquidity : (0 : ℚ) ≤ position.liquidity := Nat.cast_nonneg _
  have hgain := mul_le_mul_of_nonneg_left hpending hliquidity
  unfold stake unitGain
  rw [hreserve]
  by_cases hin : key.lower ≤ state.tick ∧ state.tick < key.upper
  · simp only [hin, and_self, and_true, if_true] at hgain ⊢
    linarith
  · simp only [hin, and_false, if_false, Nat.cast_zero, mul_zero, add_zero] at hgain ⊢
    linarith

/-- A move adds the share of the protocol, as far as it fits, to its fees in the token paid. -/
theorem protocolFees_of_moved (hmoved : SwapState.RangeMoved pool request state nextLevel? move next)
    (steps : List SwapStep) (token : Token) :
    (pool.midSwap request (steps ++ [.moved move]) next).protocolFees.get token =
      (pool.midSwap request steps state).protocolFees.get token +
        if token = request.paid then wrap128 move.protocolShare else 0 := by
  change (TokenPair.set _ _ _).get _ = (TokenPair.set _ _ _).get _ + _
  by_cases hpaid : token = request.paid
  · rw [hpaid, TokenPair.get_set_self, TokenPair.get_set_self, hmoved.protocolFees_eq,
      Nat.add_assoc, if_pos rfl]
  · obtain rfl := Token.eq_other_of_ne hpaid
    rw [TokenPair.get_set_other, TokenPair.get_set_other, if_neg hpaid, add_zero]

/-- What the positions gain by a move and what the protocol keeps of its fee is at most the fee. -/
theorem growth_add_protocolShare_le
    (hmoved : SwapState.RangeMoved pool request state nextLevel? move next) :
    (state.liquidity : ℚ) * (move.growthAdded.toNat / 2 ^ 128) + wrap128 move.protocolShare ≤
      move.step.fee := by
  have hgrowth := growthOf_le hmoved.growthAdded_eq
  have hshare : move.protocolShare ≤ move.step.fee := by
    rw [hmoved.protocolShare_eq]
    exact protocolShare_le _ _ _
  have hwrap : (wrap128 move.protocolShare : ℚ) ≤ move.protocolShare := by
    exact_mod_cast wrap128_le _
  rw [Nat.cast_sub hshare] at hgrowth
  linarith

/-- A move brings at least what it adds to the claims. -/
theorem claims_of_moved_le (h : pool.Bookkept) (hplanned : pool.Planned request plan)
    (hbefore : SwapState.Course pool request steps state)
    (hlevel : SwapState.NextLevel pool request state nextLevel?)
    (hmoved : SwapState.RangeMoved pool request state nextLevel? move next) (token : Token) :
    (pool.midSwap request (steps ++ [.moved move]) next).claims token ≤
      (pool.midSwap request steps state).claims token +
        ((TokenPair.paired request.paid ((move.step.amountIn : ℤ) + move.step.fee)
          (-(move.step.amountOut : ℤ))).get token : ℤ) := by
  have hunderway := hplanned.underway h.inBounds (h.stands hplanned.isOpen) hbefore
  have hactive := activeAt_of_course h hplanned.admits hbefore
  have htotal : pool.positions.total
      ((pool.midSwap request (steps ++ [.moved move]) next).stake token) ≤
        pool.positions.total ((pool.midSwap request steps state).stake token) +
          unitGain request state move token * state.liquidity := by
    rw [hactive, PositionTable.activeAt, OrderedMap.total_cast, ← OrderedMap.total_mul_left,
      ← OrderedMap.total_add]
    exact OrderedMap.total_le_total fun key position hget ↦
      stake_of_moved_le h hmoved hunderway hlevel steps hget token
  have hstep := (hmoved.favourable hunderway hlevel.past).1
  obtain ⟨hshiftPaid, hshiftOther⟩ := mul_unitShift state.liquidity hstep.leads
  unfold claims
  rw [positions_midSwap, positions_midSwap, protocolFees_of_moved hmoved steps token]
  by_cases hpaid : token = request.paid
  · subst hpaid
    have hfee := growth_add_protocolShare_le hmoved
    have hin := hstep.exactAmount_le
    rw [unitGain, if_pos rfl] at htotal
    rw [if_pos rfl, TokenPair.get_paired_self]
    push_cast
    linarith
  · obtain rfl := Token.eq_other_of_ne hpaid
    have hout := hstep.le_exactAmount
    rw [unitGain, if_neg hpaid] at htotal
    rw [if_neg hpaid, TokenPair.get_paired_other]
    push_cast
    linarith

theorem best?_of_empty (hempty : pool.book = .empty) (paid : Token) (passed : Option ℤ) :
    pool.book.best? paid passed = none := by
  refine OrderBook.best?_eq_none ?_ passed
  rw [hempty, OrderBook.side_empty]
  rfl

/-- Wherever a swap stands, it has brought at least what it added to the claims. -/
theorem claims_of_course_le (h : pool.Bookkept) (hempty : pool.book = .empty)
    (hplanned : pool.Planned request plan) (hcourse : SwapState.Course pool request steps state)
    (token : Token) :
    (pool.midSwap request steps state).claims token ≤
      pool.claims token + ((state.brought request).get token : ℤ) := by
  have hbest := best?_of_empty hempty request.paid
  induction hcourse with
  | start => rw [midSwap_start, SwapState.brought_start, Int.cast_zero, add_zero]
  | @advanced steps state next step hbefore _ _ hadvanced ih =>
    cases hadvanced with
    | moved hlevel hmoved =>
      have hmove := claims_of_moved_le h hplanned hbefore hlevel hmoved token
      rw [hmoved.brought_eq token]
      push_cast at hmove ⊢
      linarith
    | usedUp hsome => exact absurd (hsome.symm.trans (hbest _)) (Option.some_ne_none _)
    | filledInPart hsome => exact absurd (hsome.symm.trans (hbest _)) (Option.some_ne_none _)

/-- Moves leave the book as it is. -/
theorem book_of_moved (pool : Pool) (request : SwapRequest) (steps : List SwapStep)
    (state next : SwapState) (move : RangeMove) :
    (pool.midSwap request (steps ++ [.moved move]) next).book =
      (pool.midSwap request steps state).book := by
  rw [midSwap_append pool request steps (.moved move) state next]
  cases hcrossing : move.crossing? <;> simp only [applyStep, hcrossing]

/-- Without orders a swap leaves the book as it is. -/
theorem book_of_course (hempty : pool.book = .empty)
    (hcourse : SwapState.Course pool request steps state) :
    (pool.midSwap request steps state).book = .empty := by
  have hbest := best?_of_empty hempty request.paid
  induction hcourse with
  | start => rw [midSwap_start, hempty]
  | @advanced steps state next step hbefore _ _ hadvanced ih =>
    cases hadvanced with
    | moved => rw [book_of_moved pool request steps state next, ih]
    | usedUp hsome => exact absurd (hsome.symm.trans (hbest _)) (Option.some_ne_none _)
    | filledInPart hsome => exact absurd (hsome.symm.trans (hbest _)) (Option.some_ne_none _)

end Swaps

/-! ### All calls -/

theorem get_paidIn (amounts : TokenPair ℕ) (token : Token) :
    amounts.paidIn.get token = amounts.get token := by
  cases token <;> rfl

theorem get_givenOut (amounts : TokenPair ℕ) (token : Token) :
    amounts.givenOut.get token = -(amounts.get token : ℤ) := by
  cases token <;> rfl

theorem get_both {α : Type} (value : α) (token : Token) :
    (TokenPair.both value).get token = value := by
  cases token <;> rfl

/-- Paying out what is owed to a position takes it off the claims. -/
theorem claims_collect {position : Position} (hget : pool.positions.get? key = some position)
    (requested : TokenPair ℕ) (token : Token) :
    ({ pool with positions := pool.positions.insert key (position.collect requested).2 } :
      Pool).claims token = pool.claims token - (position.collect requested).1.get token := by
  have hposition : pool.position key = position := PositionTable.find_eq hget
  have hpaid : (position.collect requested).1.get token ≤ position.owed.get token := by
    simp only [Position.collect, TokenPair.get_zipWith]
    exact min_le_right _ _
  have howed : ((position.collect requested).2.owed.get token : ℚ) =
      position.owed.get token - (position.collect requested).1.get token := by
    rw [← Nat.cast_sub hpaid]
    simp only [Position.collect, TokenPair.get_zipWith]
  have hrest : pool.stake token key (position.collect requested).2 -
      (position.collect requested).2.owed.get token =
        pool.stake token key position - position.owed.get token := by
    simp only [stake, add_sub_cancel_left]
    rfl
  rw [claims_insert, hposition]
  linarith

/-- Taking liquidity out owes the owner no more than the reserve that it leaves. -/
theorem claims_removed_le {staged : TickTable} {position : Position} {amounts : TokenPair ℤ}
    (hadjusted : pool.RangeAdjusted key delta staged position amounts after) (h : pool.Bookkept)
    (hopen : pool.IsOpen) (hdelta : delta ≤ 0) (token : Token) :
    let credited := position.credit (amounts.map Int.natAbs)
    ({ after with positions := pool.positions.insert key credited } : Pool).claims token ≤
      pool.claims token := by
  intro credited
  have hpositions : pool.positions.insert key credited =
      after.positions.insert key credited := by
    rw [hadjusted.positions_eq]
    exact (OrderedMap.insert_insert _ _ _ _).symm
  have hposition : after.position key = position := by
    rw [Pool.position, hadjusted.positions_eq, PositionTable.find_insert_self]
  obtain ⟨hreserve, hsign⟩ := reserve_le_rangeAmounts hadjusted.lower_lt_upper
    hadjusted.minTick_le hadjusted.le_maxTick (h.stands hopen) hadjusted.amounts_eq token
  have hclaims := hadjusted.claims_le h (hadjusted.bookkept h hopen) token
  have hcredit := stake_credit_le after token key position (amounts.map Int.natAbs)
  have hreturned : (((amounts.map Int.natAbs).get token : ℕ) : ℚ) = -(amounts.get token : ℤ) := by
    rw [TokenPair.get_map, Nat.cast_natAbs, abs_of_nonpos (hsign hdelta), Int.cast_neg]
  rw [hpositions, claims_insert, hposition]
  linarith

end Pool

/-- Whether a call places an order. -/
def Call.PlacesOrder : Call → Prop
  | placeOrder _ _ _ => True
  | _ => False

instance (call : Call) : Decidable call.PlacesOrder := by
  cases call <;> unfold Call.PlacesOrder <;> infer_instance

/-- Whether a call may write the book of orders. -/
def Call.TouchesBook : Call → Prop
  | swap _ => True
  | placeOrder _ _ _ => True
  | cancelOrder _ _ _ => True
  | collectOrder _ _ _ => True
  | _ => False

namespace Pool

variable {pool after : Pool}

/-- A call that leaves the book alone brings at least what it adds to the claims. -/
theorem claims_le_of_untouched (h : pool.Bookkept) {call : Call} {brought : TokenPair ℤ}
    (htouches : ¬call.TouchesBook) (hfinished : Finished pool call brought after) :
    after.book = pool.book ∧
      ∀ token, after.claims token ≤ pool.claims token + (brought.get token : ℤ) := by
  cases hfinished with
  | @firstPriceSet sqrtPrice tick hclosed _ =>
    refine ⟨rfl, fun token ↦ ?_⟩
    have hpositions := h.closed hclosed
    have hclaims : ({ pool with sqrtPrice, tick } : Pool).claims token = pool.claims token := by
      unfold claims
      rw [hpositions, OrderedMap.total_empty, OrderedMap.total_empty]
    rw [hclaims, get_both, Int.cast_zero, add_zero]
  | @liquidityAdded key amount staged position amounts after hopen hadjusted =>
    refine ⟨by rw [hadjusted.pool_eq], fun token ↦ ?_⟩
    have hclaims := hadjusted.claims_le h (hadjusted.bookkept h hopen) token
    have hreserve := (reserve_le_rangeAmounts hadjusted.lower_lt_upper hadjusted.minTick_le
      hadjusted.le_maxTick (h.stands hopen) hadjusted.amounts_eq token).1
    have hbrought : (amounts.get token : ℚ) ≤ ((amounts.map Int.toNat).paidIn.get token : ℤ) := by
      rw [get_paidIn, TokenPair.get_map]
      exact_mod_cast Int.self_le_toNat _
    linarith
  | @liquidityRemoved key amount staged position amounts between hopen hadjusted =>
    refine ⟨by rw [hadjusted.pool_eq], fun token ↦ ?_⟩
    rw [get_both, Int.cast_zero, add_zero]
    exact claims_removed_le hadjusted h hopen (by omega) token
  | collected hopen hget =>
    refine ⟨rfl, fun token ↦ ?_⟩
    rw [claims_collect hget, get_givenOut]
    push_cast
    linarith
  | nothingCollected =>
    refine ⟨rfl, fun token ↦ ?_⟩
    rw [get_both, Int.cast_zero, add_zero]
  | protocolPartSet =>
    refine ⟨rfl, fun token ↦ ?_⟩
    rw [get_both, Int.cast_zero, add_zero]
    exact le_rfl
  | @protocolFeesCollected requested hopen =>
    refine ⟨rfl, fun token ↦ ?_⟩
    have hpayout : protocolPayout (requested.get token) (pool.protocolFees.get token) ≤
        pool.protocolFees.get token := by
      unfold protocolPayout
      split <;> omega
    have hstake : ∀ protocolFees,
        ({ pool with protocolFees } : Pool).stake token = pool.stake token := fun _ ↦ rfl
    rw [get_givenOut]
    simp only [claims, hstake, TokenPair.get_zipWith, Nat.cast_sub hpayout]
    push_cast
    linarith
  | swapped => exact absurd trivial htouches
  | orderPlaced => exact absurd trivial htouches
  | orderCancelled => exact absurd trivial htouches
  | orderCollected => exact absurd trivial htouches

/-- Every call other than one that places an order brings at least what it adds to the claims,
and leaves a book without orders as it is. -/
theorem claims_le_of_finished (h : pool.Bookkept) (hempty : pool.book = .empty) {call : Call}
    {brought : TokenPair ℤ} (hplaces : ¬call.PlacesOrder)
    (hfinished : Finished pool call brought after) :
    after.book = .empty ∧
      ∀ token, after.claims token ≤ pool.claims token + (brought.get token : ℤ) := by
  by_cases htouches : call.TouchesBook
  · cases hfinished with
    | swapped hplan =>
      have hplanned := planned_of_planSwap hplan
      rw [applySwap_eq hplanned, hplanned.amounts_eq]
      exact ⟨book_of_course hempty hplanned.course,
        claims_of_course_le h hempty hplanned hplanned.course⟩
    | orderPlaced => exact absurd trivial hplaces
    | @orderCancelled sold key amount price taken book _ _ hbook =>
      obtain ⟨_, hfound, -⟩ := bind_eq_ok.mp hbook
      rw [hempty, OrderBook.side_empty] at hfound
      exact absurd hfound (by simp [orReject, reject, Side.empty, OrderedMap.get?_empty])
    | @orderCollected sold key requested paid price book _ _ hbook =>
      have hnothing : paid = .both 0 ∧ book = .empty := by
        rw [hempty] at hbook
        cases sold
        · obtain ⟨rfl, rfl⟩ := Prod.mk.inj (Except.ok.inj hbook)
          exact ⟨rfl, rfl⟩
        · obtain ⟨rfl, rfl⟩ := Prod.mk.inj (Except.ok.inj hbook)
          exact ⟨rfl, rfl⟩
      refine ⟨hnothing.2, fun token ↦ ?_⟩
      rw [hnothing.1, get_givenOut, get_both]
      exact le_of_eq (by simp; rfl)
    | _ => exact absurd htouches id
  · obtain ⟨hbook, hclaims⟩ := claims_le_of_untouched h htouches hfinished
    exact ⟨hbook.trans hempty, hclaims⟩

/-- What is written down as owed is part of the claims. -/
theorem owed_le_claims (h : pool.Bookkept) (token : Token) :
    ((pool.positions.total (fun _ position ↦ position.owed.get token) +
      pool.protocolFees.get token : ℕ) : ℚ) ≤ pool.claims token := by
  rw [Nat.cast_add, OrderedMap.total_cast, claims]
  refine add_le_add_left (OrderedMap.total_le_total fun key position hget ↦ ?_) _
  have hfits := h.ranges key (by rw [hget]; rfl)
  obtain ⟨hpos, hle⟩ := sqrtPrice_ends hfits.lower_lt_upper hfits.minTick_le hfits.le_maxTick
  have hreserve : 0 ≤ pool.rangeReserve key token := unitReserve_nonneg hpos hle
  have hpending := pool.pendingGrowth_nonneg key position token
  have hheld := mul_nonneg (Nat.cast_nonneg (α := ℚ) position.liquidity)
    (add_nonneg hreserve hpending)
  unfold stake
  linarith

/-- Over a run without orders, what is left of what was taken in covers the claims. -/
theorem claims_le_balance {fee tickSpacing : ℕ} (hcreate : Pool.create fee tickSpacing = .ok pool)
    {calls : List Call} (hcalls : ∀ call ∈ calls, ¬call.PlacesOrder) :
    let ledger := (Ledger.start pool).enterAll calls
    ledger.pool.book = .empty ∧ ∀ token, ledger.pool.claims token ≤ (ledger.balance token : ℤ) := by
  refine Ledger.enterAll_of_kept
    (fun ledger ↦ ledger.pool.book = .empty ∧
      ∀ token, ledger.pool.claims token ≤ (ledger.balance token : ℤ))
    (fun call ↦ ¬call.PlacesOrder) ?_ (.created hcreate) ?_ hcalls
  · intro ledger call brought after hplaces hreachable hkept hrun hfinished
    obtain ⟨hpool, hbalance⟩ := Ledger.enter_of_ok hrun
    obtain ⟨hbook, hclaims⟩ :=
      claims_le_of_finished hreachable.bookkept hkept.1 hplaces hfinished
    refine ⟨hpool ▸ hbook, fun token ↦ ?_⟩
    have hbefore := hkept.2 token
    have hadded := hclaims token
    rw [hpool, hbalance token]
    push_cast
    linarith
  · obtain ⟨-, -, cap, -, rfl⟩ := created_of_create hcreate
    refine ⟨rfl, fun token ↦ ?_⟩
    cases token <;> exact le_of_eq (by simp [claims, Ledger.start, Ledger.balance, get_both])

/-- At every point of a run without orders, all that was paid out in a token and all that is owed
to owners and to the protocol is covered by what was taken in. -/
theorem range_solvency {fee tickSpacing : ℕ} (hcreate : Pool.create fee tickSpacing = .ok pool)
    {calls : List Call} (hcalls : ∀ call ∈ calls, ¬call.PlacesOrder) (token : Token) :
    let ledger := (Ledger.start pool).enterAll calls
    ledger.paidOut.get token +
        (ledger.pool.positions.total (fun _ position ↦ position.owed.get token) +
          ledger.pool.protocolFees.get token) ≤
      ledger.takenIn.get token := by
  intro ledger
  have hreachable : ledger.pool.Reachable :=
    Ledger.reachable_enterAll (Ledger.start pool) (.created hcreate) calls
  have howed := owed_le_claims hreachable.bookkept token
  have hclaims : ledger.pool.claims token ≤ (ledger.balance token : ℤ) :=
    (claims_le_balance hcreate hcalls).2 token
  unfold Ledger.balance at hclaims
  have hcast : ((ledger.paidOut.get token +
      (ledger.pool.positions.total (fun _ position ↦ position.owed.get token) +
        ledger.pool.protocolFees.get token) : ℕ) : ℚ) ≤ ledger.takenIn.get token := by
    push_cast at howed hclaims ⊢
    linarith
  exact_mod_cast hcast

/-- A run in which an owner puts liquidity in, is traded against and takes everything out. -/
def roundTrip : List Call := [
  .setFirstPrice q96,
  .setProtocolPart ⟨4, 4⟩,
  .addLiquidity ⟨1, -60, 60⟩ 1000000,
  .swap ⟨.zero, 2000, minSqrtPrice + 1⟩,
  .removeLiquidity ⟨1, -60, 60⟩ 1000000,
  .collect ⟨1, -60, 60⟩ ⟨10000, 10000⟩]

theorem range_solvency_roundTrip :
    let ledger := (Ledger.start standard).enterAll roundTrip
    ledger.paidOut.zero +
        (ledger.pool.positions.total (fun _ position ↦ position.owed.zero) +
          ledger.pool.protocolFees.zero) ≤
      ledger.takenIn.zero ∧
    0 < ledger.paidOut.zero ∧ ledger.pool.protocolFees.zero = 1 :=
  ⟨range_solvency create_standard (by decide +kernel) .zero, by decide +kernel, by decide +kernel⟩

end Pool

end RangeBook
