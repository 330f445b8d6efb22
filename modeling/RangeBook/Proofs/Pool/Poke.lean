import Mathlib
import RangeBook.Proofs.Pool.Failure
import RangeBook.Proofs.Pool.Withdrawal

/-!
# Pokes

To poke a position is to take nothing out of it. This credits its owner with the fees that it has
earned and changes nothing else, and it finishes for every position that holds liquidity
(`Reachable.run_poke`). Pokes of different positions do not get in each other's way: however many
are made one after the other, each credits what its position had earned before the first of them
(`poked_enterAll`), and if they reach all liquidity, nothing is pending afterwards
(`Poked.upToDate`).
-/

set_option autoImplicit false
set_option relaxedAutoImplicit false

namespace RangeBook

attribute [local irreducible] tickSqrtPrice tickAt

/-- Takes nothing out of a position. -/
def Call.poke (key : PositionKey) : Call :=
  .removeLiquidity key 0

/-! ### Poked positions -/

namespace Position

variable {position position' : Position} {inside : TokenPair Growth} {token : Token}

/-- The fees that a position earned while the growth inside its range came to a value. -/
def earned (position : Position) (inside : TokenPair Growth) (token : Token) : ℕ :=
  (inside.get token - position.growthInside.get token).toNat * position.liquidity / twoPow 128

/-- A position that is credited with the fees it earned. -/
def poked (position : Position) (inside : TokenPair Growth) : Position :=
  { position.credit
      ⟨wrap128 (position.earned inside .zero), wrap128 (position.earned inside .one)⟩ with
    growthInside := inside }

theorem get_owed_poked (position : Position) (inside : TokenPair Growth) (token : Token) :
    (position.poked inside).owed.get token =
      wrap128 (position.owed.get token + wrap128 (position.earned inside token)) := by
  cases token <;> rfl

theorem earned_of_growthInside_eq (h : position.growthInside.get token = inside.get token) :
    position.earned inside token = 0 := by
  rw [earned, h, sub_self]
  exact (congrArg (· / twoPow 128) (Nat.zero_mul position.liquidity)).trans (Nat.zero_div _)

/-- An adjustment credits the fees as a poke does, on the liquidity that was held until then. -/
theorem AdjustedTo.eq_poked_with {delta : ℤ} (h : position.AdjustedTo delta inside position') :
    position' = { position.poked inside with liquidity := position'.liquidity } := by
  have howed : position'.owed = (position.poked inside).owed := by
    refine TokenPair.ext_get fun token ↦ ?_
    obtain ⟨fees, hfees, heq⟩ := h.owed_eq token
    unfold feesEarned at hfees
    obtain ⟨quotient, hquotient, hfees⟩ := bind_eq_ok.mp hfees
    obtain ⟨-, -, rfl⟩ := mulDivFloor_eq_ok.mp hquotient
    rw [heq, get_owed_poked, ← Except.ok.inj hfees]
    rfl
  have hgrowth := h.growthInside_eq
  obtain ⟨liquidity, growthInside, owed⟩ := position'
  simp only at howed hgrowth
  subst howed hgrowth
  rfl

/-- An adjustment that changes no liquidity is a poke. -/
theorem AdjustedTo.eq_poked (h : position.AdjustedTo 0 inside position') :
    position' = position.poked inside := by
  have hliquidity : position'.liquidity = position.liquidity := by
    have hsum := h.liquidity_eq
    omega
  refine h.eq_poked_with.trans ?_
  rw [hliquidity]
  rfl

theorem credit_zero_poked (position : Position) (inside : TokenPair Growth) :
    (position.poked inside).credit (.both 0) = position.poked inside := by
  have howed : ((position.poked inside).credit (.both 0)).owed = (position.poked inside).owed := by
    refine TokenPair.ext_get fun token ↦ ?_
    rw [get_owed_poked]
    refine Eq.trans ?_ (wrap128_of_lt (wrap128_lt _))
    cases token <;> rfl
  exact congrArg (fun owed ↦ { position.poked inside with owed }) howed

end Position

namespace PositionTable

variable {positions : PositionTable} {key other : PositionKey} {position : Position}

/-- Whether all that is owed to owners of positions fits. -/
def OwedFits (positions : PositionTable) : Prop :=
  ∀ key token, (positions.find key).owed.get token < twoPow 128

theorem OwedFits.insert (h : positions.OwedFits)
    (hposition : ∀ token, position.owed.get token < twoPow 128) (key : PositionKey) :
    OwedFits (positions.insert key position) := by
  intro other token
  by_cases hother : other = key
  · rw [hother, find_insert_self]
    exact hposition token
  · rw [find_insert_of_ne positions position hother]
    exact h other token

end PositionTable

namespace Pool

variable {pool after later : Pool} {key : PositionKey} {keys : List PositionKey} {delta : ℤ}

/-! ### What is owed -/

theorem get_owed_credit_lt (position : Position) (amounts : TokenPair ℕ) (token : Token) :
    (position.credit amounts).owed.get token < twoPow 128 := by
  simp only [Position.credit, TokenPair.get_zipWith]
  exact wrap128_lt _

theorem get_owed_lt_of_adjusted {position position' : Position} {inside : TokenPair Growth}
    (h : position.AdjustedTo delta inside position') (token : Token) :
    position'.owed.get token < twoPow 128 := by
  obtain ⟨fees, -, heq⟩ := h.owed_eq token
  rw [heq]
  exact wrap128_lt _

theorem Reachable.owedFits (h : pool.Reachable) : pool.positions.OwedFits := by
  refine @Reachable.of_kept (fun pool ↦ pool.positions.OwedFits) ?_ ?_ pool h
  · intro fee tickSpacing pool hcreate key token
    obtain ⟨-, -, cap, -, rfl⟩ := created_of_create hcreate
    cases token <;> exact twoPow_pos 128
  · intro call pool after brought _ hfits hfinished
    cases hfinished with
    | liquidityAdded _ hadjusted =>
      rw [hadjusted.positions_eq]
      exact hfits.insert (get_owed_lt_of_adjusted
        (Position.adjusted_of_adjust hadjusted.position_eq)) _
    | liquidityRemoved => exact hfits.insert (get_owed_credit_lt _ _) _
    | @collected key requested position _ hget =>
      refine hfits.insert (fun token ↦ ?_) _
      have howed := hfits key token
      rw [PositionTable.find_eq hget] at howed
      simp only [Position.collect, TokenPair.get_zipWith]
      exact lt_of_le_of_lt (Nat.sub_le _ _) howed
    | swapped hplan =>
      rw [applySwap_eq (planned_of_planSwap hplan), positions_midSwap]
      exact hfits
    | _ => exact hfits

/-! ### One poke -/

/-- A pool with one position poked. -/
def withPoked (pool : Pool) (key : PositionKey) : Pool :=
  { pool with
    positions := pool.positions.insert key
      ((pool.position key).poked (pool.growthInside key.lower key.upper)) }

theorem position_withPoked_self (pool : Pool) (key : PositionKey) :
    (pool.withPoked key).position key =
      (pool.position key).poked (pool.growthInside key.lower key.upper) :=
  PositionTable.find_insert_self _ _ _

theorem position_withPoked_of_ne (pool : Pool) {other : PositionKey} (hne : other ≠ key) :
    (pool.withPoked key).position other = pool.position other :=
  PositionTable.find_insert_of_ne _ _ hne

/-- A change of a position that changes no liquidity leaves its pool alone. -/
theorem RangeAdjusted.eq_of_zero {staged : TickTable} {position : Position}
    {amounts : TokenPair ℤ} (h : pool.RangeAdjusted key 0 staged position amounts after) :
    amounts = .both 0 ∧ after = pool.withPoked key := by
  have hstaged := h.boundaries.unchanged rfl
  have hamounts := h.amounts_eq
  unfold rangeAmounts at hamounts
  rw [if_pos rfl] at hamounts
  obtain ⟨hliquidity, hzero⟩ := Prod.mk.inj (Except.ok.inj hamounts)
  have hticks : after.ticks = pool.ticks := by
    refine OrderedMap.ext_get? fun tick ↦ ?_
    rw [h.ticks_eq, if_neg fun hneg ↦ absurd hneg.1 (lt_irrefl 0), hstaged]
  have hposition := (Position.adjusted_of_adjust h.position_eq).eq_poked
  refine ⟨hzero.symm, ?_⟩
  rw [h.pool_eq, hticks, ← hliquidity, hposition, hstaged]
  rfl

/-- A poke of a position that holds liquidity finishes, and no more than this position is written. -/
theorem Reachable.run_poke (h : pool.Reachable) (hheld : (pool.position key).liquidity ≠ 0) :
    (Call.poke key).run pool = .ok (.both 0) (pool.withPoked key) := by
  have hget := PositionTable.get?_of_liquidity_ne_zero hheld
  obtain ⟨returned, after, hremove⟩ :=
    h.removeLiquidity_finishes hget (Nat.pos_of_ne_zero hheld) (Nat.zero_le _)
  refine Action.bind_eq_ok.mpr ⟨returned, after, hremove, Action.pure_eq_ok.mpr ⟨rfl, ?_⟩⟩
  obtain ⟨staged, position, amounts, between, -, hadjusted, rfl, rfl⟩ :=
    removed_of_removeLiquidity hremove
  rw [Nat.cast_zero, neg_zero] at hadjusted
  obtain ⟨rfl, hbetween⟩ := hadjusted.eq_of_zero
  have hposition : position = (pool.position key).poked (pool.growthInside key.lower key.upper) := by
    rw [← position_withPoked_self, ← hbetween, Pool.position, hadjusted.positions_eq,
      PositionTable.find_insert_self]
  -- what is owed was just kept modulo the width, so crediting nothing on top does not change it
  have hcredit : position.credit (TokenPair.map Int.natAbs (.both 0)) = position := by
    rw [hposition]
    exact Position.credit_zero_poked _ _
  rw [hcredit, ← hadjusted.positions_eq, hbetween]

/-! ### Pokes one after the other -/

/-- The fees that a position has earned and is not credited with yet. -/
def pendingFees (pool : Pool) (key : PositionKey) (token : Token) : ℕ :=
  (pool.position key).earned (pool.growthInside key.lower key.upper) token

/-- What pokes of positions, one after the other, make of a pool. -/
structure Poked (pool : Pool) (keys : List PositionKey) (later : Pool) : Prop where
  pool_eq : later = { pool with positions := later.positions }
  position_eq : ∀ key ∈ keys, later.position key =
    (pool.position key).poked (pool.growthInside key.lower key.upper)
  kept : ∀ key, key ∉ keys → later.position key = pool.position key

theorem Poked.cons (hnot : key ∉ keys) (h : (pool.withPoked key).Poked keys later) :
    pool.Poked (key :: keys) later := by
  refine ⟨h.pool_eq, fun other hmem ↦ ?_, fun other hnotMem ↦ ?_⟩
  · rcases List.mem_cons.mp hmem with rfl | hmem
    · rw [h.kept _ hnot, position_withPoked_self]
    · have hne : other ≠ key := fun heq ↦ hnot (heq ▸ hmem)
      rw [h.position_eq other hmem, position_withPoked_of_ne pool hne]
      rfl
  · rw [List.mem_cons, not_or] at hnotMem
    rw [h.kept other hnotMem.2, position_withPoked_of_ne pool hnotMem.1]

theorem Poked.get_owed (h : pool.Poked keys later) (hmem : key ∈ keys) (token : Token) :
    (later.position key).owed.get token =
      wrap128 ((pool.position key).owed.get token + wrap128 (pool.pendingFees key token)) := by
  rw [h.position_eq key hmem, Position.get_owed_poked, pendingFees]

/-- Pokes of different positions that hold liquidity all finish, and none of them bears on what
the others credit. -/
theorem poked_enterAll (ledger : Ledger) (h : ledger.pool.Reachable)
    (hnodup : keys.Nodup) (hheld : ∀ key ∈ keys, (ledger.pool.position key).liquidity ≠ 0) :
    ledger.finishing (keys.map Call.poke) = keys.map Call.poke ∧
      ledger.pool.Poked keys (ledger.enterAll (keys.map Call.poke)).pool := by
  induction keys generalizing ledger with
  | nil => exact ⟨rfl, rfl, fun _ hmem ↦ absurd hmem List.not_mem_nil, fun _ _ ↦ rfl⟩
  | cons key keys ih =>
    obtain ⟨hnot, hnodup⟩ := List.nodup_cons.mp hnodup
    have hrun := h.run_poke (hheld key List.mem_cons_self)
    have hpool : (ledger.enter (.poke key)).pool = ledger.pool.withPoked key :=
      (Ledger.enter_of_ok hrun).1
    have hreachable := ledger.reachable_enter h (.poke key)
    have hrest : ∀ other ∈ keys, ((ledger.enter (.poke key)).pool.position other).liquidity ≠ 0 := by
      intro other hmem
      have hne : other ≠ key := fun heq ↦ hnot (heq ▸ hmem)
      rw [hpool, position_withPoked_of_ne _ hne]
      exact hheld other (List.mem_cons_of_mem _ hmem)
    obtain ⟨hfinishing, hpoked⟩ := ih (ledger.enter (.poke key)) hreachable hnodup hrest
    have hfinishes : (Call.poke key).finishes ledger.pool = true := by
      rw [Call.finishes, hrun]
    rw [List.map_cons, Ledger.finishing, if_pos hfinishes, hfinishing]
    exact ⟨rfl, .cons hnot (hpool ▸ hpoked)⟩

/-- Whether no position that holds liquidity has fees pending. -/
def UpToDate (pool : Pool) : Prop :=
  ∀ key, (pool.position key).liquidity ≠ 0 →
    (pool.position key).growthInside = pool.growthInside key.lower key.upper

/-- A pool is up to date when all positions that hold liquidity have just been poked. -/
theorem Poked.upToDate (h : pool.Poked keys later)
    (hall : ∀ key, (pool.position key).liquidity ≠ 0 → key ∈ keys) : later.UpToDate := by
  intro key hheld
  have hinside : later.growthInside key.lower key.upper = pool.growthInside key.lower key.upper := by
    rw [h.pool_eq]
    rfl
  have hmem : key ∈ keys := by
    by_contra hnot
    rw [h.kept key hnot] at hheld
    exact hnot (hall key hheld)
  rw [h.position_eq key hmem, hinside]
  rfl

end Pool

end RangeBook
