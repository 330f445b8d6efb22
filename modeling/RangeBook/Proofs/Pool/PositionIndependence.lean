import Mathlib
import RangeBook.Proofs.Pool.FeeDistribution

/-!
# Positions do not bear on each other

Positions share the boundary ticks at which their ranges end, and a tick keeps the growth on its far
side since it came into use. An owner of a position could so be paid by what others do at these
ticks. But as long as a position holds liquidity its two ticks stay in use, and a tick in use keeps
its snapshot when liquidity is added or taken off there, so that whatever is done with another
position, the pool looks the same to this one (`Alike.of_finished`).

Taking liquidity out reads no more of the pool than that (`removed_of_alike`). So it gives back and
leaves the same before and after an operation on another position (`positions_independent`).
-/

set_option autoImplicit false
set_option relaxedAutoImplicit false

namespace RangeBook

attribute [local irreducible] tickSqrtPrice tickAt

/-- The position that a call is about. -/
def Call.positionKey? : Call → Option PositionKey
  | .addLiquidity key _ | .removeLiquidity key _ | .collect key _ => some key
  | _ => none

namespace Pool

variable {pool after left : Pool} {key other : PositionKey} {position : Position} {amount : ℕ}
  {call : Call} {brought : TokenPair ℤ} {returned : TokenPair ℕ}

/-! ### What the owner of a position sees of a pool -/

/-- Whether two pools look the same to the owner of a position. -/
structure Alike (key : PositionKey) (pool after : Pool) : Prop where
  tick_eq : after.tick = pool.tick
  sqrtPrice_eq : after.sqrtPrice = pool.sqrtPrice
  position_eq : after.positions.get? key = pool.positions.get? key
  growthInside_eq : after.growthInside key.lower key.upper = pool.growthInside key.lower key.upper

/-- A call on another position leaves a position alone, in any pool. -/
theorem get?_of_other (hcall : call.positionKey? = some other) (hne : key ≠ other)
    (hfinished : Finished pool call brought after) :
    after.positions.get? key = pool.positions.get? key := by
  cases hfinished with
  | liquidityAdded _ hadjusted =>
    obtain rfl := Option.some.inj hcall
    rw [hadjusted.positions_eq]
    exact OrderedMap.get?_insert_of_ne _ _ hne
  | liquidityRemoved =>
    obtain rfl := Option.some.inj hcall
    exact OrderedMap.get?_insert_of_ne _ _ hne
  | collected =>
    obtain rfl := Option.some.inj hcall
    exact OrderedMap.get?_insert_of_ne _ _ hne
  | nothingCollected => rfl
  | _ => exact absurd hcall (by simp [Call.positionKey?])

theorem get?_leaves_of_other (hcall : call.positionKey? = some other) (hne : key ≠ other) :
    (call.leaves pool).positions.get? key = pool.positions.get? key := by
  cases hrun : call.run pool with
  | ok brought after =>
    rw [Call.leaves_of_ok hrun]
    exact get?_of_other hcall hne (Call.finished_of_run hrun)
  | error failure after => rw [Call.leaves_of_error hrun]

/-- A call on another position leaves the pool as a position that holds liquidity sees it: the ends
of its range are boundary ticks before and after. -/
theorem Alike.of_finished (h : pool.Bookkept) (hafter : after.Bookkept)
    (hget : pool.positions.get? key = some position) (hpos : 0 < position.liquidity)
    (hcall : call.positionKey? = some other) (hne : key ≠ other)
    (hfinished : Finished pool call brought after) : Alike key pool after := by
  have hposition := get?_of_other hcall hne hfinished
  have hends : ∀ tick, key.IsEnd tick →
      (pool.ticks.get? tick).isSome ∧ (after.ticks.get? tick).isSome := by
    intro tick hend
    exact ⟨h.isSome_of_isEnd hget hpos.ne' hend,
      hafter.isSome_of_isEnd (hposition.trans hget) hpos.ne' hend⟩
  obtain ⟨hlower, hlowerAfter⟩ := hends key.lower (.inl rfl)
  obtain ⟨hupper, hupperAfter⟩ := hends key.upper (.inr rfl)
  cases hfinished with
  | liquidityAdded _ hadjusted =>
    have hinside := hadjusted.growthInside_eq h hlower hupper hlowerAfter hupperAfter
    rw [hadjusted.pool_eq] at hposition hinside ⊢
    exact ⟨rfl, rfl, hposition, hinside⟩
  | liquidityRemoved _ hadjusted =>
    have hinside := hadjusted.growthInside_eq h hlower hupper hlowerAfter hupperAfter
    rw [hadjusted.pool_eq] at hposition hinside ⊢
    exact ⟨rfl, rfl, hposition, hinside⟩
  | collected => exact ⟨rfl, rfl, hposition, rfl⟩
  | nothingCollected => exact ⟨rfl, rfl, rfl, rfl⟩
  | _ => exact absurd hcall (by simp [Call.positionKey?])

/-! ### What the owner gets -/

/-- The amounts given back for liquidity, and the position afterwards, by what the owner sees. -/
structure RemovedAs (pool : Pool) (key : PositionKey) (position : Position) (amount : ℕ)
    (returned : TokenPair ℕ) (left : Pool) : Prop where
  returned_eq : ∀ token, returned.get token = ⌊(amount : ℚ) * pool.rangeReserve key token⌋₊
  position_eq : ∃ adjusted,
    position.adjust (-amount) (pool.growthInside key.lower key.upper) = .ok adjusted ∧
      left.positions.get? key = some (adjusted.credit returned)

/-- The growth inside is read after the boundary ticks are written, and is what it was before. -/
theorem removedAs_of_removeLiquidity (h : pool.Reachable)
    (hget : pool.positions.get? key = some position) (hpos : 0 < position.liquidity)
    (hremove : removeLiquidity key amount pool = .ok returned left) :
    pool.RemovedAs key position amount returned left := by
  have hbooks := h.bookkept
  have hfind : pool.position key = position := PositionTable.find_eq hget
  obtain ⟨staged, changed, amounts, between, hopen, hadjusted, rfl, rfl⟩ :=
    removed_of_removeLiquidity hremove
  have hinside := hadjusted.boundaries.growthInside_eq hbooks
    (hbooks.isSome_of_isEnd hget hpos.ne' (.inl rfl))
    (hbooks.isSome_of_isEnd hget hpos.ne' (.inr rfl))
  have hchanged := hadjusted.position_eq
  rw [hinside, hfind] at hchanged
  constructor
  · intro token
    have hfits := hbooks.ranges key (by rw [hget]; rfl)
    rw [TokenPair.get_map, natAbs_rangeAmounts hfits (hbooks.stands hopen) (by omega)
      hadjusted.amounts_eq, Int.natAbs_neg, Int.natAbs_natCast]
  · exact ⟨changed, hchanged, OrderedMap.get?_insert_self _ _ _⟩

/-- Where two pools look the same, taking liquidity out gives back and leaves the same. -/
theorem removed_of_alike (h : pool.Reachable) (hafter : after.Reachable)
    (halike : Alike key pool after) (hget : pool.positions.get? key = some position)
    (hpos : 0 < position.liquidity) (hamount : amount ≤ position.liquidity) :
    ∃ returned left left', removeLiquidity key amount pool = .ok returned left ∧
      removeLiquidity key amount after = .ok returned left' ∧
      left'.positions.get? key = left.positions.get? key := by
  have hgetAfter := halike.position_eq.trans hget
  obtain ⟨returned, left, hremove⟩ := h.removeLiquidity_finishes hget hpos hamount
  obtain ⟨returned', left', hremove'⟩ := hafter.removeLiquidity_finishes hgetAfter hpos hamount
  obtain ⟨hreturned, adjusted, hadjusted, hleft⟩ := removedAs_of_removeLiquidity h hget hpos hremove
  obtain ⟨hreturned', adjusted', hadjusted', hleft'⟩ :=
    removedAs_of_removeLiquidity hafter hgetAfter hpos hremove'
  have hsame : returned' = returned := by
    refine TokenPair.ext_get fun token ↦ ?_
    rw [hreturned, hreturned', rangeReserve, rangeReserve, halike.sqrtPrice_eq]
  rw [halike.growthInside_eq] at hadjusted'
  obtain rfl := Except.ok.inj (hadjusted.symm.trans hadjusted')
  subst hsame
  exact ⟨returned', left, left', hremove, hremove', hleft'.trans hleft.symm⟩

/-! ### Independence -/

/-- Whatever is done with another position, the owner of a position that holds liquidity gets the
same for any part of it, and is left with the same, before or after. -/
theorem positions_independent (h : pool.Reachable)
    (hget : pool.positions.get? key = some position) (hpos : 0 < position.liquidity)
    (hcall : call.positionKey? = some other) (hne : key ≠ other)
    (hrun : call.run pool = .ok brought after) (hamount : amount ≤ position.liquidity) :
    ∃ returned left left', removeLiquidity key amount pool = .ok returned left ∧
      removeLiquidity key amount after = .ok returned left' ∧
      left'.positions.get? key = left.positions.get? key ∧
      (call.leaves left).positions.get? key = left.positions.get? key := by
  have hafter := h.of_run hrun
  have halike := Alike.of_finished h.bookkept hafter.bookkept hget hpos hcall hne
    (Call.finished_of_run hrun)
  obtain ⟨returned, left, left', hremove, hremove', hsame⟩ :=
    removed_of_alike h hafter halike hget hpos hamount
  exact ⟨returned, left, left', hremove, hremove', hsame, get?_leaves_of_other hcall hne⟩

/-- A range that begins where another one ends, behind the price. The fees that the first has pending
are not touched by it. -/
theorem positions_independent_sharedTick :
    let key : PositionKey := ⟨1, -60, 60⟩
    let call : Call := .addLiquidity ⟨2, 60, 180⟩ 700000
    (0 < (afterSwap.pool.position key).liquidity ∧ call.finishes afterSwap.pool ∧
      afterSwap.pool.pendingFees key .one = 7) ∧
    ∃ returned left left', removeLiquidity key 400000 afterSwap.pool = .ok returned left ∧
      removeLiquidity key 400000 (call.leaves afterSwap.pool) = .ok returned left' ∧
      left'.positions.get? key = left.positions.get? key ∧
      (call.leaves left).positions.get? key = left.positions.get? key := by
  intro key call
  have hget : afterSwap.pool.positions.get? key = some ⟨1000000, .both 0, .both 0⟩ := by
    decide +kernel
  have hfinishes : call.finishes afterSwap.pool = true := by decide +kernel
  obtain ⟨brought, hrun⟩ := Call.run_of_finishes hfinishes
  refine ⟨⟨by decide +kernel, hfinishes, by decide +kernel⟩, ?_⟩
  exact positions_independent afterSwap_reachable hget (by decide) rfl (by decide) hrun (by decide)

end Pool

end RangeBook
