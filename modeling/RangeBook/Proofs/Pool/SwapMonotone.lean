import Mathlib
import RangeBook.Proofs.Pool.Abreast
import RangeBook.Proofs.Pool.PricePriority

/-!
# Swaps of more

A swap of more goes no less far. Side by side with a swap of less it takes the same steps until the
one of less does not cover a whole step (`Abreast.advanced`). With that step the swap of less ends,
because it uses up what was left or fills a level in part, and the swap of more goes no less far in
it. From then on the swap of more is ahead, however it goes on (`Abreast.travelled`).

So of two swaps of one pool with the same limit that both finish, the one that asks for more ends at
the same price or beyond it, pays no less and buys no less (`swap_monotone`).
-/

set_option autoImplicit false
set_option relaxedAutoImplicit false

namespace RangeBook

attribute [local irreducible] tickSqrtPrice tickAt

namespace SwapState

variable {pool : Pool} {first second : SwapRequest} {state state' next next' last last' : SwapState}
  {step step' : SwapStep} {nextLevel? nextLevel?' : Option ℕ} {move move' : RangeMove}

/-- Where two swaps stand abreast, the one that asked for less has no more left to swap. -/
theorem Abreast.isPartOf (halike : first.Alike second) (habreast : Abreast first second state state')
    (hwithin : WithinAmount first state) (hleft : state.remaining ≠ 0)
    (hamount : IsPartOf first.amount second.amount) :
    IsPartOf state.remaining state'.remaining := by
  by_cases hinput : first.IsExactInput
  · have hinput' : second.IsExactInput := hamount.nonneg_iff.mp hinput
    have hbrought := habreast.brought_eq first.paid
    rw [brought_paid _ hinput, ← halike.paid_eq, brought_paid _ hinput'] at hbrought
    have hsign := hwithin.input hinput
    have hle : first.amount ≤ second.amount := by
      obtain ⟨-, hle⟩ | ⟨hlt, -⟩ := hamount
      · exact hle
      · exact absurd hinput (not_le.mpr hlt)
    exact .inl ⟨hsign, by omega⟩
  · have hinput' : ¬second.IsExactInput := mt hamount.nonneg_iff.mpr hinput
    have hbrought := habreast.brought_eq first.paid.other
    rw [brought_bought _ hinput, ← halike.paid_eq, brought_bought _ hinput'] at hbrought
    have hsign := hwithin.output hinput
    have hle : second.amount ≤ first.amount := by
      obtain ⟨hge, -⟩ | ⟨-, hle⟩ := hamount
      · exact absurd hge hinput
      · exact hle
    exact .inr ⟨lt_of_le_of_ne hsign hleft, by omega⟩

/-- Two moves side by side are the same, or the one that has less left to swap uses it up and ends no
further than the other one. -/
theorem Abreast.moved (halike : first.Alike second) (habreast : Abreast first second state state')
    (hunderway : Underway pool first state) (hwithin : WithinAmount first state)
    (hleft : state.remaining ≠ 0) (hpart : IsPartOf state.remaining state'.remaining)
    (hlevel : NextLevel pool first state nextLevel?)
    (hlevel' : NextLevel pool second state' nextLevel?')
    (hmoved : RangeMoved pool first state nextLevel? move next)
    (hmoved' : RangeMoved pool second state' nextLevel?' move' next') :
    Abreast first second next next' ∨
      (next.remaining = 0 ∧ Precedes first.paid next.sqrtPrice (next.brought first)
        next'.sqrtPrice (next'.brought second)) := by
  obtain ⟨hfee, hwent⟩ := hmoved.went hunderway hlevel.past
  have hwent' := habreast.went halike hunderway hlevel hlevel' hmoved'
  obtain ⟨htoward, -⟩ := targetPrice_leads (leads_nextTick hunderway) hunderway.leads_limit
    hlevel.past
  obtain hstep | ⟨huses, hstep⟩ := hwent.compare hunderway.stands.price_pos
    (targetPrice_pos hunderway hlevel.past) htoward hfee hpart hwent'
  · exact .inl (habreast.of_moved halike rfl hmoved hmoved' hstep)
  · have hleads := hstep.leads
    rw [← hmoved.sqrtPrice_eq, ← hmoved'.sqrtPrice_eq] at hleads
    exact .inr ⟨hmoved.remaining_eq_zero hwithin hleft huses,
      precedes_of_booked halike.paid_eq habreast.brought_eq hmoved.brought_eq hmoved'.brought_eq
        hleads hstep.spent_le hstep.bought_le⟩

/-- Two fills side by side are of the same level. They use it up alike, or the one that has less left
to swap takes a part, and moves no more than the other one. -/
theorem Abreast.filled (halike : first.Alike second) (habreast : Abreast first second state state')
    (hbook : pool.book.Sound) (hpart : IsPartOf state.remaining state'.remaining)
    {tick tick' : ℤ} {level level' : Level} {fill fill' : LevelFill}
    (hbest : pool.book.best? first.paid state.lastUsedUp = some (tick, level))
    (hbest' : pool.book.best? second.paid state'.lastUsedUp = some (tick', level'))
    (hfilled : LevelFilled pool first state tick level fill next)
    (hfilled' : LevelFilled pool second state' tick' level' fill' next') :
    (fill.unfilled? = none ∧ tick' = tick ∧ level' = level ∧ fill' = fill) ∨
      (fill.unfilled?.isSome ∧ Precedes first.paid next.sqrtPrice (next.brought first)
        next'.sqrtPrice (next'.brought second)) := by
  rw [habreast.best?_eq halike, hbest] at hbest'
  obtain ⟨rfl, rfl⟩ := Prod.mk.inj (Option.some.inj hbest')
  have hwidth := lt_trans (Pool.bounded_of_filled hbook hbest hfilled).1
    (by decide : twoPow 128 < twoPow 256)
  obtain ⟨price, hprice, hcompute⟩ := hfilled.compute_eq
  obtain ⟨price', hprice', hcompute'⟩ := hfilled'.compute_eq
  obtain rfl := Except.ok.inj (hprice.symm.trans hprice')
  rw [halike.paid_eq] at hcompute'
  obtain ⟨hfee, hkind⟩ := LevelFill.filled_of_compute hcompute
  obtain ⟨hnone, hsame⟩ | ⟨hsome, hspent, hbought⟩ := hkind.compare hwidth hpart hfee
    (LevelFill.filled_of_compute hcompute').2
  · exact .inl ⟨hnone, rfl, rfl, hsame⟩
  · refine .inr ⟨hsome, precedes_of_booked halike.paid_eq habreast.brought_eq hfilled.brought_eq
      hfilled'.brought_eq ?_ hspent hbought⟩
    rw [hfilled.state_eq, hfilled'.state_eq]
    exact (habreast.precedes first.paid).leads

/-- After a step that two swaps take side by side they are still abreast, or the swap that has less
left to swap ends, and no further than the other one stands. -/
theorem Abreast.advanced (halike : first.Alike second) (habreast : Abreast first second state state')
    (hbook : pool.book.Sound) (hunderway : Underway pool first state)
    (hwithin : WithinAmount first state) (hleft : state.remaining ≠ 0)
    (hpart : IsPartOf state.remaining state'.remaining)
    (hadvanced : Advanced pool first state step next)
    (hadvanced' : Advanced pool second state' step' next') :
    (Abreast first second next next' ∧ ¬step.IsLast ∧ ¬step'.IsLast) ∨
      ((step.IsLast ∨ next.remaining = 0) ∧ Precedes first.paid next.sqrtPrice (next.brought first)
        next'.sqrtPrice (next'.brought second)) := by
  obtain ⟨nextLevel?, move, hlevel, hmoved, rfl⟩ | ⟨tick, level, fill, hbest, hfilled, hends⟩ :=
    hadvanced.moved_or_filled <;>
  obtain ⟨nextLevel?', move', hlevel', hmoved', rfl⟩ | ⟨tick', level', fill', hbest', hfilled', hends'⟩ :=
    hadvanced'.moved_or_filled
  · obtain hnext | ⟨hnone, hprecedes⟩ :=
      habreast.moved halike hunderway hwithin hleft hpart hlevel hlevel' hmoved hmoved'
    · exact .inl ⟨hnext, id, id⟩
    · exact .inr ⟨.inr hnone, hprecedes⟩
  · exact absurd hfilled' (((habreast.nextLevel_iff halike).mpr hlevel).not_filled hbest')
  · exact absurd hfilled (((habreast.nextLevel_iff halike).mp hlevel').not_filled hbest)
  · obtain ⟨hnone, rfl, rfl, rfl⟩ | ⟨hsome, hprecedes⟩ :=
      habreast.filled halike hbook hpart hbest hbest' hfilled hfilled'
    · obtain ⟨-, hgoing, hlast⟩ | ⟨hsome, -⟩ := hends
      · obtain ⟨-, hgoing', hlast'⟩ | ⟨hsome, -⟩ := hends'
        · have hsame := habreast.of_filled halike hfilled hfilled' (hlast'.trans hlast.symm)
          exact .inl ⟨hsame, hgoing, hgoing'⟩
        · exact absurd hsome (by simp [hnone])
      · exact absurd hsome (by simp [hnone])
    · obtain ⟨hnone, -⟩ | ⟨-, hlast⟩ := hends
      · exact absurd hsome (by simp [hnone])
      · exact .inr ⟨.inl hlast, hprecedes⟩

/-- A step of the swap that asks for less, and the way of the other one from there: either both go
on abreast, or the first one ends, no further than the other one will. -/
theorem Abreast.stepped (halike : first.Alike second) (habreast : Abreast first second state state')
    (hbook : pool.book.Sound) (hunderway : Underway pool first state)
    (hwithin : WithinAmount first state) (hamount : IsPartOf first.amount second.amount)
    (hdone : ¬state.IsDone first) (hadvanced : Advanced pool first state step next)
    (h' : Travelled pool second state' last') :
    (¬step.IsLast ∧ ∃ next', Abreast first second next next' ∧ Travelled pool second next' last') ∨
      ((step.IsLast ∨ next.remaining = 0) ∧ Precedes first.paid next.sqrtPrice (next.brought first)
        last'.sqrtPrice (last'.brought second)) := by
  have hleft : state.remaining ≠ 0 := fun hnone ↦ hdone (.inl hnone)
  have hpart := habreast.isPartOf halike hwithin hleft hamount
  have hunderway' := habreast.underway halike hunderway
  have hdone' : ¬state'.IsDone second := by
    rintro (hnone | hlimit)
    · have hle := hpart.natAbs_le
      omega
    · rw [habreast.sqrtPrice_eq, halike.limit_eq] at hlimit
      exact hdone (.inr hlimit)
  obtain ⟨step', next', hadvanced', hends⟩ := h'.exists_step hdone'
  obtain ⟨hnext, hgoing, hgoing'⟩ | ⟨hend, hprecedes⟩ :=
    habreast.advanced halike hbook hunderway hwithin hleft hpart hadvanced hadvanced'
  · obtain ⟨hlast', -⟩ | ⟨-, hrest⟩ := hends
    · exact absurd hlast' hgoing'
    · exact .inl ⟨hgoing, next', hnext, hrest⟩
  · obtain ⟨-, rfl⟩ | ⟨-, hrest⟩ := hends
    · exact .inr ⟨hend, hprecedes⟩
    · have hahead := hrest.precedes (hadvanced'.underway hunderway')
      rw [halike.paid_eq] at hahead
      exact .inr ⟨hend, hprecedes.trans hahead⟩

/-- Of two swaps that stand abreast the one that asks for more ends no less far. -/
theorem Abreast.travelled (halike : first.Alike second) (hbook : pool.book.Sound)
    (hamount : IsPartOf first.amount second.amount) (h : Travelled pool first state last)
    (h' : Travelled pool second state' last') (habreast : Abreast first second state state')
    (hunderway : Underway pool first state) (hwithin : WithinAmount first state) :
    Precedes first.paid last.sqrtPrice (last.brought first) last'.sqrtPrice
      (last'.brought second) := by
  induction h generalizing state' with
  | done =>
    have hahead := h'.precedes (habreast.underway halike hunderway)
    rw [halike.paid_eq] at hahead
    exact (habreast.precedes first.paid).trans hahead
  | last hdone hadvanced hlast =>
    obtain ⟨hgoing, -⟩ | ⟨-, hprecedes⟩ :=
      habreast.stepped halike hbook hunderway hwithin hamount hdone hadvanced h'
    · exact absurd hlast hgoing
    · exact hprecedes
  | advanced hdone hadvanced hgoing hrest ih =>
    obtain ⟨-, next', hnext, hrest'⟩ | ⟨hend, hprecedes⟩ :=
      habreast.stepped halike hbook hunderway hwithin hamount hdone hadvanced h'
    · exact ih hrest' hnext (hadvanced.underway hunderway)
        (hadvanced.withinAmount hbook hunderway hwithin fun hnone ↦ hdone (.inl hnone))
    · rw [hrest.eq_of_done (.inl (hend.resolve_left hgoing))]
      exact hprecedes

end SwapState

open SwapState

namespace Pool

variable {pool after after' : Pool} {paid : Token} {limit : ℕ} {amounts amounts' : TokenPair ℤ}

/-- Of two swaps that pay the same token up to the same limit, the one for more ends no less far. -/
theorem precedes_of_isPartOf (hreachable : pool.Reachable) {amount amount' : ℤ}
    (hamount : IsPartOf amount amount')
    (h : swap ⟨paid, amount, limit⟩ pool = .ok amounts after)
    (h' : swap ⟨paid, amount', limit⟩ pool = .ok amounts' after') :
    Precedes paid after.sqrtPrice amounts after'.sqrtPrice amounts' := by
  obtain ⟨hadmits, last, htravelled, hprice, -, rfl⟩ := travelled_of_swap h
  obtain ⟨-, last', htravelled', hprice', -, rfl⟩ := travelled_of_swap h'
  have hbookkept := hreachable.bookkept
  have hunderway := hadmits.underway hbookkept.inBounds (hbookkept.stands hadmits.isOpen) .start
  have halike : SwapRequest.Alike ⟨paid, amount, limit⟩ ⟨paid, amount', limit⟩ := ⟨rfl, rfl⟩
  rw [hprice, hprice']
  exact Abreast.travelled halike hreachable.sound_book hamount htravelled htravelled'
    (abreast_start pool _ _) hunderway (withinAmount_start pool _)

/-- Swaps are monotone in the amount. An exact input of more ends at the same price or beyond it and
returns no less, and an exact output of more ends at the same price or beyond it and takes no
less. -/
theorem swap_monotone (hreachable : pool.Reachable) {less more : ℤ} (hpos : 0 < less)
    (hle : less ≤ more) :
    (∀ {amounts amounts' : TokenPair ℤ} {after after' : Pool},
      swap ⟨paid, less, limit⟩ pool = .ok amounts after →
      swap ⟨paid, more, limit⟩ pool = .ok amounts' after' →
        Precedes paid after.sqrtPrice amounts after'.sqrtPrice amounts') ∧
    ∀ {amounts amounts' : TokenPair ℤ} {after after' : Pool},
      swap ⟨paid, -less, limit⟩ pool = .ok amounts after →
      swap ⟨paid, -more, limit⟩ pool = .ok amounts' after' →
        Precedes paid after.sqrtPrice amounts after'.sqrtPrice amounts' :=
  ⟨precedes_of_isPartOf hreachable (.inl ⟨hpos.le, hle⟩),
    precedes_of_isPartOf hreachable (.inr ⟨neg_neg_of_pos hpos, neg_le_neg hle⟩)⟩

/-- Two inputs and two outputs on a pool with two orders. The smaller one of either ends within the
first order, and the greater one within the second. -/
theorem swap_monotone_twoOrders :
    (∃ after after', swap ⟨.zero, 3500, minSqrtPrice + 1⟩ twoOrders = .ok ⟨3500, -3474⟩ after ∧
      swap ⟨.zero, 4800, minSqrtPrice + 1⟩ twoOrders = .ok ⟨4800, -4755⟩ after' ∧
      Precedes .zero after.sqrtPrice ⟨3500, -3474⟩ after'.sqrtPrice ⟨4800, -4755⟩) ∧
    ∃ after after', swap ⟨.zero, -3500, minSqrtPrice + 1⟩ twoOrders = .ok ⟨3525, -3499⟩ after ∧
      swap ⟨.zero, -4800, minSqrtPrice + 1⟩ twoOrders = .ok ⟨4843, -4799⟩ after' ∧
      Precedes .zero after.sqrtPrice ⟨3525, -3499⟩ after'.sqrtPrice ⟨4843, -4799⟩ := by
  obtain ⟨hinput, houtput⟩ := swap_monotone twoOrders_reachable (by decide : (0 : ℤ) < 3500)
    (by decide : (3500 : ℤ) ≤ 4800)
  have hless := swap_of_amounts (by decide +kernel : SwapPlan.amounts <$>
    twoOrders.planSwap ⟨.zero, 3500, minSqrtPrice + 1⟩ = .ok ⟨3500, -3474⟩)
  have hmore := swap_of_amounts (by decide +kernel : SwapPlan.amounts <$>
    twoOrders.planSwap ⟨.zero, 4800, minSqrtPrice + 1⟩ = .ok ⟨4800, -4755⟩)
  have hless' := swap_of_amounts (by decide +kernel : SwapPlan.amounts <$>
    twoOrders.planSwap ⟨.zero, -3500, minSqrtPrice + 1⟩ = .ok ⟨3525, -3499⟩)
  have hmore' := swap_of_amounts (by decide +kernel : SwapPlan.amounts <$>
    twoOrders.planSwap ⟨.zero, -4800, minSqrtPrice + 1⟩ = .ok ⟨4843, -4799⟩)
  exact ⟨⟨_, _, hless, hmore, hinput hless hmore⟩, _, _, hless', hmore', houtput hless' hmore'⟩

end Pool

end RangeBook
