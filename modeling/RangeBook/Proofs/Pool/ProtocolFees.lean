import Mathlib
import RangeBook.Proofs.Pool.FeeDistribution
import RangeBook.Proofs.Pool.ProtocolPart

/-!
# Where the fees along ranges go

A swap sets one part in so many of each fee along a range aside for the protocol, rounded down, and
the positions around the price share the rest (`FeesAccounted`). Fills of orders set nothing aside.

What is due to the protocol is a matter of the fees that a swap charges, and these do not depend on
its part. So the same swap with no part for the protocol (`withoutProtocol`) tells how much is due.
If that does not fit 128 bits on top of what the protocol is owed already then the swap fails, and
otherwise it finishes (`protocolFees_accounted`).

Each share has to fit 128 bits for this. It does where a swap is paid less than the denominator
times `2 ^ 128` (`sharesFit_of_planSwap`). Of a greater share all but the low 128 bits are lost
(`overcharged_cut`).
-/

set_option autoImplicit false
set_option relaxedAutoImplicit false

namespace RangeBook

attribute [local irreducible] tickSqrtPrice tickAt

namespace Pool

open SwapState

variable {pool after : Pool} {request : SwapRequest} {plan free : SwapPlan} {state : SwapState}
  {steps : List SwapStep} {move : RangeMove}

/-! ### The swap without the protocol -/

/-- A pool in which the protocol takes no part of the fees. -/
def withoutProtocol (pool : Pool) : Pool :=
  pool.withParts (.both 0)

theorem withParts_withoutProtocol (pool : Pool) :
    pool.withoutProtocol.withParts pool.protocolPart = pool :=
  rfl

/-- The part of the protocol can be set back to none. -/
theorem Reachable.withoutProtocol (h : pool.Reachable) (hopen : pool.IsOpen) :
    pool.withoutProtocol.Reachable := by
  have hset : setProtocolPart (.both 0) pool = .ok () pool.withoutProtocol := by
    simp only [setProtocolPart, Action.bind_eq_ok, opened_eq_ok, Action.lift_eq_ok,
      Action.set_eq_ok, require_eq_ok]
    exact ⟨pool, pool, ⟨hopen, rfl, rfl⟩, (), pool, ⟨⟨.inl rfl, .inl rfl⟩, rfl⟩, rfl⟩
  have hrun : (Call.setProtocolPart (.both 0)).run pool = .ok (.both 0) pool.withoutProtocol :=
    Action.bind_of_eq_ok hset
  exact h.of_run hrun

/-- A swap that can be worked out can be worked out where the protocol takes no part. -/
theorem exists_withoutProtocol (h : pool.Reachable) (hplan : pool.planSwap request = .ok plan) :
    ∃ free, pool.withoutProtocol.planSwap request = .ok free := by
  have hfails := planSwap_withParts (h.withoutProtocol (planned_of_planSwap hplan).isOpen) hplan
  have hnever : FailsOnly (fun _ ↦ False) (pool.withoutProtocol.planSwap request) := by
    refine FailsOnly.mono hfails fun failure hoverflow ↦ ?_
    have hfull := hoverflow.2
    rw [get_both, sharesKept_zero] at hfull
    exact absurd (h.withinCaps.protocolFees_lt request.paid) (not_lt.mpr hfull)
  exact hnever.exists_eq_ok

/-! ### Shares that fit -/

/-- Every share fits where a swap is paid less than the denominator times `2 ^ 128`. -/
theorem sharesFit_of_planSwap (h : pool.planSwap request = .ok plan) {denominator : ℕ}
    (hlt : plan.amounts.get request.paid < denominator * twoPow 128) :
    SharesFit denominator (rangeFees plan.steps) := by
  have hplanned := planned_of_planSwap h
  rw [hplanned.amounts_eq] at hlt
  exact sharesFit_of_brought_lt hplanned.course hlt

/-! ### What happens to a fee -/

/-- What a swap that finishes has done with the fees of its steps along ranges. -/
structure FeesAccounted (pool : Pool) (request : SwapRequest) (plan : SwapPlan) (after : Pool) :
    Prop where
  /-- The protocol is owed its part of each fee, rounded down, on top of what it was owed before. -/
  protocolFees_eq : SharesFit (pool.protocolPart.get request.paid) (rangeFees plan.steps) →
    after.protocolFees = pool.protocolFees.set request.paid
      (pool.protocolFees.get request.paid +
        sharesDue (pool.protocolPart.get request.paid) (rangeFees plan.steps))
  /-- The rest of each fee is added to the growth, for each unit of liquidity around the price. -/
  rest_shared : ∀ move, SwapStep.moved move ∈ plan.steps →
    move.growthAdded.toNat =
      (move.step.fee - move.step.fee / pool.protocolPart.get request.paid) * twoPow 128 /
        pool.positions.activeAt move.startTick
  /-- No fee is charged where no liquidity shares it. -/
  none_charged : ∀ move, SwapStep.moved move ∈ plan.steps →
    pool.positions.activeAt move.startTick = 0 → move.step.fee = 0
  /-- Nothing but the steps adds to the growth. -/
  growth_eq : after.growth = pool.growthAfter request.paid plan.steps

/-- Along a swap the rest of each fee goes to the liquidity around the price, and there is no fee
without any. -/
theorem rest_shared_of_course (h : pool.Bookkept) (hadmits : pool.Admits request)
    (hcourse : Course pool request steps state) (hmem : SwapStep.moved move ∈ steps) :
    move.growthAdded.toNat =
      (move.step.fee - move.step.fee / pool.protocolPart.get request.paid) * twoPow 128 /
        pool.positions.activeAt move.startTick ∧
      (pool.positions.activeAt move.startTick = 0 → move.step.fee = 0) := by
  induction hcourse with
  | start => exact absurd hmem List.not_mem_nil
  | advanced hbefore _ _ hadvanced ih =>
    rcases List.mem_append.mp hmem with hmem | hmem
    · exact ih hmem
    obtain rfl := List.mem_singleton.mp hmem
    cases hadvanced with
    | moved hlevel hmoved =>
      rw [← protocolShare_eq, ← hmoved.protocolShare_eq]
      exact ⟨growthAdded_of_moved h hadmits hbefore hmoved,
        fee_eq_zero_of_moved h hadmits hbefore hlevel hmoved⟩

theorem feesAccounted_of_planSwap (h : pool.Bookkept) (hplan : pool.planSwap request = .ok plan) :
    pool.FeesAccounted request plan (pool.applySwap request.paid plan) := by
  have hplanned := planned_of_planSwap hplan
  refine ⟨fun hfit ↦ ?_,
    fun move hmem ↦ (rest_shared_of_course h hplanned.admits hplanned.course hmem).1,
    fun move hmem ↦ (rest_shared_of_course h hplanned.admits hplanned.course hmem).2, ?_⟩
  · rw [← hfit.sharesKept_eq, ← protocolFees_of_course hplanned.course, ← hplanned.protocolFees_eq]
    rfl
  · rw [growthAfter, ← growth_of_course hplanned.course]
    rfl

/-- A swap that can be worked out where the protocol takes no part fails where the sum of the shares
leaves 128 bits, and nowhere else. If it finishes it is alike. -/
theorem planSwap_of_withoutProtocol (h : pool.Reachable)
    (hfree : pool.withoutProtocol.planSwap request = .ok free) :
    FailsOnly (SharesOverflow (pool.protocolPart.get request.paid)
      (pool.protocolFees.get request.paid) (rangeFees free.steps)) (pool.planSwap request) ∧
      ∀ plan, pool.planSwap request = .ok plan → SwapPlan.Like free plan := by
  have hback := pool.withParts_withoutProtocol
  have hreachable : (pool.withoutProtocol.withParts pool.protocolPart).Reachable := by
    rwa [hback]
  have hfails := planSwap_withParts hreachable hfree
  rw [hback] at hfails
  refine ⟨hfails, fun plan hplan ↦ ?_⟩
  rw [← hback] at hplan
  exact planSwap_like hfree hplan

/-- In every reachable pool a swap that finishes leaves the protocol its part of each fee along a
range, rounded down, and the positions the rest. A swap that finishes where the protocol takes no
part finishes as well if the sum of the shares, on top of what the protocol is owed, fits 128 bits,
and fails for that reason if it does not. -/
theorem protocolFees_accounted (h : pool.Reachable) :
    let part := pool.protocolPart.get request.paid
    let owed := pool.protocolFees.get request.paid
    (∀ brought after, swap request pool = .ok brought after →
      ∃ plan free, pool.planSwap request = .ok plan ∧ pool.FeesAccounted request plan after ∧
        (brought.get request.paid < part * twoPow 128 → SharesFit part (rangeFees plan.steps)) ∧
        pool.withoutProtocol.planSwap request = .ok free ∧ SwapPlan.Like free plan) ∧
    ∀ free, pool.withoutProtocol.planSwap request = .ok free →
      SharesFit part (rangeFees free.steps) →
        (owed + sharesDue part (rangeFees free.steps) < twoPow 128 →
          ∃ after, swap request pool = .ok free.amounts after) ∧
        (twoPow 128 ≤ owed + sharesDue part (rangeFees free.steps) →
          swap request pool = .error (.rejected .uint128Range) pool) := by
  intro part owed
  constructor
  · intro brought after hswap
    obtain ⟨plan, hplan, rfl, rfl⟩ := swap_eq_ok hswap
    obtain ⟨free, hfree⟩ := exists_withoutProtocol h hplan
    exact ⟨plan, free, hplan, feesAccounted_of_planSwap h.bookkept hplan,
      sharesFit_of_planSwap hplan, hfree, (planSwap_of_withoutProtocol h hfree).2 plan hplan⟩
  intro free hfree hfit
  obtain ⟨hfails, hlike⟩ := planSwap_of_withoutProtocol h hfree
  constructor
  · intro hroom
    have hnever : FailsOnly (fun _ ↦ False) (pool.planSwap request) :=
      hfails.mono fun _ hoverflow ↦ absurd hroom (not_lt.mpr (hfit.sharesKept_eq ▸ hoverflow.2))
    obtain ⟨plan, hplan⟩ := hnever.exists_eq_ok
    rw [← (hlike plan hplan).amounts_eq]
    exact ⟨_, swap_of_planSwap hplan⟩
  · intro hfull
    cases hswap : swap request pool with
    | ok brought after =>
      obtain ⟨plan, hplan, -, -⟩ := swap_eq_ok hswap
      have hplanned := planned_of_planSwap hplan
      have hfits := hplanned.protocolFees_lt
      rw [hplanned.protocolFees_eq, protocolFees_of_course hplanned.course,
        (hlike plan hplan).rangeFees_eq, hfit.sharesKept_eq] at hfits
      exact absurd hfits (not_lt.mpr hfull)
    | error failure left =>
      obtain ⟨rfl, -⟩ := hfails failure (planSwap_of_swap_eq_error hswap)
      rw [swap_atomic request pool _ left hswap]

/-- A pool with one position over nearly all prices, in which the protocol takes one fourth. -/
def quartered (liquidity : ℕ) : Pool :=
  ((Ledger.start standard).enterAll [.setFirstPrice q96, .setProtocolPart ⟨4, 4⟩,
    .addLiquidity ⟨1, -887220, 887220⟩ liquidity]).pool

/-- A swap down to the lowest price. -/
def downhill : SwapRequest :=
  ⟨.zero, 10 ^ 49, minSqrtPrice + 1⟩

/-- The pool once the price has gone all the way down and come back. -/
def thereAndBack : Pool :=
  ((Ledger.start (quartered (2 * 10 ^ 22))).enterAll [
    .swap downhill, .swap ⟨.one, 10 ^ 49, q96⟩]).pool

theorem quartered_reachable (liquidity : ℕ) : (quartered liquidity).Reachable :=
  Ledger.reachable_enterAll _ (.created create_standard) _

theorem thereAndBack_reachable : thereAndBack.Reachable :=
  Ledger.reachable_enterAll (.start (quartered _)) (quartered_reachable _) _

/-- The first swap leaves one fourth of its fee to the protocol. There is no room for as much again,
so the same swap fails the second time. -/
theorem protocolFees_accounted_thereAndBack :
    let start := quartered (2 * 10 ^ 22)
    let share := 276802743145217919210919895176324116779
    (∃ brought after, swap downhill start = .ok brought after ∧ after.protocolFees = ⟨share, 0⟩) ∧
      thereAndBack.protocolFees.zero = share ∧
        swap downhill thereAndBack = .error (.rejected .uint128Range) thereAndBack := by
  intro start share
  have hreachable := quartered_reachable (2 * 10 ^ 22)
  have hpart : start.protocolPart.get downhill.paid = 4 := by decide +kernel
  have hnone : start.protocolFees = .both 0 := by decide +kernel
  have hfit : SharesFit 4 [1107210972580871676843679580705296467117, 0] := by decide +kernel
  have hdue : sharesDue 4 [1107210972580871676843679580705296467117, 0] = share := by
    decide +kernel
  obtain ⟨free, hfree, hfees⟩ := exists_planSwap (by decide +kernel :
    (fun plan ↦ rangeFees plan.steps) <$> start.withoutProtocol.planSwap downhill =
      .ok [1107210972580871676843679580705296467117, 0])
  obtain ⟨hfinished, hfinishes⟩ := protocolFees_accounted hreachable
  rw [hpart] at hfinishes
  obtain ⟨after, hswap⟩ := (hfinishes free hfree (hfees ▸ hfit)).1
    (by rw [hfees, hdue, hnone]; decide +kernel)
  refine ⟨⟨_, after, hswap, ?_⟩, by decide +kernel, ?_⟩
  · obtain ⟨plan, free', -, haccounted, -, hfree', hlike⟩ := hfinished _ _ hswap
    obtain rfl := Except.ok.inj (hfree'.symm.trans hfree)
    have hkept := haccounted.protocolFees_eq
    rw [hpart, hlike.rangeFees_eq, hfees, hdue, hnone] at hkept
    exact (hkept hfit).trans (by decide +kernel)
  · have hpart' : thereAndBack.protocolPart.get downhill.paid = 4 := by decide +kernel
    obtain ⟨free', hfree', hfees'⟩ := exists_planSwap (by decide +kernel :
      (fun plan ↦ rangeFees plan.steps) <$> thereAndBack.withoutProtocol.planSwap downhill =
        .ok [1107210972580871676843679580705296467117, 0])
    have hfails := (protocolFees_accounted thereAndBack_reachable).2 free' hfree'
    rw [hpart', hfees', hdue] at hfails
    exact (hfails hfit).2 (by decide +kernel)

/-- A fourth of the fee of one swap has more than 130 bits. The swap finishes all the same, and the
protocol is owed the low 128 bits of it. -/
theorem overcharged_cut :
    let start := quartered (10 ^ 23)
    let kept := 22884248042335742201101046154547738071
    start.Reachable ∧ start.protocolPart.zero = 4 ∧ start.protocolFees = .both 0 ∧
      ∃ plan after, start.planSwap downhill = .ok plan ∧
        swap downhill start = .ok plan.amounts after ∧ after.protocolFees = ⟨kept, 0⟩ ∧
          sharesDue 4 (rangeFees plan.steps) = kept + 4 * twoPow 128 := by
  intro start kept
  refine ⟨quartered_reachable _, by decide +kernel, by decide +kernel, ?_⟩
  obtain ⟨plan, hplan, hread⟩ := exists_planSwap (by decide +kernel :
    (fun plan ↦ (plan.protocolFees, rangeFees plan.steps)) <$> start.planSwap downhill =
      .ok (kept, [5536054862904358384218397903526482335582, 0]))
  obtain ⟨hkept, hfees⟩ := Prod.mk.inj hread
  have hnone : start.protocolFees = .both 0 := by decide +kernel
  refine ⟨plan, _, hplan, swap_of_planSwap hplan, ?_, ?_⟩
  · rw [applySwap, hkept, hnone]
    rfl
  · rw [hfees]
    decide +kernel

end Pool

end RangeBook
