import Mathlib
import RangeBook.Pool.Range
import RangeBook.Proofs.Tick.Boundary

/-!
# What a change of liquidity writes

A change of the liquidity of a position goes through its two boundary ticks, the position and the
liquidity of the pool. `RangeAdjusted` says what each of them is afterwards. The boundary ticks are
written first (`BoundariesStaged`), while what is worked out from them can still fail, and a failed
change makes them what they were, so that `adjustPosition` writes all or nothing
(`adjustPosition_atomic`).
-/

set_option autoImplicit false
set_option relaxedAutoImplicit false

namespace RangeBook

/-- The tick at an end of a range. -/
def PositionKey.tickAt (key : PositionKey) (rangeEnd : RangeEnd) : Int :=
  match rangeEnd with
  | .lower => key.lower
  | .upper => key.upper

/-- Whether a range begins or ends at a tick. -/
def PositionKey.IsEnd (key : PositionKey) (tick : Int) : Prop :=
  tick = key.lower ∨ tick = key.upper

instance (key : PositionKey) (tick : Int) : Decidable (key.IsEnd tick) :=
  inferInstanceAs (Decidable (_ ∨ _))

theorem PositionKey.isEnd_tickAt (key : PositionKey) (rangeEnd : RangeEnd) :
    key.IsEnd (key.tickAt rangeEnd) := by
  cases rangeEnd
  · exact .inl rfl
  · exact .inr rfl

theorem PositionKey.isEnd_iff {key : PositionKey} {tick : Int} :
    key.IsEnd tick ↔ ∃ rangeEnd, tick = key.tickAt rangeEnd := by
  constructor
  · rintro (hlower | hupper)
    · exact ⟨.lower, hlower⟩
    · exact ⟨.upper, hupper⟩
  · rintro ⟨rangeEnd, rfl⟩
    exact key.isEnd_tickAt rangeEnd

namespace Pool

variable {pool pool' : Pool} {key : PositionKey} {tick delta : Int} {rangeEnd : RangeEnd}

/-! ### Boundary ticks -/

theorem adjustBoundary_zero (tick : Int) (rangeEnd : RangeEnd) :
    adjustBoundary tick 0 rangeEnd = pure false :=
  rfl

/-- A change of liquidity writes one boundary tick at a time. -/
theorem adjusted_of_adjustBoundary {flipped : Bool} (hdelta : delta ≠ 0)
    (h : adjustBoundary tick delta rangeEnd pool = .ok flipped pool') :
    ∃ after, pool' = { pool with ticks := pool.ticks.insert tick after } ∧
      BoundaryTick.Adjusted tick pool.tick delta pool.growth rangeEnd pool.liquidityCap
        (pool.ticks.find tick) after ∧
      flipped = (decide (after.gross = 0) != decide ((pool.ticks.find tick).gross = 0)) := by
  unfold adjustBoundary at h
  rw [if_neg hdelta] at h
  simp only [Action.bind_eq_ok, Action.get_eq_ok, Action.lift_eq_ok, Action.set_eq_ok,
    Action.pure_eq_ok] at h
  obtain ⟨_, _, ⟨rfl, rfl⟩, ⟨flipped', ticks⟩, _, ⟨hadjust, rfl⟩, _, _, rfl, rfl, rfl⟩ := h
  obtain ⟨after, rfl, hadjusted, hflipped⟩ := TickTable.adjusted_of_adjust hadjust
  exact ⟨after, rfl, hadjusted, hflipped⟩

theorem adjustBoundary_atomic (tick delta : Int) (rangeEnd : RangeEnd) :
    (adjustBoundary tick delta rangeEnd).Atomic := by
  unfold adjustBoundary
  split
  · exact .pure false
  · refine .read_bind .get fun pool ↦ .read_bind (.lift _) fun result ↦ ?_
    intro state failure after h
    exact absurd h (Action.bind_ne_error (fun _ _ _ ↦ Action.set_ne_error)
      (fun _ _ _ _ ↦ Action.pure_ne_error) _ _ _)

/-- The boundary ticks of a range as they are after a change of its liquidity, before those that
fell out of use are taken out. -/
structure BoundariesStaged (pool : Pool) (key : PositionKey) (delta : Int)
    (staged : TickTable) : Prop where
  off_ends : ∀ tick, ¬key.IsEnd tick → staged.get? tick = pool.ticks.get? tick
  unchanged : delta = 0 → staged = pool.ticks
  adjusted : delta ≠ 0 → ∀ rangeEnd, ∃ after,
    staged.get? (key.tickAt rangeEnd) = some after ∧
      BoundaryTick.Adjusted (key.tickAt rangeEnd) pool.tick delta pool.growth rangeEnd
        pool.liquidityCap (pool.ticks.find (key.tickAt rangeEnd)) after

/-- Whether a boundary tick changed between unused and used. -/
def Flipped (before after : TickTable) (tick : Int) : Bool :=
  decide ((after.find tick).gross = 0) != decide ((before.find tick).gross = 0)

/-- Both boundary ticks are written before anything else is worked out. -/
theorem staged_of_adjustBoundary {lowerFlipped upperFlipped : Bool} {between : Pool}
    (horder : key.lower < key.upper)
    (hlower : adjustBoundary key.lower delta .lower pool = .ok lowerFlipped between)
    (hupper : adjustBoundary key.upper delta .upper between = .ok upperFlipped pool') :
    ∃ staged, pool' = { pool with ticks := staged } ∧ BoundariesStaged pool key delta staged ∧
      (delta ≠ 0 → lowerFlipped = Flipped pool.ticks staged key.lower ∧
        upperFlipped = Flipped pool.ticks staged key.upper) := by
  by_cases hdelta : delta = 0
  · subst hdelta
    rw [adjustBoundary_zero, Action.pure_eq_ok] at hlower hupper
    obtain ⟨-, rfl⟩ := hlower
    obtain ⟨-, rfl⟩ := hupper
    exact ⟨pool.ticks, rfl, ⟨fun _ _ ↦ rfl, fun _ ↦ rfl, fun hne ↦ absurd rfl hne⟩,
      fun hne ↦ absurd rfl hne⟩
  · obtain ⟨low, rfl, hlow, hlowFlipped⟩ := adjusted_of_adjustBoundary hdelta hlower
    obtain ⟨high, rfl, hhigh, hhighFlipped⟩ := adjusted_of_adjustBoundary hdelta hupper
    have hne : key.upper ≠ key.lower := horder.ne'
    have hfind : TickTable.find (pool.ticks.insert key.lower low) key.upper =
        pool.ticks.find key.upper := by
      rw [TickTable.find, OrderedMap.get?_insert_of_ne _ _ hne, TickTable.find]
    have hgetLower :
        ((pool.ticks.insert key.lower low).insert key.upper high).get? key.lower = some low := by
      rw [OrderedMap.get?_insert_of_ne _ _ hne.symm, OrderedMap.get?_insert_self]
    have hgetUpper :
        ((pool.ticks.insert key.lower low).insert key.upper high).get? key.upper = some high :=
      OrderedMap.get?_insert_self _ _ _
    rw [hfind] at hhigh hhighFlipped
    refine ⟨_, rfl, ⟨?_, fun hzero ↦ absurd hzero hdelta, fun _ rangeEnd ↦ ?_⟩, fun _ ↦ ⟨?_, ?_⟩⟩
    · intro tick htick
      obtain ⟨hoffLower, hoffUpper⟩ := not_or.mp htick
      rw [OrderedMap.get?_insert_of_ne _ _ hoffUpper, OrderedMap.get?_insert_of_ne _ _ hoffLower]
    · cases rangeEnd
      · exact ⟨low, hgetLower, hlow⟩
      · exact ⟨high, hgetUpper, hhigh⟩
    · have hfindLower : TickTable.find ((pool.ticks.insert key.lower low).insert key.upper high)
          key.lower = low := by
        rw [TickTable.find, hgetLower, Option.getD_some]
      rw [hlowFlipped, Flipped, hfindLower]
    · have hfindUpper : TickTable.find ((pool.ticks.insert key.lower low).insert key.upper high)
          key.upper = high := by
        rw [TickTable.find, hgetUpper, Option.getD_some]
      rw [hhighFlipped, Flipped, hfindUpper]

/-! ### Whole changes -/

/-- What a finished change of liquidity makes of a pool. -/
structure RangeAdjusted (pool : Pool) (key : PositionKey) (delta : Int) (staged : TickTable)
    (position : Position) (amounts : TokenPair Int) (pool' : Pool) : Prop where
  lower_lt_upper : key.lower < key.upper
  minTick_le : minTick ≤ key.lower
  le_maxTick : key.upper ≤ maxTick
  spacing_dvd : ∀ rangeEnd, (pool.tickSpacing : Int) ∣ key.tickAt rangeEnd
  boundaries : BoundariesStaged pool key delta staged
  position_eq : (pool.position key).adjust delta
    (staged.growthInside key.lower key.upper pool.tick pool.growth) = .ok position
  amounts_eq : pool.rangeAmounts key.lower key.upper delta = .ok (pool'.liquidity, amounts)
  pool_eq : pool' = { pool with
    ticks := pool'.ticks
    positions := pool.positions.insert key position
    liquidity := pool'.liquidity }
  ticks_eq : ∀ tick, pool'.ticks.get? tick =
    if delta < 0 ∧ key.IsEnd tick ∧ Flipped pool.ticks staged tick then none
    else staged.get? tick

theorem staged_of_stageChange {change : RangeChange} (horder : key.lower < key.upper)
    (h : stageChange key delta pool = .ok change pool') :
    ∃ staged, pool' = { pool with ticks := staged } ∧ BoundariesStaged pool key delta staged ∧
      (delta ≠ 0 → change.lowerFlipped = Flipped pool.ticks staged key.lower ∧
        change.upperFlipped = Flipped pool.ticks staged key.upper) ∧
      (pool.position key).adjust delta
        (staged.growthInside key.lower key.upper pool.tick pool.growth) = .ok change.position ∧
      pool.rangeAmounts key.lower key.upper delta = .ok (change.liquidity, change.amounts) := by
  unfold stageChange at h
  simp only [Action.bind_eq_ok, Action.get_eq_ok, Action.lift_eq_ok, Action.pure_eq_ok] at h
  obtain ⟨lowerFlipped, between, hlower, upperFlipped, staged', hupper, _, _, ⟨rfl, rfl⟩, position,
    _, ⟨hposition, rfl⟩, ⟨liquidity, amounts⟩, _, ⟨hamounts, rfl⟩, rfl, rfl⟩ := h
  obtain ⟨staged, rfl, hstaged, hflipped⟩ := staged_of_adjustBoundary horder hlower hupper
  exact ⟨staged, rfl, hstaged, hflipped, hposition, hamounts⟩

/-- Withdrawals take out the boundary ticks that fell out of use. -/
theorem get?_releaseBoundaries {staged : TickTable} {change : RangeChange}
    (hflipped : delta ≠ 0 → change.lowerFlipped = Flipped pool.ticks staged key.lower ∧
      change.upperFlipped = Flipped pool.ticks staged key.upper) (tick : Int) :
    (releaseBoundaries staged key delta change).get? tick =
      if delta < 0 ∧ key.IsEnd tick ∧ Flipped pool.ticks staged tick then none
      else staged.get? tick := by
  have herase : ∀ (table : TickTable) (condition : Prop) [Decidable condition] (other : Int),
      (if condition then OrderedMap.erase table other else table).get? tick =
        if condition ∧ tick = other then none else table.get? tick := by
    intro table condition _ other
    by_cases hcondition : condition
    · simp only [hcondition, if_true, true_and, OrderedMap.get?_erase,
        Std.LawfulEqCmp.compare_eq_iff_eq]
    · simp only [hcondition, if_false, false_and]
  unfold releaseBoundaries
  rw [herase, herase]
  by_cases hdelta : delta < 0
  · obtain ⟨hlower, hupper⟩ := hflipped hdelta.ne
    rw [hlower, hupper]
    by_cases hatUpper : tick = key.upper
    · subst hatUpper
      have hend : key.IsEnd key.upper := .inr rfl
      by_cases hflip : Flipped pool.ticks staged key.upper
      · rw [if_pos ⟨⟨hdelta, hflip⟩, rfl⟩, if_pos ⟨hdelta, hend, hflip⟩]
      · have hlowerKept :
            ¬((delta < 0 ∧ Flipped pool.ticks staged key.lower) ∧ key.upper = key.lower) := by
          rintro ⟨⟨-, hflipLower⟩, heq⟩
          exact hflip (heq ▸ hflipLower)
        rw [if_neg fun h ↦ hflip h.1.2, if_neg hlowerKept, if_neg fun h ↦ hflip h.2.2]
    · rw [if_neg fun h ↦ hatUpper h.2]
      by_cases hatLower : tick = key.lower
      · subst hatLower
        have hend : key.IsEnd key.lower := .inl rfl
        simp only [hdelta, hend, true_and, and_true]
      · have hoff : ¬key.IsEnd tick := not_or.mpr ⟨hatLower, hatUpper⟩
        rw [if_neg fun h ↦ hatLower h.2, if_neg fun h ↦ hoff h.2.1]
  · simp only [hdelta, false_and, if_false]

/-- A change of liquidity that finishes has passed all checks and written everything. -/
theorem adjusted_of_adjustPosition {amounts : TokenPair Int}
    (h : adjustPosition key delta pool = .ok amounts pool') :
    ∃ staged position, RangeAdjusted pool key delta staged position amounts pool' := by
  unfold adjustPosition at h
  simp only [Action.bind_eq_ok, Action.get_eq_ok, Action.lift_eq_ok, Action.modify_eq_ok,
    Action.mendingWith_eq_ok, Action.pure_eq_ok] at h
  obtain ⟨_, _, ⟨hrange, rfl⟩, _, _, ⟨rfl, rfl⟩, _, _, ⟨hlower, rfl⟩, _, _, ⟨hupper, rfl⟩, change,
    between, hstage, _, _, rfl, rfl, rfl⟩ := h
  obtain ⟨horder, hmin, hmax⟩ := checkRange_eq_ok.mp hrange
  obtain ⟨-, -, -, hlowerDvd⟩ := checkTick_eq_ok.mp hlower
  obtain ⟨-, -, -, hupperDvd⟩ := checkTick_eq_ok.mp hupper
  obtain ⟨staged, rfl, hstaged, hflipped, hposition, hamounts⟩ :=
    staged_of_stageChange horder hstage
  refine ⟨staged, change.position, horder, hmin, hmax, ?_, hstaged, hposition, hamounts, rfl,
    get?_releaseBoundaries hflipped⟩
  rintro (_ | _)
  · exact hlowerDvd
  · exact hupperDvd

/-- The liquidity of the pool changes where its tick lies in the range. -/
theorem liquidity_of_rangeAmounts {lower upper : Int} {liquidity : Nat} {amounts : TokenPair Int}
    (h : pool.rangeAmounts lower upper delta = .ok (liquidity, amounts)) :
    (liquidity : Int) =
      pool.liquidity + if lower ≤ pool.tick ∧ pool.tick < upper then delta else 0 := by
  unfold rangeAmounts at h
  split at h
  · rename_i hzero
    rw [← (Prod.mk.inj (Except.ok.inj h)).1, hzero, ite_self, add_zero]
  split at h
  · rename_i hbelow
    obtain ⟨zero, -, h⟩ := bind_eq_ok.mp h
    rw [← (Prod.mk.inj (Except.ok.inj h)).1, if_neg fun hin ↦ not_lt.mpr hin.1 hbelow, add_zero]
  rename_i habove
  split at h
  · rename_i hinside
    obtain ⟨zero, -, h⟩ := bind_eq_ok.mp h
    obtain ⟨one, -, h⟩ := bind_eq_ok.mp h
    obtain ⟨sum, hsum, h⟩ := bind_eq_ok.mp h
    rw [← (Prod.mk.inj (Except.ok.inj h)).1, if_pos ⟨not_lt.mp habove, hinside⟩]
    exact (addDelta_eq_ok.mp hsum).1
  · rename_i houtside
    obtain ⟨one, -, h⟩ := bind_eq_ok.mp h
    rw [← (Prod.mk.inj (Except.ok.inj h)).1, if_neg fun hin ↦ houtside hin.2, add_zero]

/-! ### Changes that fail -/

/-- Whether a pool differs from another in no more than the boundary ticks of a range. -/
def DiffersAtEnds (pool : Pool) (key : PositionKey) (pool' : Pool) : Prop :=
  ∃ ticks, pool' = { pool with ticks } ∧
    ∀ tick, ¬key.IsEnd tick → ticks.get? tick = pool.ticks.get? tick

theorem DiffersAtEnds.refl (pool : Pool) (key : PositionKey) : pool.DiffersAtEnds key pool :=
  ⟨pool.ticks, rfl, fun _ _ ↦ rfl⟩

/-- Putting the boundary ticks back undoes whatever was written to them. -/
theorem DiffersAtEnds.putBack (h : pool.DiffersAtEnds key pool') :
    putBackBoundaries pool.ticks key pool' = pool := by
  obtain ⟨ticks, rfl, hoff⟩ := h
  have hticks : (ticks.putBack key.lower (pool.ticks.get? key.lower)).putBack key.upper
      (pool.ticks.get? key.upper) = pool.ticks := by
    refine OrderedMap.ext_get? fun tick ↦ ?_
    rw [TickTable.get?_putBack, TickTable.get?_putBack]
    split
    · rename_i hupper
      rw [hupper]
    · rename_i hupper
      split
      · rename_i hlower
        rw [hlower]
      · rename_i hlower
        exact hoff tick (not_or.mpr ⟨hlower, hupper⟩)
  unfold putBackBoundaries
  rw [hticks]

theorem differsAtEnds_of_adjustBoundary (rangeEnd : RangeEnd) {flipped : Bool} {middle : Pool}
    (hbefore : pool.DiffersAtEnds key middle)
    (h : adjustBoundary (key.tickAt rangeEnd) delta rangeEnd middle = .ok flipped pool') :
    pool.DiffersAtEnds key pool' := by
  by_cases hdelta : delta = 0
  · subst hdelta
    rw [adjustBoundary_zero, Action.pure_eq_ok] at h
    exact h.2 ▸ hbefore
  · obtain ⟨ticks, rfl, hoff⟩ := hbefore
    obtain ⟨after, rfl, -⟩ := adjusted_of_adjustBoundary hdelta h
    refine ⟨_, rfl, fun tick htick ↦ ?_⟩
    have hne : tick ≠ key.tickAt rangeEnd := fun heq ↦ htick (heq ▸ key.isEnd_tickAt rangeEnd)
    rw [OrderedMap.get?_insert_of_ne _ _ hne, hoff tick htick]

theorem differsAtEnds_of_stageChange {failure : Failure}
    (h : stageChange key delta pool = .error failure pool') : pool.DiffersAtEnds key pool' := by
  have hstart := DiffersAtEnds.refl pool key
  unfold stageChange at h
  rcases Action.bind_eq_error.mp h with hlower | ⟨lowerFlipped, middle, hlower, h⟩
  · exact adjustBoundary_atomic _ _ _ _ _ _ hlower ▸ hstart
  have hmiddle : pool.DiffersAtEnds key middle :=
    differsAtEnds_of_adjustBoundary .lower hstart hlower
  rcases Action.bind_eq_error.mp h with hupper | ⟨upperFlipped, last, hupper, h⟩
  · exact adjustBoundary_atomic _ _ _ _ _ _ hupper ▸ hmiddle
  have hlast : pool.DiffersAtEnds key last :=
    differsAtEnds_of_adjustBoundary .upper hmiddle hupper
  -- The rest of the change reads the pool that both ends were written to, and writes nothing.
  refine (Action.Atomic.read_bind .get (fun staged ↦ ?_) _ _ _ h) ▸ hlast
  exact .read_bind (.lift _) fun position ↦ .read_bind (.lift _) fun _ ↦ .pure _

/-- A change of liquidity that fails leaves no trace. -/
theorem adjustPosition_atomic (key : PositionKey) (delta : Int) :
    (adjustPosition key delta).Atomic := by
  unfold adjustPosition
  refine .read_bind (.lift _) fun _ ↦ ?_
  intro pool failure pool' h
  simp only [Action.bind_eq_error, Action.get_eq_ok, Action.lift_eq_ok,
    Action.lift_eq_error, Action.mendingWith_eq_error, Action.get_ne_error,
    Action.modify_ne_error, Action.pure_ne_error, false_or, and_false, exists_false,
    or_false] at h
  obtain ⟨_, _, ⟨rfl, rfl⟩, h⟩ := h
  rcases h with ⟨-, rfl⟩ | ⟨_, _, ⟨-, rfl⟩, h⟩
  · rfl
  rcases h with ⟨-, rfl⟩ | ⟨_, _, ⟨-, rfl⟩, left, hfail, rfl⟩
  · rfl
  exact (differsAtEnds_of_stageChange hfail).putBack

end Pool

end RangeBook
