import Mathlib
import RangeBook.Proofs.Action
import RangeBook.Proofs.OrderedMap
import RangeBook.Tick.Boundary

/-!
# What is written at boundary ticks

A change of liquidity adds to what is kept at the two ends of its range (`BoundaryTick.Adjusted`),
and a price that passes a tick swaps the two sides of its growth. Neither of them touches another
tick, and crossing touches nothing but growth: the keys of the table, and with them the tick that
`next` finds, stay what they were.
-/

set_option autoImplicit false
set_option relaxedAutoImplicit false

namespace RangeBook

/-! ### Changes of liquidity -/

/-- The liquidity that enters as the price rises past an end of a range, for liquidity in it. -/
def RangeEnd.entering (rangeEnd : RangeEnd) (liquidity : Int) : Int :=
  match rangeEnd with
  | .lower => liquidity
  | .upper => -liquidity

namespace BoundaryTick

/-- What a change of liquidity makes of one of its boundary ticks. -/
structure Adjusted (tick current delta : Int) (growth : TokenPair Growth) (rangeEnd : RangeEnd)
    (cap : Nat) (before after : BoundaryTick) : Prop where
  gross_eq : (after.gross : Int) = before.gross + delta
  gross_le : after.gross ≤ cap
  net_eq : after.net = before.net + rangeEnd.entering delta
  growthOutside_eq :
    after.growthOutside =
      if before.gross = 0 ∧ tick ≤ current then growth else before.growthOutside

variable {tick current delta : Int} {growth : TokenPair Growth} {rangeEnd : RangeEnd} {cap : Nat}
  {before after : BoundaryTick} {flipped : Bool}

theorem adjusted_of_adjust
    (h : adjust tick current delta growth rangeEnd cap before = .ok flipped after) :
    Adjusted tick current delta growth rangeEnd cap before after ∧
      flipped = (decide (after.gross = 0) != decide (before.gross = 0)) := by
  unfold adjust at h
  simp only [Action.bind_eq_ok, Action.get_eq_ok, Action.lift_eq_ok] at h
  obtain ⟨_, _, ⟨rfl, rfl⟩, gross, _, ⟨hgross, rfl⟩, _, _, ⟨hcap, rfl⟩, hrest⟩ := h
  rw [require_eq_ok] at hcap
  have hgrossEq := (addDelta_eq_ok.mp hgross).1
  have hnetEq : ∀ net value, int128 (match rangeEnd with
      | .lower => value + delta
      | .upper => value - delta) = .ok net → net = value + rangeEnd.entering delta := by
    intro net value hnet
    rw [int128, within_eq_ok] at hnet
    rw [← hnet.2]
    cases rangeEnd
    · rfl
    · exact sub_eq_add_neg value delta
  split at hrest
  · rename_i hfirst
    simp only [Action.bind_eq_ok, Action.set_eq_ok, Action.lift_eq_ok, Action.modify_eq_ok,
      Action.pure_eq_ok] at hrest
    obtain ⟨_, _, rfl, net, _, ⟨hnet, rfl⟩, _, _, rfl, rfl, rfl⟩ := hrest
    exact ⟨⟨hgrossEq, hcap, hnetEq _ _ hnet, (if_pos hfirst).symm⟩, rfl⟩
  · rename_i hfirst
    simp only [Action.bind_eq_ok, Action.lift_eq_ok, Action.modify_eq_ok,
      Action.pure_eq_ok] at hrest
    obtain ⟨net, _, ⟨hnet, rfl⟩, _, _, rfl, rfl, rfl⟩ := hrest
    exact ⟨⟨hgrossEq, hcap, hnetEq _ _ hnet, (if_neg hfirst).symm⟩, rfl⟩

end BoundaryTick

namespace TickTable

variable {table table' : TickTable} {tick : Int}

/-- What is kept at a tick, blank where the tick is not in the table. -/
def find (table : TickTable) (tick : Int) : BoundaryTick :=
  (table.get? tick).getD .blank

theorem adjusted_of_adjust {current delta : Int} {growth : TokenPair Growth} {rangeEnd : RangeEnd}
    {cap : Nat} {flipped : Bool}
    (h : table.adjust tick current delta growth rangeEnd cap = .ok (flipped, table')) :
    ∃ after, table' = table.insert tick after ∧
      BoundaryTick.Adjusted tick current delta growth rangeEnd cap (table.find tick) after ∧
      flipped = (decide (after.gross = 0) != decide ((table.find tick).gross = 0)) := by
  obtain ⟨⟨flipped', after⟩, hadjust, hresult⟩ : ∃ result,
      (BoundaryTick.adjust tick current delta growth rangeEnd cap).outcome (table.find tick) =
        .ok result ∧ (result.1, table.insert tick result.2) = (flipped, table') := by
    unfold adjust at h
    unfold find
    cases hget : table.get? tick with
    | some boundary =>
      rw [hget] at h
      obtain ⟨before, hbefore, h⟩ := bind_eq_ok.mp h
      obtain rfl := Except.ok.inj hbefore
      obtain ⟨result, hadjust, hresult⟩ := bind_eq_ok.mp h
      exact ⟨result, hadjust, Except.ok.inj hresult⟩
    | none =>
      rw [hget] at h
      obtain ⟨_, -, h⟩ := bind_eq_ok.mp h
      obtain ⟨before, hbefore, h⟩ := bind_eq_ok.mp h
      obtain rfl := Except.ok.inj hbefore
      obtain ⟨result, hadjust, hresult⟩ := bind_eq_ok.mp h
      exact ⟨result, hadjust, Except.ok.inj hresult⟩
  obtain ⟨rfl, htable⟩ := Prod.mk.inj hresult
  obtain ⟨hadjusted, hflip⟩ := BoundaryTick.adjusted_of_adjust (Action.outcome_eq_ok.mp hadjust)
  exact ⟨after, htable.symm, hadjusted, hflip⟩

/-! ### Crossings -/

theorem get?_cross (table : TickTable) (tick other : Int) (growth : TokenPair Growth) :
    (table.cross tick growth).2.get? other =
      if other = tick then (table.get? tick).map (BoundaryTick.cross · growth)
      else table.get? other := by
  unfold cross
  split
  · rename_i boundary hget
    rw [OrderedMap.get?_insert, hget, Option.map_some]
    simp only [Std.LawfulEqCmp.compare_eq_iff_eq]
  · rename_i hget
    split
    · rename_i heq
      rw [heq, hget, Option.map_none]
    · rfl

/-! ### The next boundary tick -/

theorem next_zero_eq (table : TickTable) (tick : Int) :
    (∃ found, table.next tick .zero = (found, true) ∧ (table.get? found).isSome ∧ found ≤ tick ∧
        ∀ other, (table.get? other).isSome → other ≤ tick → other ≤ found) ∨
      (table.next tick .zero = (minTick, false) ∧
        ∀ other, (table.get? other).isSome → tick < other) := by
  unfold next
  cases hlast : table.last? fun key ↦ decide (key ≤ tick) with
  | some entry =>
    obtain ⟨hget, hle, hgreatest⟩ := OrderedMap.last?_eq_some hlast
    refine .inl ⟨entry.1, rfl, by rw [hget]; rfl, of_decide_eq_true hle, ?_⟩
    intro other hother hbelow
    exact hgreatest other hother (decide_eq_true hbelow)
  | none =>
    refine .inr ⟨rfl, fun other hother ↦ ?_⟩
    exact not_le.mp (of_decide_eq_false (OrderedMap.last?_eq_none hlast hother))

theorem next_one_eq (table : TickTable) (tick : Int) :
    (∃ found, table.next tick .one = (found, true) ∧ (table.get? found).isSome ∧ tick < found ∧
        ∀ other, (table.get? other).isSome → tick < other → found ≤ other) ∨
      (table.next tick .one = (maxTick, false) ∧
        ∀ other, (table.get? other).isSome → other ≤ tick) := by
  unfold next
  cases hfirst : table.first? fun key ↦ decide (tick < key) with
  | some entry =>
    obtain ⟨hget, hlt, hleast⟩ := OrderedMap.first?_eq_some hfirst
    refine .inl ⟨entry.1, rfl, by rw [hget]; rfl, of_decide_eq_true hlt, ?_⟩
    intro other hother habove
    exact hleast other hother (decide_eq_true habove)
  | none =>
    refine .inr ⟨rfl, fun other hother ↦ ?_⟩
    exact not_lt.mp (of_decide_eq_false (OrderedMap.first?_eq_none hfirst hother))

end TickTable

end RangeBook
