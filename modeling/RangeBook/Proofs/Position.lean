import Mathlib
import RangeBook.Position
import RangeBook.Proofs.OrderedMap
import RangeBook.Proofs.Pool.Range

/-!
# The liquidity of all positions

The books of a pool repeat what its positions hold: the liquidity that refers to a tick
(`grossAt`), the liquidity that enters as the price rises past it (`netAt`) and the liquidity
around a tick (`activeAt`) are all sums of the liquidity of positions with a weight that depends
on their range (`weigh`). So one lemma says how each of them follows a change of a position
(`weigh_insert`), and the three are cases of it.
-/

set_option autoImplicit false
set_option relaxedAutoImplicit false

namespace RangeBook

/-! ### Changes of one position -/

namespace Position

variable {position position' : Position} {delta : ℤ} {inside : TokenPair Growth}

/-- What an adjustment makes of a position. -/
structure AdjustedTo (position : Position) (delta : ℤ) (inside : TokenPair Growth)
    (position' : Position) : Prop where
  liquidity_eq : (position'.liquidity : ℤ) = position.liquidity + delta
  growthInside_eq : position'.growthInside = inside
  owed_eq : ∀ token, ∃ earned,
    feesEarned (inside.get token) (position.growthInside.get token) position.liquidity =
      .ok earned ∧
    position'.owed.get token = wrap128 (position.owed.get token + earned)

theorem adjusted_of_adjust (h : position.adjust delta inside = .ok position') :
    AdjustedTo position delta inside position' := by
  unfold adjust at h
  obtain ⟨liquidity, hliquidity, h⟩ := bind_eq_ok.mp h
  obtain ⟨feeZero, hfeeZero, h⟩ := bind_eq_ok.mp h
  obtain ⟨feeOne, hfeeOne, h⟩ := bind_eq_ok.mp h
  rw [← Except.ok.inj h]
  refine ⟨?_, rfl, fun token ↦ ?_⟩
  · unfold liquidityAfter at hliquidity
    split at hliquidity
    · rename_i hzero
      obtain ⟨_, -, hliquidity⟩ := bind_eq_ok.mp hliquidity
      rw [← Except.ok.inj hliquidity, hzero, add_zero]
    · exact (addDelta_eq_ok.mp hliquidity).1
  · cases token
    · exact ⟨feeZero, hfeeZero, rfl⟩
    · exact ⟨feeOne, hfeeOne, rfl⟩

end Position

/-! ### Finding positions -/

namespace PositionTable

variable {positions : PositionTable} {key other : PositionKey} {position : Position}

theorem find_eq (h : positions.get? key = some position) : positions.find key = position := by
  rw [find, h, Option.getD_some]

theorem find_insert_self (positions : PositionTable) (key : PositionKey) (position : Position) :
    find (positions.insert key position) key = position :=
  find_eq (OrderedMap.get?_insert_self _ _ _)

theorem find_insert_of_ne (positions : PositionTable) (position : Position) (hne : other ≠ key) :
    find (positions.insert key position) other = positions.find other := by
  rw [find, OrderedMap.get?_insert_of_ne _ _ hne, find]

/-- A position that holds liquidity is stored. -/
theorem get?_of_liquidity_ne_zero (h : (positions.find key).liquidity ≠ 0) :
    positions.get? key = some (positions.find key) := by
  unfold find at h ⊢
  cases hget : OrderedMap.get? positions key with
  | some position => rfl
  | none =>
    rw [hget] at h
    exact absurd rfl h

/-- The keys of the positions that hold liquidity. -/
def held (positions : PositionTable) : List PositionKey :=
  (positions.entries.filter fun entry ↦ entry.2.liquidity ≠ 0).map Prod.fst

theorem mem_held_iff : key ∈ positions.held ↔ (positions.find key).liquidity ≠ 0 := by
  unfold held
  simp only [List.mem_map, List.mem_filter, decide_eq_true_eq]
  constructor
  · rintro ⟨entry, ⟨hentry, hne⟩, rfl⟩
    rwa [find_eq ((OrderedMap.get?_eq_some_iff positions).mpr hentry)]
  · intro hne
    have hentry := (OrderedMap.get?_eq_some_iff positions).mp (get?_of_liquidity_ne_zero hne)
    exact ⟨_, ⟨hentry, hne⟩, rfl⟩

theorem nodup_held (positions : PositionTable) : positions.held.Nodup :=
  (OrderedMap.nodup_keys positions).sublist (List.filter_sublist.map Prod.fst)

/-- A quantity that is zero without liquidity adds up over the positions that hold some. -/
theorem total_eq_sum_held (positions : PositionTable) {quantity : PositionKey → Position → ℕ}
    (hzero : ∀ key position, position.liquidity = 0 → quantity key position = 0) :
    positions.total quantity =
      (positions.held.map fun key ↦ quantity key (positions.find key)).sum := by
  have hfilter : ∀ entries : List (PositionKey × Position),
      (entries.map fun entry ↦ quantity entry.1 entry.2).sum =
        ((entries.filter fun entry ↦ entry.2.liquidity ≠ 0).map
          fun entry ↦ quantity entry.1 entry.2).sum := by
    intro entries
    induction entries with
    | nil => rfl
    | cons entry entries ih =>
      by_cases hne : entry.2.liquidity = 0
      · rw [List.filter_cons_of_neg (by simp [hne]), List.map_cons, List.sum_cons,
          hzero entry.1 entry.2 hne, zero_add, ih]
      · rw [List.filter_cons_of_pos (by simp [hne]), List.map_cons, List.map_cons, List.sum_cons,
          List.sum_cons, ih]
  rw [held, List.map_map, OrderedMap.total, hfilter]
  refine congrArg List.sum (List.map_congr_left fun entry hentry ↦ ?_)
  have hget := (OrderedMap.get?_eq_some_iff positions).mpr (List.mem_filter.mp hentry).1
  exact congrArg (quantity entry.1) (find_eq hget).symm

end PositionTable

/-! ### Weighted sums -/

namespace PositionTable

variable {positions : PositionTable} {key : PositionKey} {tick : ℤ}

/-- The sum of the liquidity of all positions, each with the weight of its range. -/
def weigh (positions : PositionTable) (weight : PositionKey → ℤ) : ℤ :=
  positions.total fun key position ↦ weight key * position.liquidity

/-- The liquidity of the positions that begin or end at a tick. -/
def grossAt (positions : PositionTable) (tick : ℤ) : ℕ :=
  positions.total fun key position ↦ if key.IsEnd tick then position.liquidity else 0

/-- The liquidity of the positions that begin at a tick, less that of those that end there. -/
def netAt (positions : PositionTable) (tick : ℤ) : ℤ :=
  (positions.total fun key position ↦ if key.lower = tick then (position.liquidity : ℤ) else 0) -
    positions.total fun key position ↦ if key.upper = tick then (position.liquidity : ℤ) else 0

/-- The liquidity of the positions around a tick. -/
def activeAt (positions : PositionTable) (tick : ℤ) : ℕ :=
  positions.total fun key position ↦
    if key.lower ≤ tick ∧ tick < key.upper then position.liquidity else 0

end PositionTable

namespace PositionKey

/-- One for the ranges that begin or end at a tick. -/
def endWeight (tick : ℤ) (key : PositionKey) : ℤ :=
  if key.IsEnd tick then 1 else 0

/-- One for the ranges that begin at a tick, minus one for those that end there. -/
def netWeight (tick : ℤ) (key : PositionKey) : ℤ :=
  (if key.lower = tick then 1 else 0) - if key.upper = tick then 1 else 0

/-- One for the ranges around a tick. -/
def rangeWeight (tick : ℤ) (key : PositionKey) : ℤ :=
  if key.lower ≤ tick ∧ tick < key.upper then 1 else 0

/-- A range is around a tick where it begins at or below it and does not end there or below. -/
theorem rangeWeight_eq {key : PositionKey} (horder : key.lower < key.upper) (tick : ℤ) :
    rangeWeight tick key =
      (if key.lower ≤ tick then 1 else 0) - if key.upper ≤ tick then 1 else 0 := by
  unfold rangeWeight
  split_ifs <;> omega

variable {key : PositionKey} {tick : ℤ}

theorem netWeight_eq_zero (h : ¬key.IsEnd tick) : netWeight tick key = 0 := by
  obtain ⟨hlower, hupper⟩ := not_or.mp h
  rw [netWeight, if_neg fun heq ↦ hlower heq.symm, if_neg fun heq ↦ hupper heq.symm, sub_zero]

/-- Liquidity enters at the lower end of its range and leaves at the upper end. -/
theorem netWeight_tickAt_mul (horder : key.lower < key.upper) (rangeEnd : RangeEnd) (delta : ℤ) :
    netWeight (key.tickAt rangeEnd) key * delta = rangeEnd.entering delta := by
  cases rangeEnd with
  | lower => simp [netWeight, tickAt, RangeEnd.entering, horder.ne']
  | upper => simp [netWeight, tickAt, RangeEnd.entering, horder.ne]

end PositionKey

namespace PositionTable

variable {positions : PositionTable} {key : PositionKey} {tick : ℤ}

theorem total_ite_eq_weigh (positions : PositionTable) (condition : PositionKey → Prop)
    [DecidablePred condition] :
    ((positions.total fun key position ↦ if condition key then position.liquidity else 0 : ℕ) : ℤ) =
      positions.weigh fun key ↦ if condition key then 1 else 0 := by
  rw [OrderedMap.total_cast]
  refine OrderedMap.total_congr fun key position _ ↦ ?_
  rw [ite_mul, one_mul, zero_mul, Nat.cast_ite, Nat.cast_zero]

theorem grossAt_eq_weigh (positions : PositionTable) (tick : ℤ) :
    (positions.grossAt tick : ℤ) = positions.weigh (PositionKey.endWeight tick) :=
  positions.total_ite_eq_weigh (PositionKey.IsEnd · tick)

theorem activeAt_eq_weigh (positions : PositionTable) (tick : ℤ) :
    (positions.activeAt tick : ℤ) = positions.weigh (PositionKey.rangeWeight tick) :=
  positions.total_ite_eq_weigh fun key ↦ key.lower ≤ tick ∧ tick < key.upper

theorem netAt_eq_weigh (positions : PositionTable) (tick : ℤ) :
    positions.netAt tick = positions.weigh (PositionKey.netWeight tick) := by
  rw [netAt, sub_eq_iff_eq_add, weigh, ← OrderedMap.total_add]
  refine OrderedMap.total_congr fun key position _ ↦ ?_
  rw [PositionKey.netWeight]
  split_ifs <;> ring

/-- A change of the liquidity of a position changes a weighted sum by its weight. -/
theorem weigh_insert {position : Position} {delta : ℤ}
    (hliquidity : (position.liquidity : ℤ) = (positions.find key).liquidity + delta)
    (weight : PositionKey → ℤ) :
    weigh (positions.insert key position) weight = positions.weigh weight + weight key * delta := by
  have hsum := OrderedMap.total_insert positions
    (fun key position ↦ weight key * (position.liquidity : ℤ)) key position
  have hat : OrderedMap.amountAt positions
      (fun key position ↦ weight key * (position.liquidity : ℤ)) key =
        weight key * (positions.find key).liquidity := by
    rw [OrderedMap.amountAt, find]
    cases OrderedMap.get? positions key with
    | none => exact (mul_zero (weight key)).symm
    | some position => rfl
  rw [hat, hliquidity, mul_add] at hsum
  unfold weigh
  linarith

theorem grossAt_insert {position : Position} {delta : ℤ}
    (hliquidity : (position.liquidity : ℤ) = (positions.find key).liquidity + delta) (tick : ℤ) :
    (grossAt (positions.insert key position) tick : ℤ) =
      positions.grossAt tick + PositionKey.endWeight tick key * delta := by
  rw [grossAt_eq_weigh, grossAt_eq_weigh, weigh_insert hliquidity]

theorem netAt_insert {position : Position} {delta : ℤ}
    (hliquidity : (position.liquidity : ℤ) = (positions.find key).liquidity + delta) (tick : ℤ) :
    netAt (positions.insert key position) tick =
      positions.netAt tick + PositionKey.netWeight tick key * delta := by
  rw [netAt_eq_weigh, netAt_eq_weigh, weigh_insert hliquidity]

theorem activeAt_insert {position : Position} {delta : ℤ}
    (hliquidity : (position.liquidity : ℤ) = (positions.find key).liquidity + delta) (tick : ℤ) :
    (activeAt (positions.insert key position) tick : ℤ) =
      positions.activeAt tick + PositionKey.rangeWeight tick key * delta := by
  rw [activeAt_eq_weigh, activeAt_eq_weigh, weigh_insert hliquidity]

theorem weigh_congr {left right : PositionKey → ℤ}
    (h : ∀ key position, positions.get? key = some position → position.liquidity ≠ 0 →
      left key = right key) : positions.weigh left = positions.weigh right := by
  refine OrderedMap.total_congr fun key position hget ↦ ?_
  by_cases hzero : position.liquidity = 0
  · rw [hzero, Nat.cast_zero, mul_zero, mul_zero]
  · rw [h key position hget hzero]

theorem weigh_add_mul (positions : PositionTable) (left right : PositionKey → ℤ) (factor : ℤ) :
    positions.weigh (fun key ↦ left key + factor * right key) =
      positions.weigh left + factor * positions.weigh right := by
  unfold weigh
  rw [← OrderedMap.total_mul_left, ← OrderedMap.total_add]
  refine OrderedMap.total_congr fun key position _ ↦ ?_
  ring

/-- Liquidity refers to a tick exactly where a position that holds some begins or ends there. -/
theorem grossAt_pos_iff :
    0 < positions.grossAt tick ↔
      ∃ key position, positions.get? key = some position ∧ 0 < position.liquidity ∧
        key.IsEnd tick := by
  rw [grossAt, OrderedMap.total_pos_iff]
  constructor
  · rintro ⟨key, position, hget, hpos⟩
    split at hpos
    · exact ⟨key, position, hget, hpos, ‹_›⟩
    · exact absurd hpos (lt_irrefl 0)
  · rintro ⟨key, position, hget, hpos, hend⟩
    exact ⟨key, position, hget, by rwa [if_pos hend]⟩

theorem netAt_eq_zero (h : positions.grossAt tick = 0) : positions.netAt tick = 0 := by
  have hnone : ∀ key position, positions.get? key = some position → position.liquidity ≠ 0 →
      PositionKey.netWeight tick key = 0 := by
    intro key position hget hne
    have hend : ¬key.IsEnd tick := by
      intro hend
      have hpos := grossAt_pos_iff.mpr ⟨key, position, hget, Nat.pos_of_ne_zero hne, hend⟩
      omega
    exact PositionKey.netWeight_eq_zero hend
  rw [netAt_eq_weigh, weigh_congr hnone]
  unfold weigh
  simp only [zero_mul, OrderedMap.total_zero]

/-- No more liquidity enters or leaves at a tick than refers to it. -/
theorem abs_netAt_le_grossAt (positions : PositionTable) (tick : ℤ) :
    |positions.netAt tick| ≤ positions.grossAt tick := by
  have hnonneg : ∀ condition : PositionKey → Prop, [DecidablePred condition] → (0 : ℤ) ≤
      positions.total fun key position ↦ if condition key then (position.liquidity : ℤ) else 0 := by
    intro condition _
    refine OrderedMap.total_nonneg fun key position _ ↦ ?_
    split_ifs <;> simp
  have hle : ∀ condition : PositionKey → Prop, [DecidablePred condition] →
      (∀ key, condition key → key.IsEnd tick) →
      (positions.total fun key position ↦ if condition key then (position.liquidity : ℤ) else 0) ≤
        positions.grossAt tick := by
    intro condition _ hend
    rw [grossAt, OrderedMap.total_cast]
    refine OrderedMap.total_le_total fun key position _ ↦ ?_
    by_cases hcondition : condition key
    · rw [if_pos hcondition, if_pos (hend key hcondition)]
    · rw [if_neg hcondition]
      exact Nat.cast_nonneg _
  have hlower := hle (fun key ↦ key.lower = tick) fun _ heq ↦ .inl heq.symm
  have hupper := hle (fun key ↦ key.upper = tick) fun _ heq ↦ .inr heq.symm
  have hlowerNonneg := hnonneg fun key ↦ key.lower = tick
  have hupperNonneg := hnonneg fun key ↦ key.upper = tick
  rw [netAt, abs_le]
  constructor <;> omega

end PositionTable

end RangeBook
