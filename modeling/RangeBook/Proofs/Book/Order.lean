import Mathlib
import RangeBook.Book.Order
import RangeBook.Proofs.Share.Portion

/-!
# What an order rests on and what it earned

The exact unfilled amount of an order is its amount times the ratio of the share of its level to
the share that it saw last, and nothing once its batch is gone (`resting`). The rest was filled,
and the exact worth of it is its amount at the price of the tick with the fee on top (`charge`).

Settling an order rounds both down: it keeps at most what rests and credits at most the worth of
what was filled (`settled_of_settle`). So settling never raises what an order has a claim to
(`Settled.owed_le`), however often it happens.
-/

set_option autoImplicit false
set_option relaxedAutoImplicit false

namespace RangeBook

attribute [local irreducible] tickSqrtPrice tickAt

/-! ### Exact prices -/

namespace Book

/-- The price at a tick, for all ticks. -/
def tickPrice (tick : ℤ) : ℕ :=
  tickSqrtPrice tick * tickSqrtPrice tick / q96

/-- The exact cost of one unit of the token bought. -/
def unitCost (price : ℕ) (paid : Token) : ℚ :=
  match paid with
  | .zero => q96 / price
  | .one => price / q96

/-- The exact cost of one unit of the token bought, with the fee on top. -/
def charge (price fee : ℕ) (paid : Token) : ℚ :=
  unitCost price paid * (feeDenominator / (feeDenominator - fee : ℕ))

variable {tick : ℤ} {price fee amount result : ℕ} {paid : Token}

theorem priceAt_eq (h : priceAt tick = .ok price) : price = tickPrice tick := by
  unfold priceAt at h
  obtain ⟨sqrtPrice, hsqrtPrice, h⟩ := bind_eq_ok.mp h
  obtain ⟨-, rfl⟩ := sqrtPriceAt_eq_ok.mp hsqrtPrice
  exact (mulDivFloor_eq_ok.mp h).2.2

theorem unitCost_nonneg (price : ℕ) (paid : Token) : 0 ≤ unitCost price paid := by
  cases paid <;> unfold unitCost <;> positivity

theorem charge_nonneg (price fee : ℕ) (paid : Token) : 0 ≤ charge price fee paid :=
  mul_nonneg (unitCost_nonneg price paid) (by positivity)

theorem costFloor_le (h : costFloor amount price paid = .ok result) :
    (result : ℚ) ≤ amount * unitCost price paid := by
  cases paid <;> obtain ⟨hdivisor, -, rfl⟩ := mulDivFloor_eq_ok.mp h
  all_goals
    refine le_trans (floor_le_div _ (Nat.pos_of_ne_zero hdivisor)) (le_of_eq ?_)
    rw [Nat.cast_mul, unitCost, mul_div_assoc]

theorem le_costCeil (h : costCeil amount price paid = .ok result) :
    amount * unitCost price paid ≤ result := by
  cases paid <;> obtain ⟨hdivisor, -, rfl⟩ := mulDivCeil_eq_ok.mp h
  all_goals
    refine le_trans (le_of_eq ?_) (div_le_divCeil _ (Nat.pos_of_ne_zero hdivisor))
    rw [Nat.cast_mul, unitCost, mul_div_assoc]

/-- A cost with the fee that is on top of it. -/
theorem add_mul_fee (cost : ℚ) (hfee : fee < feeDenominator) :
    cost + cost * fee / (feeDenominator - fee : ℕ) =
      cost * (feeDenominator / (feeDenominator - fee : ℕ)) := by
  have hrest : ((feeDenominator - fee : ℕ) : ℚ) ≠ 0 := by
    exact_mod_cast (Nat.sub_pos_of_lt hfee).ne'
  field_simp
  rw [Nat.cast_sub hfee.le]
  ring

/-- A cost rounded up with its fee rounded up is at least the exact charge. -/
theorem charge_le {cost charged : ℕ} (hfee : fee < feeDenominator)
    (hcost : amount * unitCost price paid ≤ cost) (hcharged : feeOn cost fee = .ok charged) :
    amount * charge price fee paid ≤ cost + charged := by
  obtain ⟨hdivisor, -, rfl⟩ := mulDivCeil_eq_ok.mp hcharged
  have hceil := div_le_divCeil (cost * fee) (Nat.pos_of_ne_zero hdivisor)
  rw [Nat.cast_mul] at hceil
  calc amount * charge price fee paid
      = amount * unitCost price paid * (feeDenominator / (feeDenominator - fee : ℕ)) := by
        rw [charge, mul_assoc]
    _ ≤ cost * (feeDenominator / (feeDenominator - fee : ℕ)) :=
        mul_le_mul_of_nonneg_right hcost (by positivity)
    _ = cost + cost * fee / (feeDenominator - fee : ℕ) := (add_mul_fee _ hfee).symm
    _ ≤ cost + divCeil (cost * fee) (feeDenominator - fee) := by linarith

end Book

namespace LimitOrder

variable {order settled : LimitOrder} {level? : Option Level} {sold token : Token}
  {price fee filled earned : ℕ}

/-- What an order earns is at most the exact charge for what was filled of it. -/
theorem earnings_le (h : earnings filled sold price fee = .ok earned) :
    (earned : ℚ) ≤ filled * Book.charge price fee sold.other := by
  unfold earnings at h
  obtain ⟨bought, hbought, h⟩ := bind_eq_ok.mp h
  obtain ⟨rest, hrest, h⟩ := bind_eq_ok.mp h
  obtain ⟨fees, hfees, h⟩ := bind_eq_ok.mp h
  obtain ⟨-, rfl⟩ := within_eq_ok.mp h
  obtain ⟨hle, rfl⟩ := remainder_eq_ok.mp hrest
  obtain ⟨hdivisor, -, rfl⟩ := mulDivFloor_eq_ok.mp hfees
  have hfee : fee < feeDenominator := by omega
  have hfloor := floor_le_div (bought * fee) (Nat.pos_of_ne_zero hdivisor)
  rw [Nat.cast_mul] at hfloor
  rw [Nat.cast_add]
  calc (bought : ℚ) + (bought * fee / (feeDenominator - fee) : ℕ)
      ≤ bought + bought * fee / (feeDenominator - fee : ℕ) := by linarith
    _ = bought * (feeDenominator / (feeDenominator - fee : ℕ)) := Book.add_mul_fee _ hfee
    _ ≤ filled * Book.unitCost price sold.other *
          (feeDenominator / (feeDenominator - fee : ℕ)) :=
        mul_le_mul_of_nonneg_right (Book.costFloor_le hbought) (by positivity)
    _ = filled * Book.charge price fee sold.other := by rw [Book.charge, mul_assoc]

/-! ### What rests of an order -/

/-- The exact amount of an order that is unfilled, given the level at its tick. -/
def resting (order : LimitOrder) (level? : Option Level) : ℚ :=
  match level?.filter fun level ↦ level.batch == order.batch with
  | some level => order.amount * (level.unfilled.value / order.lastUnfilled.value)
  | none => 0

theorem resting_none (order : LimitOrder) : order.resting none = 0 :=
  rfl

theorem resting_of_eq {level : Level} (hbatch : level.batch = order.batch) :
    order.resting (some level) =
      order.amount * (level.unfilled.value / order.lastUnfilled.value) := by
  simp only [resting, Option.filter_some, hbatch, beq_self_eq_true, if_true]

theorem resting_of_ne {level : Level} (hbatch : level.batch ≠ order.batch) :
    order.resting (some level) = 0 := by
  simp only [resting, Option.filter_some, beq_eq_false_iff_ne.mpr hbatch, Bool.false_eq_true,
    if_false]

theorem resting_of_upToDate {level : Level} (hbatch : level.batch = order.batch)
    (hunfilled : level.unfilled = order.lastUnfilled) :
    order.resting (some level) = order.amount := by
  rw [resting_of_eq hbatch, hunfilled, div_self order.lastUnfilled.value_pos.ne', mul_one]

theorem resting_of_amount_eq_zero (h : order.amount = 0) : order.resting level? = 0 := by
  unfold resting
  split
  · rw [h, Nat.cast_zero, zero_mul]
  · rfl

theorem resting_nonneg (order : LimitOrder) (level? : Option Level) : 0 ≤ order.resting level? := by
  unfold resting
  split
  · rename_i level _
    have hratio := div_pos level.unfilled.value_pos order.lastUnfilled.value_pos
    positivity
  · exact le_rfl

/-- What an order of a book keeps to: its amount has 128 bits, its batch was given out, and the
level at its tick has not been less filled than the order saw. -/
structure Fits (order : LimitOrder) (level? : Option Level) (nextBatch : ℕ) : Prop where
  amount_lt : order.amount < twoPow 128
  batch_lt : order.batch < nextBatch
  unfilled_le : ∀ level ∈ level?, level.batch = order.batch →
    level.unfilled.value ≤ order.lastUnfilled.value

theorem resting_le {nextBatch : ℕ} (h : order.Fits level? nextBatch) :
    order.resting level? ≤ order.amount := by
  cases level? with
  | none => exact Nat.cast_nonneg order.amount
  | some level =>
    by_cases hbatch : level.batch = order.batch
    · have hratio := (div_le_one order.lastUnfilled.value_pos).mpr
        (h.unfilled_le level rfl hbatch)
      rw [resting_of_eq hbatch]
      exact mul_le_of_le_one_right (Nat.cast_nonneg _) hratio
    · rw [resting_of_ne hbatch]
      exact Nat.cast_nonneg order.amount

/-! ### Settling -/

/-- What settling does to an order: what is left of it rests at the present share of its level, or
nothing is left, and what it earned is credited in the token bought. -/
structure Settled (order : LimitOrder) (level? : Option Level) (sold : Token) (price fee : ℕ)
    (settled : LimitOrder) : Prop where
  batch_eq : settled.batch = order.batch
  amount_le : (settled.amount : ℚ) ≤ order.resting level?
  upToDate : settled.amount = 0 ∨
    ∃ level ∈ level?, level.batch = settled.batch ∧ level.unfilled = settled.lastUnfilled
  unfilled_le : ∀ level ∈ level?, level.batch = settled.batch →
    level.unfilled.value ≤ settled.lastUnfilled.value
  sold_eq : settled.owed.get sold = order.owed.get sold
  bought_le : (settled.owed.get sold.other : ℚ) ≤ order.owed.get sold.other +
    (order.amount - order.resting level?) * Book.charge price fee sold.other

/-- Taking note of fills rounds down both what is left and what was filled. -/
theorem advance_bounds {nextBatch : ℕ} (hfits : order.Fits level? nextBatch)
    (h : order.advance level? = .ok (settled, filled)) :
    settled.batch = order.batch ∧ settled.owed = order.owed ∧
      (settled.amount : ℚ) ≤ order.resting level? ∧
      (filled : ℚ) ≤ order.amount - order.resting level? ∧
      (settled.amount = 0 ∧ settled.lastUnfilled = order.lastUnfilled ∨
        ∃ level ∈ level?, level.batch = settled.batch ∧ level.unfilled = settled.lastUnfilled) := by
  unfold advance at h
  split at h
  · rename_i level hlevel
    have hresting : order.resting level? =
        order.amount * (level.unfilled.value / order.lastUnfilled.value) := by
      rw [resting, hlevel]
    obtain ⟨⟨floor, ceiling⟩, hportion, h⟩ := bind_eq_ok.mp h
    obtain ⟨amount, hfilled, h⟩ := bind_eq_ok.mp h
    obtain ⟨rfl, rfl⟩ := Prod.mk.inj (Except.ok.inj h)
    obtain ⟨hceiling, rfl⟩ := remainder_eq_ok.mp hfilled
    have hwide : order.amount < twoPow 256 := lt_trans hfits.amount_lt (by decide)
    obtain ⟨-, hfloor, hexact⟩ := Share.portion_bounds hwide hportion
    have hwrap : (wrap128 floor : ℚ) ≤ floor := by exact_mod_cast Nat.mod_le _ _
    obtain ⟨hmem, hbatch⟩ := Option.filter_eq_some_iff.mp hlevel
    rw [hresting, Nat.cast_sub hceiling]
    refine ⟨rfl, rfl, le_trans hwrap hfloor, by linarith, .inr ⟨level, hmem, ?_, rfl⟩⟩
    exact beq_iff_eq.mp hbatch
  · rename_i hlevel
    obtain ⟨rfl, rfl⟩ := Prod.mk.inj (Except.ok.inj h)
    have hresting : order.resting level? = 0 := by rw [resting, hlevel]
    rw [hresting, sub_zero]
    exact ⟨rfl, rfl, le_of_eq Nat.cast_zero, le_rfl, .inl ⟨rfl, rfl⟩⟩

theorem settled_of_settle {nextBatch : ℕ} (hfits : order.Fits level? nextBatch)
    (h : order.settle level? sold price fee = .ok settled) :
    Settled order level? sold price fee settled := by
  unfold settle at h
  obtain ⟨⟨advanced, filled⟩, hadvanced, h⟩ := bind_eq_ok.mp h
  obtain ⟨hbatch, howed, hamount, hfilled, hdate⟩ := advance_bounds hfits hadvanced
  have hunfilled : ∀ level ∈ level?, level.batch = advanced.batch →
      level.unfilled.value ≤ advanced.lastUnfilled.value := by
    intro level hlevel hsame
    rcases hdate with ⟨-, hlast⟩ | ⟨other, hother, -, hlast⟩
    · rw [hlast]
      exact hfits.unfilled_le level hlevel (hsame.trans hbatch)
    · rw [← hlast, Option.mem_unique hlevel hother]
  have hworth := mul_le_mul_of_nonneg_right hfilled (Book.charge_nonneg price fee sold.other)
  have hdate' := hdate.imp And.left id
  dsimp only at h
  split at h
  · rename_i hzero
    obtain rfl := Except.ok.inj h
    rw [hzero, Nat.cast_zero, zero_mul] at hworth
    refine ⟨hbatch, hamount, hdate', hunfilled, by rw [howed], ?_⟩
    rw [howed]
    linarith
  · obtain ⟨earned, hearned, h⟩ := bind_eq_ok.mp h
    obtain rfl := Except.ok.inj h
    refine ⟨hbatch, hamount, hdate', hunfilled, ?_, ?_⟩
    · rw [credit, howed]
      cases sold <;> rfl
    · have hearnedLe := earnings_le hearned
      have hwrap : (wrap128 (order.owed.get sold.other + earned) : ℚ) ≤
          order.owed.get sold.other + earned := by exact_mod_cast Nat.mod_le _ _
      rw [credit, howed, TokenPair.get_set_self]
      linarith

/-- Settling leaves no more of an order than there was. -/
theorem Settled.amount_le_amount {nextBatch : ℕ} (h : Settled order level? sold price fee settled)
    (hfits : order.Fits level? nextBatch) : settled.amount ≤ order.amount := by
  have hamount : (settled.amount : ℚ) ≤ order.amount := le_trans h.amount_le (resting_le hfits)
  exact_mod_cast hamount

/-- A settled order keeps to what the order did. -/
theorem Settled.fits {nextBatch : ℕ} (h : Settled order level? sold price fee settled)
    (hfits : order.Fits level? nextBatch) : settled.Fits level? nextBatch :=
  ⟨lt_of_le_of_lt (h.amount_le_amount hfits) hfits.amount_lt,
    lt_of_eq_of_lt h.batch_eq hfits.batch_lt, h.unfilled_le⟩

/-- All of a settled order rests at its tick, and so does what is left of it when some is taken
out. -/
theorem Settled.resting_eq (h : Settled order level? sold price fee settled) {amount : ℕ}
    (hamount : settled.amount = 0 → amount = 0) (owed : TokenPair ℕ) :
    resting { settled with amount, owed } level? = amount := by
  rcases h.upToDate with hzero | ⟨level, hlevel, hbatch, hunfilled⟩
  · have hnothing := hamount hzero
    rw [hnothing, Nat.cast_zero]
    exact resting_of_amount_eq_zero rfl
  · rw [Option.mem_def.mp hlevel]
    exact resting_of_upToDate hbatch hunfilled

/-! ### Claims of an order -/

/-- What an order has a claim to besides its unfilled amount: what is owed to its owner and, in the
token bought, the exact worth of what was filled. -/
def claim (order : LimitOrder) (level? : Option Level) (sold token : Token) (price fee : ℕ) : ℚ :=
  order.owed.get token +
    if token = sold then 0
    else (order.amount - order.resting level?) * Book.charge price fee sold.other

theorem claim_nonneg {nextBatch : ℕ} (h : order.Fits level? nextBatch) :
    0 ≤ order.claim level? sold token price fee := by
  have hfilled := sub_nonneg.mpr (resting_le h)
  have hcharge := Book.charge_nonneg price fee sold.other
  unfold claim
  split <;> positivity

theorem claim_of_resting (h : order.resting level? = order.amount) :
    order.claim level? sold token price fee = order.owed.get token := by
  unfold claim
  rw [h, sub_self, zero_mul, ite_self, add_zero]

theorem IsBlank.claim_eq (h : order.IsBlank) : order.claim level? sold token price fee = 0 := by
  have hresting : order.resting level? = order.amount := by
    rw [resting_of_amount_eq_zero h.1, h.1, Nat.cast_zero]
  rw [claim_of_resting hresting, h.2]
  cases token <;> exact Nat.cast_zero

/-- Settling an order never raises its claims: what is owed once it is settled was part of them
before. -/
theorem Settled.owed_le (h : Settled order level? sold price fee settled) (token : Token) :
    (settled.owed.get token : ℚ) ≤ order.claim level? sold token price fee := by
  unfold claim
  split
  · rename_i hsold
    rw [hsold, h.sold_eq, add_zero]
  · rename_i hsold
    obtain rfl := Token.eq_other_of_ne hsold
    exact h.bought_le

theorem credit_le (order : LimitOrder) (sold token : Token) (amount : ℕ) :
    (order.credit sold amount).owed.get token ≤
      order.owed.get token + if token = sold then amount else 0 := by
  unfold credit
  by_cases htoken : token = sold
  · rw [if_pos htoken, htoken, TokenPair.get_set_self]
    exact Nat.mod_le _ _
  · obtain rfl := Token.eq_other_of_ne htoken
    rw [if_neg htoken, TokenPair.get_set_other]
    exact le_rfl

end LimitOrder

end RangeBook
