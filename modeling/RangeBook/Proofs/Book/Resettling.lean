import Mathlib
import RangeBook.Proofs.Book.Settling

/-!
# Settling an order more often

An order may be settled while its level is filled further and further, or once at the end
(`settleEach`). What rests of it is rounded down each time, and so is what was filled, what that cost
and the fee on it. A part of an amount is taken in two steps with no more rounded away upwards than
in one (`ceil_mul_add_floor_le`), and the worth of two fills is no more than that of both together
(`worth_add_le`). So an order that is settled more often ends with no more of it unfilled and with no
more credited (`settleEach_le`), and settling can go wrong on the way only where it goes wrong at the
end (`settling_often_never_gains`).

Where nothing was filled since, settling changes nothing (`settle_settled`).
-/

set_option autoImplicit false
set_option relaxedAutoImplicit false

namespace RangeBook

/-- What is rounded up of a part of an amount is made up for by what is rounded up of the amount,
where the part is taken of the amount rounded down. -/
theorem ceil_mul_add_floor_le {whole ratio : ℚ} (hwhole : 0 ≤ whole) (hratio : 0 ≤ ratio)
    (hle : ratio ≤ 1) :
    ⌈whole * ratio⌉₊ + ⌊whole⌋₊ ≤ ⌈whole⌉₊ + ⌈⌊whole⌋₊ * ratio⌉₊ := by
  rcases (Nat.floor_le_ceil whole).eq_or_lt with heq | hlt
  · have hinteger : (⌊whole⌋₊ : ℚ) = whole :=
      le_antisymm (Nat.floor_le hwhole) (heq ▸ Nat.le_ceil whole)
    rw [hinteger, ← heq, Nat.add_comm]
  · have hbelow : whole * ratio ≤ (⌈⌊whole⌋₊ * ratio⌉₊ + 1 : ℕ) := by
      push_cast
      calc whole * ratio ≤ (⌊whole⌋₊ + 1) * ratio :=
            mul_le_mul_of_nonneg_right (Nat.lt_floor_add_one whole).le hratio
        _ = ⌊whole⌋₊ * ratio + ratio := add_one_mul _ _
        _ ≤ ⌈⌊whole⌋₊ * ratio⌉₊ + 1 := add_le_add (Nat.le_ceil _) hle
    have hceiling := Nat.ceil_le.mpr hbelow
    omega

namespace LimitOrder

variable {order settled : LimitOrder} {level? last? : Option Level} {sold : Token}
  {price fee nextBatch : ℕ}

/-! ### What two fills are worth -/

theorem wholeCost_add_le (first second price : ℕ) (paid : Token) :
    Book.wholeCost first price paid + Book.wholeCost second price paid ≤
      Book.wholeCost (first + second) price paid := by
  cases paid
  all_goals
    dsimp only [Book.wholeCost]
    rw [Nat.add_mul]
    exact Nat.div_add_div_le_add_div

theorem wholeCost_le_wholeCost {less more : ℕ} (hle : less ≤ more) (price : ℕ) (paid : Token) :
    Book.wholeCost less price paid ≤ Book.wholeCost more price paid := by
  cases paid <;> exact Nat.div_le_div_right (Nat.mul_le_mul_right _ hle)

/-- Two fills are worth no more than both together. -/
theorem worth_add_le {first second whole : ℕ} (hle : first + second ≤ whole) (sold : Token)
    (price fee : ℕ) :
    worth first sold price fee + worth second sold price fee ≤ worth whole sold price fee := by
  have hcost : Book.wholeCost first price sold.other + Book.wholeCost second price sold.other ≤
      Book.wholeCost whole price sold.other :=
    le_trans (wholeCost_add_le _ _ _ _) (wholeCost_le_wholeCost hle _ _)
  unfold worth
  generalize Book.wholeCost first price sold.other = firstCost at hcost
  generalize Book.wholeCost second price sold.other = secondCost at hcost
  generalize Book.wholeCost whole price sold.other = cost at hcost
  have hfees : firstCost * fee / (feeDenominator - fee) + secondCost * fee / (feeDenominator - fee) ≤
      cost * fee / (feeDenominator - fee) := by
    refine le_trans Nat.div_add_div_le_add_div (Nat.div_le_div_right ?_)
    rw [← Nat.add_mul]
    exact Nat.mul_le_mul_right fee hcost
  omega

/-! ### The share of a batch -/

/-- The share of an order's batch that is unfilled, given the level at its tick: nothing once the
batch is gone. -/
def batchShare (order : LimitOrder) (level? : Option Level) : ℚ :=
  match level?.filter fun level ↦ level.batch == order.batch with
  | some level => level.unfilled.value
  | none => 0

theorem resting_eq (order : LimitOrder) (level? : Option Level) :
    order.resting level? =
      order.amount * (order.batchShare level? / order.lastUnfilled.value) := by
  unfold resting batchShare
  cases level?.filter fun level ↦ level.batch == order.batch with
  | some level => rfl
  | none => rw [zero_div, mul_zero]

theorem batchShare_nonneg (order : LimitOrder) (level? : Option Level) :
    0 ≤ order.batchShare level? := by
  unfold batchShare
  split
  · rename_i level _
    exact level.unfilled.value_pos.le
  · exact le_rfl

/-- Either the batch of an order rests at its tick and the order sees its share, or nothing of the
order is left. -/
theorem batchShare_eq_lastSeen_or (order : LimitOrder) (level? : Option Level) :
    order.batchShare level? = (order.lastSeen level?).value ∨
      order.batchShare level? = 0 ∧ order.lastSeen level? = order.lastUnfilled := by
  unfold batchShare lastSeen
  cases level?.filter fun level ↦ level.batch == order.batch with
  | some level => exact .inl rfl
  | none => exact .inr ⟨rfl, rfl⟩

/-- An order of 128 bits keeps to its level as long as that was not less filled when the order saw
it. -/
theorem fits_of_batchShare_le (hamount : order.amount < twoPow 128)
    (hle : order.batchShare level? ≤ order.lastUnfilled.value) :
    order.Fits level? (order.batch + 1) := by
  refine ⟨hamount, Nat.lt_succ_self _, fun level hlevel hbatch ↦ ?_⟩
  have hshare : order.batchShare level? = level.unfilled.value := by
    rw [batchShare, Option.mem_def.mp hlevel]
    simp only [Option.filter_some, hbatch, beq_self_eq_true, if_true]
  exact hshare ▸ hle

/-! ### Two settlements and one -/

/-- What an order leaves of itself shrinks by the same ratio whether it is settled in between or not,
apart from rounding. -/
theorem exists_ratio (hle : order.batchShare last? ≤ order.batchShare level?) :
    ∃ ratio : ℚ, 0 ≤ ratio ∧ ratio ≤ 1 ∧
      (order.advanced level?).resting last? = ⌊order.resting level?⌋₊ * ratio ∧
      order.resting last? = order.resting level? * ratio := by
  have hlast := order.batchShare_nonneg last?
  have hbatch : (order.advanced level?).batchShare last? = order.batchShare last? := rfl
  have hamount : (order.advanced level?).amount = ⌊order.resting level?⌋₊ := rfl
  have hseen : (order.advanced level?).lastUnfilled = order.lastSeen level? := rfl
  rw [resting_eq (order.advanced level?), hbatch, hamount, hseen, resting_eq order last?]
  rcases order.batchShare_eq_lastSeen_or level? with hshare | ⟨hgone, -⟩
  · have hpos := (order.lastSeen level?).value_pos
    have hlastPos := order.lastUnfilled.value_pos
    refine ⟨order.batchShare last? / (order.lastSeen level?).value, div_nonneg hlast hpos.le,
      (div_le_one hpos).mpr (hshare ▸ hle), rfl, ?_⟩
    rw [resting_eq order level?, hshare]
    field_simp
  · have hnothing : order.batchShare last? = 0 := le_antisymm (hgone ▸ hle) hlast
    refine ⟨0, le_rfl, zero_le_one, ?_, ?_⟩
    · rw [hnothing, zero_div]
    · rw [hnothing, zero_div, mul_zero, mul_zero]

/-- No more rests of an order that was settled in between. -/
theorem resting_advanced_le (hle : order.batchShare last? ≤ order.batchShare level?) :
    (order.advanced level?).resting last? ≤ order.resting last? := by
  obtain ⟨ratio, hratio, -, htwice, honce⟩ := exists_ratio hle
  rw [htwice, honce]
  exact mul_le_mul_of_nonneg_right (Nat.floor_le (order.resting_nonneg level?)) hratio

/-- What is filled of an order in two steps is no more than in one. -/
theorem filledSince_add_le (hfits : order.Fits level? nextBatch)
    (hle : order.batchShare last? ≤ order.batchShare level?) :
    order.filledSince level? + (order.advanced level?).filledSince last? ≤
      order.filledSince last? := by
  obtain ⟨ratio, hratio, hone, htwice, honce⟩ := exists_ratio hle
  have hrounded := ceil_mul_add_floor_le (order.resting_nonneg level?) hratio hone
  have hceiling : ⌈order.resting level?⌉₊ ≤ order.amount := Nat.ceil_le.mpr (resting_le hfits)
  have hfloor : ⌈(⌊order.resting level?⌋₊ : ℚ) * ratio⌉₊ ≤ ⌊order.resting level?⌋₊ :=
    Nat.ceil_le.mpr (mul_le_of_le_one_right (Nat.cast_nonneg _) hone)
  have hamount : (order.advanced level?).amount = ⌊order.resting level?⌋₊ := rfl
  rw [filledSince, filledSince, filledSince, hamount, htwice, honce]
  omega

/-! ### One settlement -/

/-- What settling an order credits. -/
def credited (order : LimitOrder) (level? : Option Level) (sold : Token) (price fee : ℕ) : ℕ :=
  worth (order.filledSince level?) sold price fee

/-- A settled order, where what is owed to its owner stays within 128 bits. -/
def caughtUp (order : LimitOrder) (level? : Option Level) (sold : Token) (price fee : ℕ) :
    LimitOrder :=
  { order.advanced level? with
    owed := order.owed.set sold.other
      (order.owed.get sold.other + order.credited level? sold price fee) }

@[simp] theorem caughtUp_owed_sold (order : LimitOrder) (level? : Option Level) (sold : Token)
    (price fee : ℕ) :
    (order.caughtUp level? sold price fee).owed.get sold = order.owed.get sold := by
  have hother := TokenPair.get_set_other order.owed sold.other
    (order.owed.get sold.other + order.credited level? sold price fee)
  rwa [Token.other_other] at hother

@[simp] theorem caughtUp_owed_bought (order : LimitOrder) (level? : Option Level) (sold : Token)
    (price fee : ℕ) :
    (order.caughtUp level? sold price fee).owed.get sold.other =
      order.owed.get sold.other + order.credited level? sold price fee :=
  TokenPair.get_set_self _ _ _

theorem Fits.settle_eq_ok (h : order.Fits level? nextBatch) (hpos : 0 < price)
    (hfee : fee < feeDenominator)
    (hcredit : order.owed.get sold.other + order.credited level? sold price fee < twoPow 128) :
    order.settle level? sold price fee = .ok (order.caughtUp level? sold price fee) := by
  refine bind_eq_ok.mpr ⟨_, h.advance_eq_ok, ?_⟩
  dsimp only
  split
  · rename_i hnothing
    have howed : order.owed.set sold.other
        (order.owed.get sold.other + order.credited level? sold price fee) = order.owed := by
      rw [credited, hnothing, worth_zero, Nat.add_zero]
      cases sold <;> rfl
    rw [caughtUp, howed]
    rfl
  · have hworth : order.credited level? sold price fee < twoPow 256 :=
      lt_trans (lt_of_le_of_lt (Nat.le_add_left _ _) hcredit) (by decide)
    have hearned : earnings (order.filledSince level?) sold price fee =
        .ok (order.credited level? sold price fee) := earnings_eq_ok hpos hfee hworth
    have howed : (order.advanced level?).owed = order.owed := rfl
    have hcaught : (order.advanced level?).credit sold.other
        (order.credited level? sold price fee) = order.caughtUp level? sold price fee := by
      rw [credit, caughtUp, howed, wrap128_of_lt hcredit]
    rw [← hcaught]
    exact bind_eq_ok.mpr ⟨_, hearned, rfl⟩

theorem fits_of_settle (hamount : order.amount < twoPow 128)
    (h : order.settle level? sold price fee = .ok settled) :
    order.Fits level? (order.batch + 1) := by
  obtain ⟨⟨advanced, filled⟩, h, -⟩ := bind_eq_ok.mp h
  refine fits_of_batchShare_le hamount ?_
  unfold advance at h
  split at h
  · rename_i level hlevel
    obtain ⟨⟨floor, ceiling⟩, hportion, -⟩ := bind_eq_ok.mp h
    have hle := (Share.portion_bounds (lt_trans hamount (by decide)) hportion).1
    rw [batchShare, hlevel]
    exact Share.value_le_value_iff.mpr hle
  · rename_i hlevel
    rw [batchShare, hlevel]
    exact order.lastUnfilled.value_pos.le

/-- Settling changes what an order notes of its fills, and what is owed to its owner. -/
theorem exists_owed_of_settle (hfits : order.Fits level? nextBatch)
    (h : order.settle level? sold price fee = .ok settled) :
    ∃ owed, settled = { order.advanced level? with owed } := by
  obtain ⟨advanced, hadvanced, h⟩ := bind_eq_ok.mp h
  rw [hfits.advance_eq_ok] at hadvanced
  obtain rfl := Except.ok.inj hadvanced
  dsimp only at h
  split at h
  · exact ⟨_, (Except.ok.inj h).symm⟩
  · obtain ⟨earned, -, h⟩ := bind_eq_ok.mp h
    exact ⟨_, (Except.ok.inj h).symm⟩

/-- Of the amount of an order, at most one unit is neither filled nor left when it is settled. -/
theorem split_of_settle (hamount : order.amount < twoPow 128)
    (h : order.settle level? sold price fee = .ok settled) :
    ∃ advanced filled, order.advance level? = .ok (advanced, filled) ∧
      settled.amount = advanced.amount ∧
      (order.amount = filled + settled.amount ∨ order.amount = filled + settled.amount + 1) := by
  have hfits := fits_of_settle hamount h
  obtain ⟨owed, rfl⟩ := exists_owed_of_settle hfits h
  refine ⟨_, _, hfits.advance_eq_ok, rfl, ?_⟩
  have hceiling : ⌈order.resting level?⌉₊ ≤ order.amount := Nat.ceil_le.mpr (resting_le hfits)
  have hnext := Nat.ceil_le_floor_add_one (order.resting level?)
  have hle := Nat.floor_le_ceil (order.resting level?)
  change order.amount = order.filledSince level? + ⌊order.resting level?⌋₊ ∨
    order.amount = order.filledSince level? + ⌊order.resting level?⌋₊ + 1
  rw [filledSince]
  omega

/-- An order that has taken note of its fills has seen the present share. -/
theorem lastSeen_advanced (order : LimitOrder) (level? : Option Level) (owed : TokenPair ℕ) :
    lastSeen { order.advanced level? with owed } level? = order.lastSeen level? := by
  unfold advanced lastSeen
  dsimp only
  cases level?.filter fun level ↦ level.batch == order.batch with
  | some level => rfl
  | none => rfl

/-- Settling a settled order again changes nothing. -/
theorem settle_settled (hamount : order.amount < twoPow 128)
    (h : order.settle level? sold price fee = .ok settled) :
    settled.settle level? sold price fee = .ok settled := by
  have hfits := fits_of_settle hamount h
  have hsettled := settled_of_settle hfits h
  have hresting : settled.resting level? = settled.amount := hsettled.resting_eq id settled.owed
  have hseen : settled.lastSeen level? = settled.lastUnfilled := by
    obtain ⟨owed, rfl⟩ := exists_owed_of_settle hfits h
    exact lastSeen_advanced order level? owed
  have hfilled : settled.filledSince level? = 0 := by
    rw [filledSince, hresting, Nat.ceil_natCast, Nat.sub_self]
  have hadvanced : settled.advanced level? = settled := by
    rw [advanced, hresting, hseen, Nat.floor_natCast]
  refine bind_eq_ok.mpr ⟨_, (hsettled.fits hfits).advance_eq_ok, ?_⟩
  rw [hfilled, hadvanced]
  rfl

/-! ### Many settlements -/

/-- Settles an order against its level as it was at one time after another. -/
def settleEach (order : LimitOrder) (levels : List (Option Level)) (sold : Token)
    (price fee : ℕ) : Outcome LimitOrder :=
  levels.foldlM (fun order level? ↦ order.settle level? sold price fee) order

/-- Whether the batch of an order is only ever filled further, from the share that the order saw
last. -/
def FilledFurther (order : LimitOrder) (levels : List (Option Level)) : Prop :=
  (order.lastUnfilled.value :: levels.map order.batchShare).Pairwise (· ≥ ·)

theorem FilledFurther.head {levels : List (Option Level)}
    (h : order.FilledFurther (level? :: levels)) :
    order.batchShare level? ≤ order.lastUnfilled.value :=
  (List.pairwise_cons.mp h).1 _ List.mem_cons_self

/-- What is settled in between sees a batch that is only filled further. -/
theorem FilledFurther.tail {levels : List (Option Level)}
    (h : order.FilledFurther (level? :: levels)) :
    (order.caughtUp level? sold price fee).FilledFurther levels := by
  obtain ⟨hfirst, hrest⟩ := List.pairwise_cons.mp h
  obtain ⟨hsecond, hrest⟩ := List.pairwise_cons.mp hrest
  refine List.pairwise_cons.mpr ⟨fun share hshare ↦ ?_, hrest⟩
  change (order.lastSeen level?).value ≥ share
  rcases order.batchShare_eq_lastSeen_or level? with heq | ⟨-, heq⟩
  · rw [← heq]
    exact hsecond share hshare
  · rw [heq]
    exact hfirst share (List.mem_cons_of_mem _ hshare)

/-- Later levels are filled no less. -/
theorem FilledFurther.last_le {levels : List (Option Level)}
    (h : order.FilledFurther (level? :: (levels ++ [last?]))) :
    order.batchShare last? ≤ order.batchShare level? := by
  obtain ⟨-, hrest⟩ := List.pairwise_cons.mp h
  exact (List.pairwise_cons.mp hrest).1 _ (List.mem_map_of_mem (by simp))

/-- An order that is settled again and again can be settled each time, and ends with no more of it
unfilled and no more credited than if it was settled once at the end. -/
theorem settleEach_le (hpos : 0 < price) (hfee : fee < feeDenominator)
    {levels : List (Option Level)} (hamount : order.amount < twoPow 128)
    (hfilled : order.FilledFurther (levels ++ [last?]))
    (hcredit : order.owed.get sold.other + order.credited last? sold price fee < twoPow 128) :
    ∃ often, order.settleEach (levels ++ [last?]) sold price fee = .ok often ∧
      often.amount ≤ ⌊order.resting last?⌋₊ ∧
      often.owed.get sold = order.owed.get sold ∧
      often.owed.get sold.other ≤
        order.owed.get sold.other + order.credited last? sold price fee := by
  induction levels generalizing order with
  | nil =>
    have hfits := fits_of_batchShare_le hamount hfilled.head
    exact ⟨order.caughtUp last? sold price fee,
      bind_eq_ok.mpr ⟨_, hfits.settle_eq_ok hpos hfee hcredit, rfl⟩, le_rfl,
      caughtUp_owed_sold .., (caughtUp_owed_bought ..).le⟩
  | cons level? levels ih =>
    have hfits := fits_of_batchShare_le hamount hfilled.head
    have hlast := hfilled.last_le
    have hworth : order.credited level? sold price fee +
        (order.caughtUp level? sold price fee).credited last? sold price fee ≤
          order.credited last? sold price fee :=
      worth_add_le (filledSince_add_le hfits hlast) sold price fee
    have hnext : order.settle level? sold price fee =
        .ok (order.caughtUp level? sold price fee) :=
      hfits.settle_eq_ok hpos hfee (by omega)
    have hnextAmount : (order.caughtUp level? sold price fee).amount < twoPow 128 :=
      lt_of_le_of_lt (Nat.floor_le_of_le (resting_le hfits)) hamount
    obtain ⟨often, hoften, hleft, hsold, hbought⟩ := ih hnextAmount hfilled.tail
      (by rw [caughtUp_owed_bought]; omega)
    rw [caughtUp_owed_sold] at hsold
    rw [caughtUp_owed_bought] at hbought
    refine ⟨often, bind_eq_ok.mpr ⟨_, hnext, hoften⟩, ?_, hsold, by omega⟩
    exact le_trans hleft (Nat.floor_mono (resting_advanced_le hlast))

/-- Settling an order more often never gains. While the batch of an order is filled further and
further, however often it is settled on the way, no more of it is left unfilled and no more is
credited than if it is settled once at the end, as long as what is owed then has 128 bits. Each
settlement splits the amount of the order into what was filled, what is left and at most one unit
that is rounded away, and leaves nothing to be done by another one. -/
theorem settling_often_never_gains (sold : Token) (hpos : 0 < price) (hfee : fee < feeDenominator)
    (hamount : order.amount < twoPow 128) :
    (∀ (levels : List (Option Level)) (last? : Option Level),
      order.FilledFurther (levels ++ [last?]) →
      order.owed.get sold.other + order.credited last? sold price fee < twoPow 128 →
      ∃ once often, order.settle last? sold price fee = .ok once ∧
        order.settleEach (levels ++ [last?]) sold price fee = .ok often ∧
        once.owed.get sold.other =
          order.owed.get sold.other + order.credited last? sold price fee ∧
        often.amount ≤ once.amount ∧ ∀ token, often.owed.get token ≤ once.owed.get token) ∧
    ∀ level? settled, order.settle level? sold price fee = .ok settled →
      (∃ advanced filled, order.advance level? = .ok (advanced, filled) ∧
        settled.amount = advanced.amount ∧
        (order.amount = filled + settled.amount ∨ order.amount = filled + settled.amount + 1)) ∧
      settled.settle level? sold price fee = .ok settled := by
  refine ⟨fun levels last? hfilled hcredit ↦ ?_, fun level? settled h ↦
    ⟨split_of_settle hamount h, settle_settled hamount h⟩⟩
  have hfits : order.Fits last? (order.batch + 1) := by
    refine fits_of_batchShare_le hamount ((List.pairwise_cons.mp hfilled).1 _ ?_)
    exact List.mem_map_of_mem (by simp)
  obtain ⟨often, hoften, hleft, hsold, hbought⟩ :=
    settleEach_le hpos hfee hamount hfilled hcredit
  refine ⟨order.caughtUp last? sold price fee, often,
    hfits.settle_eq_ok hpos hfee hcredit, hoften, caughtUp_owed_bought .., hleft,
    fun token ↦ ?_⟩
  by_cases htoken : token = sold
  · rw [htoken, hsold, caughtUp_owed_sold]
  · rw [Token.eq_other_of_ne htoken, caughtUp_owed_bought]
    exact hbought

/-- A share of just above one half. -/
def overHalf : Share :=
  { Share.largest with
    mantissa := twoPow 255 + 1
    mantissa_ge := by decide
    mantissa_lt := by decide }

/-- An order that is settled when half of it is filled and when all of it is. It loses a unit of its
amount and a unit of the fee to rounding. -/
theorem settling_often_never_gains_halfFilled :
    let order : LimitOrder := ⟨0, 1000, .largest, .both 0⟩
    let level : Level := ⟨0, 500, overHalf⟩
    ∃ once often, order.settle none .zero q96 3000 = .ok once ∧
      order.settleEach [some level, none] .zero q96 3000 = .ok often ∧
      once.owed = ⟨0, 1003⟩ ∧ often.owed = ⟨0, 1001⟩ ∧
      often.amount ≤ once.amount ∧ ∀ token, often.owed.get token ≤ once.owed.get token := by
  intro order level
  have hfilled : order.FilledFurther ([some level] ++ [none]) := by
    have hhalf : overHalf.value ≤ Share.largest.value :=
      Share.value_le_value_iff.mpr (by decide)
    have hshares : (Share.largest.value :: [overHalf.value, 0]).Pairwise (· ≥ ·) := by
      simp [hhalf, overHalf.value_pos.le, Share.largest.value_pos.le]
    exact hshares
  have hcredited : order.credited none .zero q96 3000 = 1003 := by
    rw [credited, filledSince, resting_none, Nat.ceil_zero]
    decide +kernel
  obtain ⟨once, often, honce, hoften, -, hamount, howed⟩ :=
    (settling_often_never_gains .zero (show 0 < q96 by decide)
      (show 3000 < feeDenominator by decide) (show order.amount < twoPow 128 by decide)).1
      [some level] none hfilled (by rw [hcredited]; decide)
  have honceOwed : (·.owed) <$> order.settle none .zero q96 3000 = .ok ⟨0, 1003⟩ := by
    decide +kernel
  have hoftenOwed : (·.owed) <$> order.settleEach [some level, none] .zero q96 3000 =
      .ok ⟨0, 1001⟩ := by decide +kernel
  rw [honce] at honceOwed
  rw [show [some level, none] = [some level] ++ [none] from rfl, hoften] at hoftenOwed
  exact ⟨once, often, honce, hoften, Except.ok.inj honceOwed, Except.ok.inj hoftenOwed, hamount,
    howed⟩

end LimitOrder

end RangeBook
