import Mathlib
import RangeBook.Proofs.Book.Operations

/-!
# What owners do to a book

Placing, cancelling and collecting all settle one order and write it back, changed in its amount
and in what is owed (`Side.Rewritten.writtenBack`). So a book stays sound, placing adds to its claims
what is placed, cancelling adds nothing, and collecting takes off what is paid out.
-/

set_option autoImplicit false
set_option relaxedAutoImplicit false

namespace RangeBook

attribute [local irreducible] tickSqrtPrice tickAt

/-! ### Writing a settled order back -/

namespace Side

variable {side after : Side} {sold token : Token} {fee nextBatch nextBatch' : ℕ} {key : OrderKey}
  {order old settled : LimitOrder}

/-- The order at a key. Where there is none it is a blank one. -/
def HoldsAt (side : Side) (key : OrderKey) (order : LimitOrder) : Prop :=
  side.orders.get? key = some order ∨ side.orders.get? key = none ∧ order.IsBlank

theorem HoldsAt.resting_eq (h : side.HoldsAt key order) :
    side.orders.amountAt side.restingOf key = order.resting (side.levels.get? key.tick) := by
  rcases h with hsome | ⟨hnone, hblank⟩
  · rw [OrderedMap.amountAt, hsome, Option.elim_some, restingOf]
  · rw [OrderedMap.amountAt, hnone, Option.elim_none, LimitOrder.resting_of_amount_eq_zero hblank.1]

theorem HoldsAt.claim_eq (h : side.HoldsAt key order) :
    side.orders.amountAt (side.claimOf sold token fee) key =
      order.claim (side.levels.get? key.tick) sold token (Book.tickPrice key.tick) fee := by
  rcases h with hsome | ⟨hnone, hblank⟩
  · rw [OrderedMap.amountAt, hsome, Option.elim_some, claimOf]
  · rw [OrderedMap.amountAt, hnone, Option.elim_none, hblank.claim_eq]

/-- What rests of the order at a key is part of what rests at its tick. -/
theorem HoldsAt.resting_le (h : side.HoldsAt key order) :
    order.resting (side.levels.get? key.tick) ≤ side.restingAt key.tick := by
  rcases h with hsome | ⟨-, hblank⟩
  · exact side.restingOf_le_restingAt hsome
  · rw [LimitOrder.resting_of_amount_eq_zero hblank.1]
    exact side.restingAt_nonneg key.tick

/-- A settled order that is written back, all of it at rest, adds to the claims what is added to it
and to what is owed. -/
theorem Rewritten.writtenBack (hw : side.Rewritten nextBatch key after) (h : side.Sound nextBatch)
    (hbatch : nextBatch ≤ nextBatch') (hold : side.HoldsAt key old)
    (hsettled : LimitOrder.Settled old (side.levels.get? key.tick) sold
      (Book.tickPrice key.tick) fee settled)
    (horder : after.HoldsAt key order)
    (hrests : order.resting (after.levels.get? key.tick) = order.amount)
    (hfits : order.Fits (after.levels.get? key.tick) nextBatch')
    (hlevel : ∀ level ∈ after.levels.get? key.tick, level.Fits nextBatch')
    (hamount : order.amount + side.availableAt key.tick ≤
      settled.amount + after.availableAt key.tick) :
    after.Sound nextBatch' ∧ ∀ token, after.claims sold token fee + settled.owed.get token +
        (if token = sold then side.availableAt key.tick else 0) ≤
      side.claims sold token fee + order.owed.get token +
        (if token = sold then after.availableAt key.tick else 0) := by
  constructor
  · refine hw.sound h hbatch hlevel (fun other hother ↦ ?_) ?_
    · rcases horder with hsome | ⟨hnone, -⟩
      · rw [Option.mem_unique hother hsome]
        exact hfits
      · rw [hnone] at hother
        exact absurd hother (Option.not_mem_none other)
    · rw [horder.resting_eq, hold.resting_eq, hrests]
      have hle := hsettled.amount_le
      linarith
  · intro token
    have hclaims := hw.claims_eq h sold token fee
    have howed := hsettled.owed_le token
    rw [horder.claim_eq, hold.claim_eq, LimitOrder.claim_of_resting hrests] at hclaims
    linarith

theorem holdsAt_keep (side : Side) (key : OrderKey) (order : LimitOrder) :
    (side.keep key order).HoldsAt key order := by
  unfold keep HoldsAt
  by_cases hblank : order.IsBlank
  · right
    simp only [if_pos hblank]
    exact ⟨OrderedMap.get?_erase_self _ _, hblank⟩
  · left
    simp only [if_neg hblank]
    exact OrderedMap.get?_insert_self _ _ _

theorem orders_keep (side : Side) (key : OrderKey) (order : LimitOrder) {other : OrderKey}
    (hother : other ≠ key) : (side.keep key order).orders.get? other = side.orders.get? other := by
  unfold keep
  by_cases hblank : order.IsBlank
  · simp only [if_pos hblank]
    exact OrderedMap.get?_erase_of_ne _ hother
  · simp only [if_neg hblank]
    exact OrderedMap.get?_insert_of_ne _ _ hother

theorem rewritten_keep (side : Side) (nextBatch : ℕ) (key : OrderKey) (order : LimitOrder) :
    side.Rewritten nextBatch key (side.keep key order) :=
  ⟨fun _ hother ↦ side.orders_keep key order hother, fun _ _ ↦ rfl, .refl _ _⟩

/-- Keeping a settled order, of which something that is owed may be paid out. -/
theorem sound_keep (h : side.Sound nextBatch) (hold : side.orders.get? key = some old)
    (hsettled : LimitOrder.Settled old (side.levels.get? key.tick) sold
      (Book.tickPrice key.tick) fee settled) (owed : TokenPair ℕ) :
    (side.keep key { settled with owed }).Sound nextBatch ∧ ∀ token,
      (side.keep key { settled with owed }).claims sold token fee + settled.owed.get token ≤
        side.claims sold token fee + owed.get token := by
  have hfits := hsettled.fits (h.orders key old hold)
  have hrests : LimitOrder.resting { settled with owed } (side.levels.get? key.tick) =
      settled.amount := hsettled.resting_eq id owed
  obtain ⟨hsound, hclaims⟩ := (side.rewritten_keep nextBatch key { settled with owed }).writtenBack h
    le_rfl (.inl hold) hsettled (side.holdsAt_keep key _) hrests
    ⟨hfits.amount_lt, hfits.batch_lt, hfits.unfilled_le⟩
    (fun level hlevel ↦ h.levels key.tick level hlevel) le_rfl
  refine ⟨hsound, fun token ↦ ?_⟩
  have htoken := hclaims token
  have havailable : (side.keep key { settled with owed }).availableAt key.tick =
      side.availableAt key.tick := rfl
  rw [havailable] at htoken
  linarith

/-- A side whose level at the tick of an order offers less, with the order written back. -/
theorem rewritten_lowered {level : Level} (hlevel : side.levels.get? key.tick = some level)
    (nextBatch available : ℕ) (order : LimitOrder) :
    side.Rewritten nextBatch key
      ((side.withLevel key.tick { level with available }).keep key order) := by
  refine ⟨fun other hother ↦ orders_keep _ key order hother,
    fun tick htick ↦ OrderedMap.get?_insert_of_ne _ _ htick, ?_⟩
  have hget : ((side.withLevel key.tick { level with available }).keep key order).levels.get?
      key.tick = some { level with available } := side.get?_withLevel _ _
  rw [hget, hlevel]
  exact .kept _

theorem availableAt_lowered (side : Side) (key : OrderKey) (level : Level) (available : ℕ)
    (order : LimitOrder) :
    ((side.withLevel key.tick { level with available }).keep key order).availableAt key.tick =
      available :=
  availableAt_of_get? (side.get?_withLevel key.tick { level with available })

/-- Taking an amount of a settled order out of its level, where it is owed to the owner instead,
before the level is taken out if nothing is left of it. -/
theorem sound_of_lowered (h : side.Sound nextBatch) (hold : side.orders.get? key = some old)
    (hsettled : LimitOrder.Settled old (side.levels.get? key.tick) sold
      (Book.tickPrice key.tick) fee settled)
    {level : Level} (hlevel : side.levels.get? key.tick = some level) {taken : ℕ}
    (htaken : taken ≤ settled.amount) (havailable : taken ≤ level.available) :
    let lowered := side.withLevel key.tick { level with available := level.available - taken }
    (lowered.keep key (settled.reduced sold taken)).Sound nextBatch ∧ ∀ token,
      (lowered.keep key (settled.reduced sold taken)).claims sold token fee ≤
        side.claims sold token fee := by
  intro lowered
  have hlevelFits := h.levels key.tick level hlevel
  have hget : (lowered.keep key (settled.reduced sold taken)).levels.get? key.tick =
      some { level with available := level.available - taken } :=
    side.get?_withLevel _ _
  have hrewritten : side.Rewritten nextBatch key (lowered.keep key (settled.reduced sold taken)) :=
    rewritten_lowered hlevel nextBatch _ _
  have hfits : (settled.reduced sold taken).Fits (side.levels.get? key.tick) nextBatch :=
    LimitOrder.fits_reduced (hsettled.fits (h.orders key old hold)) sold taken
  have hrests : (settled.reduced sold taken).resting
      ((lowered.keep key (settled.reduced sold taken)).levels.get? key.tick) =
        (settled.reduced sold taken).amount := by
    rw [LimitOrder.resting_of_continues hrewritten.continues hfits.batch_lt]
    exact hsettled.resting_eq (fun hzero ↦ by rw [hzero, Nat.zero_sub]) _
  have hleft : (lowered.keep key (settled.reduced sold taken)).availableAt key.tick =
      (level.available - taken : ℕ) := side.availableAt_lowered _ _ _ _
  have horderAmount : ((settled.reduced sold taken).amount : ℚ) = settled.amount - taken :=
    Nat.cast_sub htaken
  rw [Nat.cast_sub havailable] at hleft
  obtain ⟨hsound, hclaims⟩ := hrewritten.writtenBack h le_rfl (.inl hold) hsettled
    (lowered.holdsAt_keep key (settled.reduced sold taken)) hrests
    (hfits.of_continues hrewritten.continues le_rfl)
    (fun found hfound ↦ by
      rw [hget] at hfound
      rw [← Option.mem_some_iff.mp hfound]
      exact ⟨lt_of_le_of_lt (Nat.sub_le _ _) hlevelFits.available_lt, hlevelFits.batch_lt⟩)
    (by rw [hleft, horderAmount, availableAt_of_get? hlevel]; linarith)
  refine ⟨hsound, fun token ↦ ?_⟩
  have htoken := hclaims token
  have hcredit : ((settled.reduced sold taken).owed.get token : ℚ) ≤
      settled.owed.get token + if token = sold then taken else 0 := by
    exact_mod_cast LimitOrder.credit_le { settled with amount := settled.amount - taken } sold token
      taken
  rw [hleft, availableAt_of_get? hlevel] at htoken
  by_cases hsold : token = sold
  · simp only [if_pos hsold] at htoken hcredit
    linarith
  · simp only [if_neg hsold, Nat.cast_zero] at htoken hcredit
    linarith

theorem withoutLevel_keep (side : Side) (key : OrderKey) (level : Level) (order : LimitOrder) :
    ((side.withLevel key.tick level).keep key order).withoutLevel key.tick =
      (side.withoutLevel key.tick).keep key order := by
  unfold withoutLevel keep withLevel
  rw [OrderedMap.erase_insert]

/-- Draining the level of a settled order for its owner adds nothing to the claims. -/
theorem sound_of_drained (h : side.Sound nextBatch) (hold : side.orders.get? key = some old)
    (hsettled : LimitOrder.Settled old (side.levels.get? key.tick) sold
      (Book.tickPrice key.tick) fee settled)
    {taken : ℕ} (htaken : taken ≤ settled.amount) {left : Side}
    (hdrained : side.Drained key.tick taken left) :
    (left.keep key (settled.reduced sold taken)).Sound nextBatch ∧ ∀ token,
      (left.keep key (settled.reduced sold taken)).claims sold token fee ≤
        side.claims sold token fee := by
  cases hdrained with
  | @gone level hlevel hamount =>
    obtain ⟨hsound, hclaims⟩ := sound_of_lowered h hold hsettled hlevel htaken hamount.le
    have hnothing : ((side.withLevel key.tick { level with
        available := level.available - taken }).keep key
          (settled.reduced sold taken)).availableAt key.tick = 0 := by
      rw [availableAt_lowered, hamount, Nat.sub_self, Nat.cast_zero]
    rw [← side.withoutLevel_keep key { level with available := level.available - taken }]
    exact ⟨hsound.withoutLevel key.tick,
      fun token ↦ le_trans (claims_withoutLevel_le hsound hnothing sold token fee) (hclaims token)⟩
  | smaller hlevel hamount => exact sound_of_lowered h hold hsettled hlevel htaken hamount.le

end Side

/-! ### The three operations -/

namespace OrderBook

variable {book after : OrderBook} {sold : Token} {key : OrderKey} {amount taken fee cap : ℕ}
  {requested paid : TokenPair ℕ}

/-- The level of a tick once it is open: the one that was there, or that of a new batch. -/
structure Opened (book : OrderBook) (sold : Token) (tick : ℤ) (level : Level) (nextBatch : ℕ) :
    Prop where
  nextBatch_le : book.nextBatch ≤ nextBatch
  fits : level.Fits nextBatch
  level_eq : ∀ found ∈ (book.side sold).levels.get? tick, found = level
  availableAt_eq : (book.side sold).availableAt tick = level.available
  continues : ∀ available, Level.Continues book.nextBatch ((book.side sold).levels.get? tick)
    (some { level with available })

theorem opened_of_openLevel {tick : ℤ} {level : Level} {nextBatch : ℕ} (h : book.Sound)
    (hopen : book.openLevel sold tick = .ok (level, nextBatch)) :
    Opened book sold tick level nextBatch := by
  unfold openLevel level? at hopen
  split at hopen
  · rename_i found hfound
    obtain ⟨rfl, rfl⟩ := Prod.mk.inj (Except.ok.inj hopen)
    refine ⟨le_rfl, (h sold).levels tick found hfound, fun other hother ↦ ?_,
      Side.availableAt_of_get? hfound, fun available ↦ ?_⟩
    · exact Option.mem_unique hother hfound
    · rw [hfound]
      exact .kept available
  · rename_i hnone
    obtain ⟨_, -, hopen⟩ := bind_eq_ok.mp hopen
    obtain ⟨rfl, rfl⟩ := Prod.mk.inj (Except.ok.inj hopen)
    refine ⟨Nat.le_succ _, ⟨twoPow_pos 128, Nat.lt_succ_self _⟩, fun other hother ↦ ?_,
      (Side.availableAt_of_none hnone).trans Nat.cast_zero.symm, fun available ↦ ?_⟩
    · rw [hnone] at hother
      exact absurd hother (Option.not_mem_none other)
    · rw [hnone]
      exact .opened rfl

/-- The order that is settled before more is placed: the one that was there, or a blank one. -/
theorem Opened.exists_holdsAt {level : Level} {nextBatch : ℕ}
    (hopened : Opened book sold key.tick level nextBatch) (h : book.Sound) :
    ∃ old, (book.side sold).HoldsAt key old ∧
      old.Fits ((book.side sold).levels.get? key.tick) nextBatch ∧
      ((book.side sold).orders.get? key).getD (.blank level) = old := by
  cases hget : (book.side sold).orders.get? key with
  | some old =>
    have hfits := ((h sold).orders key old hget).of_continues (.refl _ _) hopened.nextBatch_le
    exact ⟨old, .inl hget, hfits, rfl⟩
  | none =>
    refine ⟨.blank level, .inr ⟨hget, rfl, rfl⟩, ⟨twoPow_pos 128, hopened.fits.batch_lt, ?_⟩, rfl⟩
    intro found hfound _
    rw [hopened.level_eq found hfound]
    exact le_rfl

/-- A settled order, of which nothing is left or which rests in the level, as it joins the level. -/
theorem Opened.joins {level : Level} {nextBatch : ℕ} {old settled : LimitOrder} {price : ℕ}
    (hopened : Opened book sold key.tick level nextBatch)
    (hsettled : LimitOrder.Settled old ((book.side sold).levels.get? key.tick) sold price fee
      settled) :
    (settled.joining level).amount = settled.amount ∧
      (settled.joining level).owed = settled.owed ∧
      level.batch = (settled.joining level).batch ∧
      level.unfilled = (settled.joining level).lastUnfilled := by
  unfold LimitOrder.joining
  split
  · exact ⟨rfl, rfl, rfl, rfl⟩
  · rename_i hne
    obtain ⟨found, hfound, hbatch, hunfilled⟩ := hsettled.upToDate.resolve_left hne
    rw [hopened.level_eq found hfound] at hbatch hunfilled
    exact ⟨rfl, rfl, hbatch, hunfilled⟩

theorem Opened.rewritten_grown {level : Level} {nextBatch : ℕ}
    (hopened : Opened book sold key.tick level nextBatch) (order : LimitOrder) (amount : ℕ) :
    (book.side sold).Rewritten book.nextBatch key
      ((book.side sold).grown key level order amount) := by
  refine ⟨fun other hother ↦ OrderedMap.get?_insert_of_ne _ _ hother,
    fun tick htick ↦ OrderedMap.get?_insert_of_ne _ _ htick, ?_⟩
  have hget : ((book.side sold).grown key level order amount).levels.get? key.tick =
      some { level with available := level.available + amount } :=
    OrderedMap.get?_insert_self _ _ _
  rw [hget]
  exact hopened.continues _

/-- Adding to an order that is settled and rests in the level adds to the claims what is added. -/
theorem Opened.sound_grown {level : Level} {nextBatch : ℕ} {old settled order : LimitOrder}
    (hopened : Opened book sold key.tick level nextBatch) (h : book.Sound)
    (hold : (book.side sold).HoldsAt key old)
    (hsettled : LimitOrder.Settled old ((book.side sold).levels.get? key.tick) sold
      (Book.tickPrice key.tick) fee settled)
    (hjoined : order.amount = settled.amount ∧ order.owed = settled.owed ∧
      level.batch = order.batch ∧ level.unfilled = order.lastUnfilled)
    (hwidth : level.available + amount < twoPow 128) (hamount : order.amount + amount < twoPow 128) :
    let grown := (book.side sold).grown key level order amount
    grown.Sound nextBatch ∧ ∀ token, grown.claims sold token fee ≤
      (book.side sold).claims sold token fee + if token = sold then amount else 0 := by
  intro grown
  obtain ⟨hamount_eq, howed_eq, hbatch, hunfilled⟩ := hjoined
  have hget : grown.levels.get? key.tick =
      some { level with available := level.available + amount } :=
    OrderedMap.get?_insert_self _ _ _
  have hrewritten := hopened.rewritten_grown order amount
  have havailable : grown.availableAt key.tick = (level.available + amount : ℕ) :=
    Side.availableAt_of_get? hget
  have hrests : LimitOrder.resting { order with amount := order.amount + amount }
      (grown.levels.get? key.tick) = (order.amount + amount : ℕ) := by
    rw [hget]
    exact LimitOrder.resting_of_upToDate hbatch hunfilled
  have hfits : LimitOrder.Fits { order with amount := order.amount + amount }
      (grown.levels.get? key.tick) nextBatch := by
    refine ⟨hamount, hbatch ▸ hopened.fits.batch_lt, fun found hfound _ ↦ ?_⟩
    rw [hget] at hfound
    rw [← Option.mem_some_iff.mp hfound, hunfilled]
  have hlevel : ∀ found ∈ grown.levels.get? key.tick, found.Fits nextBatch := by
    intro found hfound
    rw [hget] at hfound
    rw [← Option.mem_some_iff.mp hfound]
    exact ⟨hwidth, hopened.fits.batch_lt⟩
  obtain ⟨hsound, hclaims⟩ := hrewritten.writtenBack (h sold) hopened.nextBatch_le hold hsettled
    (.inl (OrderedMap.get?_insert_self _ _ _)) hrests hfits hlevel (by
      rw [havailable, hopened.availableAt_eq, ← hamount_eq]
      push_cast
      linarith)
  refine ⟨hsound, fun token ↦ ?_⟩
  have htoken := hclaims token
  rw [havailable, hopened.availableAt_eq, ← howed_eq] at htoken
  split
  · rename_i hsold
    rw [if_pos hsold, if_pos hsold] at htoken
    push_cast at htoken
    linarith
  · rename_i hsold
    rw [if_neg hsold, if_neg hsold] at htoken
    linarith

/-- Placing an order adds to the claims what is placed. -/
theorem sound_of_place (h : book.Sound)
    (hplace : book.place sold key amount (Book.tickPrice key.tick) fee cap = .ok after) :
    after.Sound ∧ ∀ token, after.claims token fee ≤
      book.claims token fee + if token = sold then amount else 0 := by
  obtain ⟨level, nextBatch, settled, hopen, hsettle, hwidth, -, hamount, rfl⟩ :=
    placed_of_place hplace
  have hopened := opened_of_openLevel h hopen
  obtain ⟨old, hold, hfits, hold_eq⟩ := hopened.exists_holdsAt h
  rw [hold_eq] at hsettle
  have hsettled := LimitOrder.settled_of_settle hfits hsettle
  obtain ⟨hsound, hclaims⟩ := hopened.sound_grown h hold hsettled (hopened.joins hsettled) hwidth
    hamount
  exact ⟨h.setSide hopened.nextBatch_le hsound, fun token ↦ claims_setSide_le (hclaims token)⟩

/-- Cancelling adds nothing to the claims: what leaves the level is owed to the owner. -/
theorem sound_of_cancel (h : book.Sound)
    (hcancel : book.cancel sold key amount (Book.tickPrice key.tick) fee = .ok (taken, after)) :
    after.Sound ∧ ∀ token, after.claims token fee ≤ book.claims token fee := by
  cases cancelled_of_cancel hcancel with
  | nothing hold hsettle =>
    have hsettled := LimitOrder.settled_of_settle ((h sold).orders key _ hold) hsettle
    obtain ⟨hside, hclaims⟩ := Side.sound_keep (h sold) hold hsettled _
    refine ⟨h.setSide le_rfl hside, fun token ↦ ?_⟩
    have htoken := hclaims token
    rw [← add_zero (book.claims token fee)]
    exact claims_setSide_le (by linarith)
  | something hold hsettle _ hdrained =>
    have hsettled := LimitOrder.settled_of_settle ((h sold).orders key _ hold) hsettle
    obtain ⟨hside, hclaims⟩ :=
      Side.sound_of_drained (h sold) hold hsettled (min_le_right _ _) hdrained
    refine ⟨h.setSide le_rfl hside, fun token ↦ ?_⟩
    rw [← add_zero (book.claims token fee)]
    exact claims_setSide_le (by rw [add_zero]; exact hclaims token)

/-- Collecting takes off the claims what is paid out. -/
theorem sound_of_collect (h : book.Sound)
    (hcollect : book.collect sold key requested (Book.tickPrice key.tick) fee = .ok (paid, after)) :
    after.Sound ∧ ∀ token, after.claims token fee + paid.get token ≤ book.claims token fee := by
  cases collected_of_collect hcollect with
  | nothing =>
    refine ⟨h, fun token ↦ le_of_eq ?_⟩
    cases token <;> exact add_zero _
  | @something old settled hold hsettle =>
    have hsettled := LimitOrder.settled_of_settle ((h sold).orders key old hold) hsettle
    obtain ⟨hside, hclaims⟩ := Side.sound_keep (h sold) hold hsettled
      (settled.owed.zipWith (· - ·) (requested.zipWith min settled.owed))
    refine ⟨h.setSide le_rfl hside, fun token ↦ ?_⟩
    have htoken := hclaims token
    have hle : min (requested.get token) (settled.owed.get token) ≤ settled.owed.get token :=
      min_le_right _ _
    rw [TokenPair.get_zipWith, TokenPair.get_zipWith, Nat.cast_sub hle] at htoken
    rw [TokenPair.get_zipWith, ← le_sub_iff_add_le, sub_eq_add_neg]
    exact claims_setSide_le (by linarith)

end OrderBook

end RangeBook
