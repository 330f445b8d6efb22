import Mathlib
import RangeBook.Proofs.Book.Owners

/-!
# Batches of levels and orders

A batch has one home, the side and the tick where its level was opened, and all levels and orders of
a book are at the home of their batch (`OrderBook.Housed`). So no two levels share a batch, and no
order is of the same batch as a level somewhere else.

An order is detached when it has an amount but its batch no longer rests at its tick
(`Side.Detached`). What owners do detaches no order (`OrderBook.Tended`). Placing and collecting
take no level out. Cancelling takes out a level of which nothing is left, but then nothing rests in
it, so every order of its batch has been emptied before.

An order that rests in the level at its tick has seen no less of it unfilled than is unfilled now.
So settling never asks for more than the whole of an order (`LimitOrder.Fits.settle_inRange`).
-/

set_option autoImplicit false
set_option relaxedAutoImplicit false

namespace RangeBook

attribute [local irreducible] tickSqrtPrice tickAt

/-! ### Homes of batches -/

namespace Side

variable {side : Side} {sold : Token} {home : ℕ → Token × ℤ} {tick : ℤ} {level : Level}
  {key : OrderKey} {order : LimitOrder} {amount : ℕ}

/-- Whether the levels and the orders of a side are at the homes of their batches. -/
structure Housed (side : Side) (sold : Token) (home : ℕ → Token × ℤ) : Prop where
  levels : ∀ tick level, side.levels.get? tick = some level → home level.batch = (sold, tick)
  orders : ∀ key order, side.orders.get? key = some order → home order.batch = (sold, key.tick)

theorem Housed.withLevel (h : side.Housed sold home) (hlevel : home level.batch = (sold, tick)) :
    (side.withLevel tick level).Housed sold home :=
  ⟨OrderedMap.forall_insert h.levels hlevel, h.orders⟩

theorem Housed.withoutLevel (h : side.Housed sold home) (tick : ℤ) :
    (side.withoutLevel tick).Housed sold home :=
  ⟨OrderedMap.forall_erase h.levels, h.orders⟩

theorem Housed.keep (h : side.Housed sold home) (horder : home order.batch = (sold, key.tick)) :
    (side.keep key order).Housed sold home := by
  refine ⟨h.levels, ?_⟩
  unfold Side.keep
  split
  · exact OrderedMap.forall_erase h.orders
  · exact OrderedMap.forall_insert h.orders horder

theorem Housed.grown (h : side.Housed sold home) (hlevel : home level.batch = (sold, key.tick))
    (horder : home order.batch = (sold, key.tick)) :
    (side.grown key level order amount).Housed sold home :=
  ⟨OrderedMap.forall_insert h.levels hlevel, OrderedMap.forall_insert h.orders horder⟩

theorem Housed.drained {left : Side} (h : side.Housed sold home)
    (hdrained : side.Drained tick amount left) : left.Housed sold home := by
  cases hdrained with
  | gone => exact h.withoutLevel tick
  | @smaller level hlevel => exact h.withLevel (h.levels tick level hlevel)

/-- A batch that was not given out can be given any home. -/
theorem Housed.update {nextBatch : ℕ} (h : side.Housed sold home) (hsound : side.Sound nextBatch)
    (place : Token × ℤ) : side.Housed sold (Function.update home nextBatch place) := by
  refine ⟨fun tick level hlevel ↦ ?_, fun key order horder ↦ ?_⟩
  · rw [Function.update_of_ne (hsound.levels tick level hlevel).batch_lt.ne]
    exact h.levels tick level hlevel
  · rw [Function.update_of_ne (hsound.orders key order horder).batch_lt.ne]
    exact h.orders key order horder

end Side

namespace OrderBook

variable {book after : OrderBook} {sold : Token} {key : OrderKey} {amount fee cap taken : ℕ}
  {requested paid : TokenPair ℕ} {home : ℕ → Token × ℤ}

/-- Whether all levels and orders of a book are at the homes of their batches. -/
def Housed (book : OrderBook) (home : ℕ → Token × ℤ) : Prop :=
  ∀ sold, (book.side sold).Housed sold home

theorem Housed.setSide {side : Side} {nextBatch : ℕ} (h : book.Housed home)
    (hside : side.Housed sold home) :
    ({ book.setSide sold side with nextBatch } : OrderBook).Housed home := by
  intro token
  rcases book.side_setSide sold side nextBatch token with ⟨rfl, hset⟩ | ⟨-, hset⟩
  · rw [hset]
    exact hside
  · rw [hset]
    exact h token

/-- Opening a level at a tick makes the tick the home of its batch. -/
theorem housed_of_openLevel {tick : ℤ} {level : Level} {nextBatch : ℕ} (h : book.Sound)
    (hhome : book.Housed home) (hopen : book.openLevel sold tick = .ok (level, nextBatch)) :
    ∃ home', book.Housed home' ∧ home' level.batch = (sold, tick) := by
  unfold openLevel at hopen
  split at hopen
  · rename_i found hfound
    obtain ⟨rfl, -⟩ := Prod.mk.inj (Except.ok.inj hopen)
    exact ⟨home, hhome, (hhome sold).levels tick found hfound⟩
  · obtain ⟨_, -, hopen⟩ := bind_eq_ok.mp hopen
    obtain ⟨rfl, -⟩ := Prod.mk.inj (Except.ok.inj hopen)
    exact ⟨_, fun token ↦ (hhome token).update (h token) (sold, tick), Function.update_self _ _ _⟩

theorem housed_of_place (h : book.Sound) (hhome : book.Housed home)
    (hplace : book.place sold key amount (Book.tickPrice key.tick) fee cap = .ok after) :
    ∃ home', after.Housed home' := by
  obtain ⟨level, nextBatch, settled, hopen, hsettle, -, -, -, rfl⟩ := placed_of_place hplace
  obtain ⟨home', hhome', hlevel⟩ := housed_of_openLevel h hhome hopen
  obtain ⟨old, -, hfits, hold⟩ := (opened_of_openLevel h hopen).exists_holdsAt h
  have horder : home' (settled.joining level).batch = (sold, key.tick) := by
    unfold LimitOrder.joining
    split
    · exact hlevel
    · rw [hold] at hsettle
      rw [(LimitOrder.settled_of_settle hfits hsettle).batch_eq, ← hold]
      cases hget : (book.side sold).orders.get? key with
      | some found => exact (hhome' sold).orders key found hget
      | none => exact hlevel
  exact ⟨home', hhome'.setSide ((hhome' sold).grown hlevel horder)⟩

theorem housed_of_cancel (h : book.Sound) (hhome : book.Housed home)
    (hcancel : book.cancel sold key amount (Book.tickPrice key.tick) fee = .ok (taken, after)) :
    after.Housed home := by
  have hsettled : ∀ {old settled : LimitOrder}, (book.side sold).orders.get? key = some old →
      old.settle ((book.side sold).levels.get? key.tick) sold (Book.tickPrice key.tick) fee =
        .ok settled → home settled.batch = (sold, key.tick) := by
    intro old settled hold hsettle
    rw [(LimitOrder.settled_of_settle ((h sold).orders key old hold) hsettle).batch_eq]
    exact (hhome sold).orders key old hold
  cases cancelled_of_cancel hcancel with
  | nothing hold hsettle => exact hhome.setSide ((hhome sold).keep (hsettled hold hsettle))
  | something hold hsettle _ hdrained =>
    have hbatch := hsettled hold hsettle
    exact hhome.setSide (((hhome sold).drained hdrained).keep hbatch)

theorem housed_of_collect (h : book.Sound) (hhome : book.Housed home)
    (hcollect : book.collect sold key requested (Book.tickPrice key.tick) fee = .ok (paid, after)) :
    after.Housed home := by
  cases collected_of_collect hcollect with
  | nothing => exact hhome
  | @something old settled hold hsettle =>
    refine hhome.setSide ((hhome sold).keep ?_)
    change home settled.batch = _
    rw [(LimitOrder.settled_of_settle ((h sold).orders key old hold) hsettle).batch_eq]
    exact (hhome sold).orders key old hold

/-- No two levels share a batch. -/
theorem Housed.levels_distinct (h : book.Housed home) {sold' : Token} {tick tick' : ℤ}
    {level level' : Level} (hlevel : book.level? sold tick = some level)
    (hlevel' : book.level? sold' tick' = some level') (hbatch : level.batch = level'.batch) :
    sold = sold' ∧ tick = tick' := by
  have hhome := (h sold).levels tick level hlevel
  rw [hbatch, (h sold').levels tick' level' hlevel'] at hhome
  exact ⟨(Prod.mk.inj hhome).1.symm, (Prod.mk.inj hhome).2.symm⟩

/-- An order is of the same batch as a level only where it is at its tick. -/
theorem Housed.order_of_level (h : book.Housed home) {sold' : Token} {tick : ℤ} {level : Level}
    {order : LimitOrder} (hlevel : book.level? sold tick = some level)
    (horder : book.order? sold' key = some order) (hbatch : order.batch = level.batch) :
    sold' = sold ∧ key.tick = tick := by
  have hhome := (h sold').orders key order horder
  rw [hbatch, (h sold).levels tick level hlevel] at hhome
  exact ⟨(Prod.mk.inj hhome).1.symm, (Prod.mk.inj hhome).2.symm⟩

end OrderBook

/-! ### Detached orders -/

namespace Side

variable {side after : Side} {sold : Token} {fee nextBatch taken : ℕ} {key : OrderKey} {tick : ℤ}
  {level : Level} {order old settled : LimitOrder}

/-- An order with an amount that it has not seen filled, whose batch no longer rests at its tick. -/
structure Detached (side : Side) (key : OrderKey) (order : LimitOrder) : Prop where
  order_eq : side.orders.get? key = some order
  amount_pos : 0 < order.amount
  batch_ne : ∀ level ∈ side.levels.get? key.tick, level.batch ≠ order.batch

/-- Where a level that is left offers nothing, nothing is left of the orders of its batch. -/
theorem Sound.amount_eq_zero (h : side.Sound nextBatch)
    (hlevel : side.levels.get? tick = some level) (hempty : level.available = 0)
    (horder : side.orders.get? key = some order) (hkey : key.tick = tick)
    (hbatch : level.batch = order.batch) : order.amount = 0 := by
  subst hkey
  have hresting := le_trans (side.restingOf_le_restingAt horder) (h.resting_le key.tick)
  rw [availableAt_of_get? hlevel, hempty, Nat.cast_zero, restingOf, hlevel,
    LimitOrder.resting_of_eq hbatch] at hresting
  have hratio := div_pos level.unfilled.value_pos order.lastUnfilled.value_pos
  have hamount : (order.amount : ℚ) ≤ 0 := nonpos_of_mul_nonpos_left hresting hratio
  exact Nat.le_zero.mp (by exact_mod_cast hamount)

/-- Taking a level out detaches the orders that rest in it and no others. -/
theorem Detached.of_withoutLevel (h : (side.withoutLevel tick).Detached key order) :
    side.Detached key order ∨ (key.tick = tick ∧ side.orders.get? key = some order ∧
      ∃ level, side.levels.get? tick = some level ∧ level.batch = order.batch) := by
  by_cases hrests : ∃ level, side.levels.get? key.tick = some level ∧ level.batch = order.batch
  · obtain ⟨level, hlevel, hbatch⟩ := hrests
    by_cases htick : key.tick = tick
    · exact .inr ⟨htick, h.order_eq, level, htick ▸ hlevel, hbatch⟩
    · have hkept : (side.withoutLevel tick).levels.get? key.tick = some level :=
        (OrderedMap.get?_erase_of_ne _ htick).trans hlevel
      exact absurd hbatch (h.batch_ne level hkept)
  · exact .inl ⟨h.order_eq, h.amount_pos,
      fun level hlevel hbatch ↦ hrests ⟨level, hlevel, hbatch⟩⟩

/-- Writing what is left of a level, which is of the same batch, detaches no order. -/
theorem Detached.of_withLevel {left : Level} (hlevel : side.levels.get? tick = some level)
    (hbatch : left.batch = level.batch) (h : (side.withLevel tick left).Detached key order) :
    side.Detached key order := by
  refine ⟨h.order_eq, h.amount_pos, fun found hfound ↦ ?_⟩
  by_cases htick : key.tick = tick
  · rw [htick, hlevel] at hfound
    rw [← Option.mem_some_iff.mp hfound, ← hbatch]
    exact h.batch_ne left (htick ▸ side.get?_withLevel tick left)
  · exact h.batch_ne found ((OrderedMap.get?_insert_of_ne _ _ htick).trans hfound)

/-- A change of one order and of the level at its tick detaches no other order, and none at all
where what is left of the one that is written rests in the level. -/
theorem Rewritten.detached_of (hw : side.Rewritten nextBatch key after)
    (hwritten : ∀ order ∈ after.orders.get? key, order.amount = 0 ∨
      ∃ level ∈ after.levels.get? key.tick, level.batch = order.batch)
    {other : OrderKey} (hdetached : after.Detached other order) : side.Detached other order := by
  by_cases hother : other = key
  · subst hother
    rcases hwritten order hdetached.order_eq with hnothing | ⟨level, hlevel, hbatch⟩
    · exact absurd hnothing hdetached.amount_pos.ne'
    · exact absurd hbatch (hdetached.batch_ne level hlevel)
  · refine ⟨(hw.orders_eq other hother).symm.trans hdetached.order_eq, hdetached.amount_pos,
      fun level hlevel ↦ ?_⟩
    have hcontinues := hw.continues_all other.tick
    rw [Option.mem_def.mp hlevel] at hcontinues
    generalize hfound : after.levels.get? other.tick = found? at hcontinues
    cases hcontinues with
    | kept available => exact hdetached.batch_ne { level with available } hfound

/-- Keeping an order detaches none where what is left of the order rests in its level. -/
theorem Rewritten.detached_of_keep (hw : side.Rewritten nextBatch key (after.keep key order))
    (horder : order.amount = 0 ∨ ∃ level ∈ after.levels.get? key.tick, level.batch = order.batch)
    {other : OrderKey} {found : LimitOrder} (hdetached : (after.keep key order).Detached other found) :
    side.Detached other found := by
  refine hw.detached_of (fun written hwritten ↦ ?_) hdetached
  rcases after.holdsAt_keep key order with hsome | ⟨hnone, -⟩
  · rw [Option.mem_unique hwritten hsome]
    exact horder
  · rw [hnone] at hwritten
    exact absurd hwritten (Option.not_mem_none written)

/-- What is left of a settled order rests in the level at its tick. -/
theorem rests_of_settled {price : ℕ} (hsettled : LimitOrder.Settled old
      (side.levels.get? key.tick) sold price fee settled) :
    settled.amount = 0 ∨
      ∃ level ∈ side.levels.get? key.tick, level.batch = settled.batch :=
  hsettled.upToDate.imp_right fun ⟨level, hlevel, hbatch, _⟩ ↦ ⟨level, hlevel, hbatch⟩

/-- Draining the level of a settled order detaches no order: where the level is gone nothing rested
in it any more. -/
theorem detached_of_drained (h : side.Sound nextBatch) (hold : side.orders.get? key = some old)
    (hsettled : LimitOrder.Settled old (side.levels.get? key.tick) sold
      (Book.tickPrice key.tick) fee settled)
    (htaken : taken ≤ settled.amount) {left : Side} (hdrained : side.Drained key.tick taken left)
    {other : OrderKey} (hdetached : (left.keep key (settled.reduced sold taken)).Detached other order) :
    side.Detached other order := by
  have hlowered : ∀ {level : Level}, side.levels.get? key.tick = some level →
      ∀ {other order}, ((side.withLevel key.tick
        { level with available := level.available - taken }).keep key
          (settled.reduced sold taken)).Detached other order → side.Detached other order := by
    intro level hlevel other order
    refine (rewritten_lowered hlevel nextBatch _ _).detached_of_keep ?_
    refine (rests_of_settled hsettled).imp (fun hzero ↦ ?_) fun ⟨found, hfound, hbatch⟩ ↦ ?_
    · exact (congrArg (· - taken) hzero).trans (Nat.zero_sub taken)
    · rw [hlevel] at hfound
      obtain rfl := Option.mem_some_iff.mp hfound
      exact ⟨_, side.get?_withLevel _ _, hbatch⟩
  cases hdrained with
  | smaller hlevel => exact hlowered hlevel hdetached
  | @gone level hlevel hamount =>
    obtain ⟨hsound, -⟩ := sound_of_lowered h hold hsettled hlevel htaken hamount.le
    rw [← side.withoutLevel_keep key { level with available := level.available - taken }]
      at hdetached
    rcases hdetached.of_withoutLevel with hbefore | ⟨htick, horder, found, hfound, hbatch⟩
    · exact hlowered hlevel hbefore
    · have hget := side.get?_withLevel key.tick { level with available := level.available - taken }
      have hempty : found.available = 0 := by
        rw [← Option.some.inj (hget.symm.trans hfound)]
        exact Nat.sub_eq_zero_of_le hamount.ge
      have hnothing := hsound.amount_eq_zero hfound hempty horder htick hbatch
      exact absurd hnothing hdetached.amount_pos.ne'

end Side

namespace OrderBook

variable {book after : OrderBook} {sold : Token} {key : OrderKey} {amount fee cap taken : ℕ}
  {requested paid : TokenPair ℕ}

/-- A change of a book that writes one order at most and detaches none. -/
structure Tended (book : OrderBook) (sold : Token) (key : OrderKey) (after : OrderBook) : Prop where
  order_eq : ∀ token other, (token, other) ≠ (sold, key) →
    after.order? token other = book.order? token other
  detached_of : ∀ {token other order}, (after.side token).Detached other order →
    (book.side token).Detached other order

theorem Tended.refl (book : OrderBook) (sold : Token) (key : OrderKey) : book.Tended sold key book :=
  ⟨fun _ _ _ ↦ rfl, id⟩

/-- Writing a side detaches the orders that are detached on it. -/
theorem detached_of_setSide {side : Side} {nextBatch : ℕ} {token : Token} {other : OrderKey}
    {order : LimitOrder}
    (h : (({ book.setSide sold side with nextBatch } : OrderBook).side token).Detached other order) :
    (token = sold ∧ side.Detached other order) ∨ (book.side token).Detached other order := by
  rcases book.side_setSide sold side nextBatch token with ⟨htoken, hset⟩ | ⟨-, hset⟩
  · rw [hset] at h
    exact .inl ⟨htoken, h⟩
  · rw [hset] at h
    exact .inr h

theorem tended_setSide {side : Side} {nextBatch : ℕ}
    (horders : ∀ other, other ≠ key → side.orders.get? other = (book.side sold).orders.get? other)
    (hdetached : ∀ {other order}, side.Detached other order →
      (book.side sold).Detached other order) :
    book.Tended sold key { book.setSide sold side with nextBatch } := by
  refine ⟨fun token other hne ↦ ?_, fun {token other order} h ↦ ?_⟩
  · unfold order?
    rcases book.side_setSide sold side nextBatch token with ⟨rfl, hset⟩ | ⟨-, hset⟩
    · rw [hset]
      exact horders other fun heq ↦ hne (by rw [heq])
    · rw [hset]
  · rcases detached_of_setSide h with ⟨rfl, hside⟩ | hbefore
    · exact hdetached hside
    · exact hbefore

theorem tended_of_place (h : book.Sound)
    (hplace : book.place sold key amount (Book.tickPrice key.tick) fee cap = .ok after) :
    book.Tended sold key after := by
  obtain ⟨level, nextBatch, settled, hopen, hsettle, -, -, -, rfl⟩ := placed_of_place hplace
  have hopened := opened_of_openLevel h hopen
  obtain ⟨old, -, hfits, hold⟩ := hopened.exists_holdsAt h
  rw [hold] at hsettle
  obtain ⟨-, -, hbatch, -⟩ := hopened.joins (LimitOrder.settled_of_settle hfits hsettle)
  have hrewritten := hopened.rewritten_grown (settled.joining level) amount
  refine tended_setSide hrewritten.orders_eq (hrewritten.detached_of fun order horder ↦ .inr ?_)
  have hwritten := OrderedMap.get?_insert_self (book.side sold).orders key
    { settled.joining level with amount := (settled.joining level).amount + amount }
  rw [Option.mem_unique horder hwritten]
  exact ⟨_, OrderedMap.get?_insert_self _ _ _, hbatch⟩

theorem tended_of_cancel (h : book.Sound)
    (hcancel : book.cancel sold key amount (Book.tickPrice key.tick) fee = .ok (taken, after)) :
    book.Tended sold key after := by
  cases cancelled_of_cancel hcancel with
  | @nothing old settled hold hsettle =>
    have hsettled := LimitOrder.settled_of_settle ((h sold).orders key old hold) hsettle
    have hrewritten := (book.side sold).rewritten_keep book.nextBatch key settled
    exact tended_setSide hrewritten.orders_eq
      (hrewritten.detached_of_keep (Side.rests_of_settled hsettled))
  | @something old settled left hold hsettle _ hdrained =>
    have hsettled := LimitOrder.settled_of_settle ((h sold).orders key old hold) hsettle
    refine tended_setSide (fun other hother ↦ ?_)
      (Side.detached_of_drained (h sold) hold hsettled (min_le_right _ _) hdrained)
    rw [Side.orders_keep _ _ _ hother]
    cases hdrained <;> rfl

theorem tended_of_collect (h : book.Sound)
    (hcollect : book.collect sold key requested (Book.tickPrice key.tick) fee = .ok (paid, after)) :
    book.Tended sold key after := by
  cases collected_of_collect hcollect with
  | nothing => exact .refl book sold key
  | @something old settled hold hsettle =>
    have hsettled := LimitOrder.settled_of_settle ((h sold).orders key old hold) hsettle
    have hrests := Side.rests_of_settled hsettled
    have hrewritten := (book.side sold).rewritten_keep book.nextBatch key { settled with
      owed := settled.owed.zipWith (· - ·) (requested.zipWith min settled.owed) }
    exact tended_setSide hrewritten.orders_eq (hrewritten.detached_of_keep hrests)

/-- An owner takes out a level only where nothing is left of the other orders of its batch. -/
theorem Tended.amount_eq_zero {home : ℕ → Token × ℤ} (h : book.Tended sold key after)
    (hhome : book.Housed home) {token token' : Token} {tick : ℤ} {level : Level}
    (hlevel : book.level? token tick = some level) (hgone : after.level? token tick = none)
    {other : OrderKey} (hother : (token', other) ≠ (sold, key)) {order : LimitOrder}
    (horder : book.order? token' other = some order) (hbatch : order.batch = level.batch) :
    order.amount = 0 := by
  obtain ⟨rfl, rfl⟩ := hhome.order_of_level hlevel horder hbatch
  by_contra hsome
  have hdetached : (after.side token').Detached other order := by
    refine ⟨(h.order_eq token' other hother).trans horder, Nat.pos_of_ne_zero hsome,
      fun found hfound ↦ ?_⟩
    rw [show (after.side token').levels.get? other.tick = none from hgone] at hfound
    exact absurd hfound (Option.not_mem_none found)
  exact (h.detached_of hdetached).batch_ne level hlevel hbatch.symm

end OrderBook

/-! ### Orders that rest in their level -/

theorem LimitOrder.Fits.settle_inRange {order : LimitOrder} {level? : Option Level} {nextBatch : ℕ}
    (h : order.Fits level? nextBatch) (sold : Token) (price fee : ℕ) :
    FailsOnly (· ≠ .rejected .fractionOutOfRange) (order.settle level? sold price fee) := by
  refine settle_failsOnly (by decide) (by decide) (by decide) fun level hlevel hbatch hmore ↦ ?_
  exact absurd (Share.value_le_value_iff.mp (h.unfilled_le level hlevel hbatch)) hmore

namespace OrderBook

variable {book : OrderBook}

theorem place_inRange (h : book.Sound) (sold : Token) (key : OrderKey)
    (amount price fee cap : ℕ) :
    FailsOnly (· ≠ .rejected .fractionOutOfRange) (book.place sold key amount price fee cap) := by
  have hopens : FailsOnly (· ≠ .rejected .fractionOutOfRange) (book.openLevel sold key.tick) := by
    unfold openLevel
    split
    · exact .pure _
    · exact .bind (.require fun _ ↦ by decide) fun _ _ ↦ .pure _
  unfold place
  refine .bind hopens fun opened hopen ↦ ?_
  obtain ⟨old, -, hfits, hold⟩ := (opened_of_openLevel h hopen).exists_holdsAt h
  dsimp only
  rw [hold]
  refine .bind (hfits.settle_inRange sold price fee) fun settled _ ↦ ?_
  refine .bind (.require fun _ ↦ by decide) fun _ _ ↦ ?_
  exact .bind (.require fun _ ↦ by decide) fun _ _ ↦
    .bind (.require fun _ ↦ by decide) fun _ _ ↦ .pure _

theorem cancel_inRange (h : book.Sound) (sold : Token) (key : OrderKey) (amount price fee : ℕ) :
    FailsOnly (· ≠ .rejected .fractionOutOfRange) (book.cancel sold key amount price fee) := by
  unfold cancel
  refine .bind (.orReject fun _ ↦ by decide) fun old hold ↦ ?_
  have hfits := (h sold).orders key old (orReject_eq_ok.mp hold)
  refine .bind (hfits.settle_inRange sold price fee) fun settled _ ↦ ?_
  dsimp only
  split
  · exact .pure _
  · refine .bind ?_ fun _ _ ↦ .pure _
    exact .bind (.orReject fun _ ↦ by decide) fun _ _ ↦
      .bind (.require fun _ ↦ by decide) fun _ _ ↦ .pure _

theorem collect_inRange (h : book.Sound) (sold : Token) (key : OrderKey)
    (requested : TokenPair ℕ) (price fee : ℕ) :
    FailsOnly (· ≠ .rejected .fractionOutOfRange)
      (book.collect sold key requested price fee) := by
  unfold collect
  dsimp only
  split
  · exact .pure _
  · rename_i order hget
    exact .bind (((h sold).orders key order hget).settle_inRange sold price fee) fun _ _ ↦ .pure _

end OrderBook

end RangeBook
