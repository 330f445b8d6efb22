import Mathlib
import RangeBook.Book.Basic
import RangeBook.Proofs.OrderedMap

/-!
# The queue of levels that a swap faces

A swap fills the levels of one side in the order of their prices, the best one first: paying token
zero from the highest tick down, and paying token one from the lowest tick up. `queue` lists them in
that order, and `queueAfter` those that come after a level that was passed. The level that a swap
fills next is the head of what is left of the queue (`best?_eq_head?`), and passing it leaves the
tail (`queueAfter_head`).

A fill writes the head of the queue: it takes it out where the level is used up
(`queue_removeLevel`), and puts what is left of it in its place where it is not
(`queue_replaceLevel`).
-/

set_option autoImplicit false
set_option relaxedAutoImplicit false

namespace RangeBook

/-! ### Ticks ahead of a swap -/

/-- Whether a tick lies ahead of another in the direction of a swap paying this token. -/
def Token.Ahead (paid : Token) (mark tick : ℤ) : Prop :=
  match paid with
  | .zero => tick < mark
  | .one => mark < tick

instance (paid : Token) (mark tick : ℤ) : Decidable (paid.Ahead mark tick) := by
  cases paid <;> unfold Token.Ahead <;> infer_instance

theorem Token.Ahead.trans {paid : Token} {first second third : ℤ} (h : paid.Ahead first second)
    (h' : paid.Ahead second third) : paid.Ahead first third := by
  cases paid
  · exact lt_trans h' h
  · exact lt_trans h h'

theorem Token.Ahead.ne {paid : Token} {mark tick : ℤ} (h : paid.Ahead mark tick) : tick ≠ mark := by
  cases paid
  · exact ne_of_lt h
  · exact (ne_of_lt h).symm

namespace OrderBook

variable {book : OrderBook} {paid : Token} {passed : Option ℤ} {tick : ℤ} {level : Level}
  {rest : List (ℤ × Level)}

/-! ### The queue -/

theorem side_empty (sold : Token) : OrderBook.empty.side sold = .empty := by
  cases sold <;> rfl

/-- The levels that face a swap paying a token, the best priced one first. -/
def queue (book : OrderBook) (paid : Token) : List (ℤ × Level) :=
  let levels := (book.side paid.other).levels
  match paid with
  | .zero => levels.entries.reverse
  | .one => levels.entries

/-- The levels of the queue that come after the one that was passed, if one was. -/
def queueAfter (book : OrderBook) (paid : Token) (passed : Option ℤ) : List (ℤ × Level) :=
  (book.queue paid).filter fun entry ↦ passed.all fun mark ↦ decide (paid.Ahead mark entry.1)

theorem length_queue (book : OrderBook) (paid : Token) :
    (book.queue paid).length = (book.side paid.other).levels.size := by
  cases paid
  · exact List.length_reverse
  · rfl

theorem mem_queue :
    (tick, level) ∈ book.queue paid ↔ book.level? paid.other tick = some level := by
  unfold level?
  rw [OrderedMap.get?_eq_some_iff]
  cases paid
  · exact List.mem_reverse
  · rfl

/-- Each level of the queue lies ahead of those before it. -/
theorem pairwise_queue (book : OrderBook) (paid : Token) :
    (book.queue paid).Pairwise fun first second ↦ paid.Ahead first.1 second.1 := by
  cases paid
  · exact List.pairwise_reverse.mpr (OrderedMap.lt_of_ascending (OrderedMap.ascending _))
  · exact OrderedMap.lt_of_ascending (OrderedMap.ascending _)

theorem pairwise_queueAfter (book : OrderBook) (paid : Token) (passed : Option ℤ) :
    (book.queueAfter paid passed).Pairwise fun first second ↦ paid.Ahead first.1 second.1 :=
  (book.pairwise_queue paid).filter _

theorem queueAfter_none (book : OrderBook) (paid : Token) :
    book.queueAfter paid none = book.queue paid := by
  simp [queueAfter]

/-- The best level is the first one of what is left of the queue. -/
theorem best?_eq_head? (book : OrderBook) (paid : Token) (passed : Option ℤ) :
    book.best? paid passed = (book.queueAfter paid passed).head? := by
  cases paid with
  | zero =>
    change ((book.side .one).levels.entries.filter _).getLast? =
      ((book.side .one).levels.entries.reverse.filter _).head?
    rw [List.filter_reverse, List.head?_reverse]
    rfl
  | one =>
    change (book.side .zero).levels.entries.find? _ = _
    rw [queueAfter, List.head?_filter]
    rfl

theorem best?_eq_none (h : (book.side paid.other).levels = .empty) (passed : Option ℤ) :
    book.best? paid passed = none := by
  rw [best?_eq_head?, List.head?_eq_none_iff, queueAfter]
  cases paid <;> simp [queue, h, OrderedMap.empty]

theorem queueAfter_eq_nil (h : book.best? paid passed = none) :
    book.queueAfter paid passed = [] := by
  rw [best?_eq_head?] at h
  exact List.head?_eq_none_iff.mp h

theorem queueAfter_eq_cons (h : book.best? paid passed = some (tick, level)) :
    ∃ rest, book.queueAfter paid passed = (tick, level) :: rest := by
  rw [best?_eq_head?] at h
  exact List.head?_eq_some_iff.mp h

/-- The best level is one of the book, ahead of the level that was passed. -/
theorem best?_eq_some (h : book.best? paid passed = some (tick, level)) :
    book.level? paid.other tick = some level ∧ ∀ mark ∈ passed, paid.Ahead mark tick := by
  rw [best?_eq_head?] at h
  have hmem := List.mem_of_mem_head? h
  rw [queueAfter, List.mem_filter, mem_queue] at hmem
  refine ⟨hmem.1, fun mark hmark ↦ ?_⟩
  have hahead := hmem.2
  rw [Option.mem_def.mp hmark] at hahead
  exact of_decide_eq_true hahead

/-- What is left of the queue after its first level is passed. -/
theorem queueAfter_head (h : book.queueAfter paid passed = (tick, level) :: rest) :
    book.queueAfter paid (some tick) = rest := by
  have hpairwise := book.pairwise_queueAfter paid passed
  rw [h, List.pairwise_cons] at hpairwise
  have hbest : book.best? paid passed = some (tick, level) := by
    rw [best?_eq_head?, h, List.head?_cons]
  have hhead := (best?_eq_some hbest).2
  have hfilter : book.queueAfter paid (some tick) =
      (book.queueAfter paid passed).filter fun entry ↦ decide (paid.Ahead tick entry.1) := by
    rw [queueAfter, queueAfter, List.filter_filter]
    refine List.filter_congr fun entry _ ↦ ?_
    by_cases hahead : paid.Ahead tick entry.1
    · have hpassed : (passed.all fun mark ↦ decide (paid.Ahead mark entry.1)) = true := by
        rw [Option.all_eq_true]
        exact fun mark hmark ↦ decide_eq_true ((hhead mark hmark).trans hahead)
      simp [hahead, hpassed]
    · simp [hahead]
  rw [hfilter, h, List.filter_cons_of_neg]
  · exact List.filter_eq_self.mpr fun entry hentry ↦ decide_eq_true (hpairwise.1 entry hentry)
  · intro hself
    exact (of_decide_eq_true hself).ne rfl

/-! ### Fills of the first level -/

/-- Whether a book has only changed in the levels that a swap paying a token faces. -/
structure OrdersKept (book : OrderBook) (paid : Token) (after : OrderBook) : Prop where
  orders_eq : ∀ sold, (after.side sold).orders = (book.side sold).orders
  side_eq : after.side paid = book.side paid
  nextBatch_eq : after.nextBatch = book.nextBatch

theorem OrdersKept.refl (book : OrderBook) (paid : Token) : book.OrdersKept paid book :=
  ⟨fun _ ↦ rfl, rfl, rfl⟩

theorem OrdersKept.trans {between after : OrderBook} (h : book.OrdersKept paid between)
    (h' : between.OrdersKept paid after) : book.OrdersKept paid after :=
  ⟨fun sold ↦ (h'.orders_eq sold).trans (h.orders_eq sold), h'.side_eq.trans h.side_eq,
    h'.nextBatch_eq.trans h.nextBatch_eq⟩

theorem ordersKept_setSide {side : Side} (horders : side.orders = (book.side paid.other).orders) :
    book.OrdersKept paid (book.setSide paid.other side) := by
  have hside : (book.setSide paid.other side).side paid = book.side paid := by
    cases paid <;> rfl
  refine ⟨fun sold ↦ ?_, hside, rfl⟩
  by_cases hsold : sold = paid
  · rw [hsold, hside]
  · obtain rfl := Token.eq_other_of_ne hsold
    have hother : (book.setSide paid.other side).side paid.other = side :=
      TokenPair.get_set_self _ _ _
    rw [hother, horders]

/-- A queue whose first level is taken out. -/
theorem queue_removeLevel (h : book.queue paid = (tick, level) :: rest) :
    (book.removeLevel paid.other tick).queue paid = rest := by
  have hpairwise := book.pairwise_queue paid
  rw [h, List.pairwise_cons] at hpairwise
  have hfilter : (book.removeLevel paid.other tick).queue paid =
      (book.queue paid).filter fun entry ↦ decide (entry.1 ≠ tick) := by
    cases paid with
    | zero =>
      change ((book.side Token.zero.other).levels.erase tick).entries.reverse = _
      rw [OrderedMap.entries_erase, ← List.filter_reverse]
      rfl
    | one => exact OrderedMap.entries_erase _ tick
  rw [hfilter, h, List.filter_cons_of_neg (by simp)]
  exact List.filter_eq_self.mpr fun entry hentry ↦
    decide_eq_true (hpairwise.1 entry hentry).ne

/-- A queue whose first level is replaced. -/
theorem queue_replaceLevel (h : book.queue paid = (tick, level) :: rest) (left : Level) :
    (book.replaceLevel paid.other tick left).queue paid = (tick, left) :: rest := by
  have hpairwise := book.pairwise_queue paid
  rw [h, List.pairwise_cons] at hpairwise
  have hlevel : (book.side paid.other).levels.get? tick = some level := by
    refine mem_queue.mp ?_
    rw [h]
    exact List.mem_cons_self
  have hmap : (book.replaceLevel paid.other tick left).queue paid =
      (book.queue paid).map fun entry ↦ if entry.1 = tick then (tick, left) else entry := by
    cases paid with
    | zero =>
      change ((book.side Token.zero.other).levels.insert tick left).entries.reverse = _
      rw [OrderedMap.entries_insert hlevel, ← List.map_reverse]
      rfl
    | one => exact OrderedMap.entries_insert hlevel left
  have hrest : (rest.map fun entry ↦ if entry.1 = tick then (tick, left) else entry) = rest := by
    conv_rhs => rw [← List.map_id rest]
    exact List.map_congr_left fun entry hentry ↦ if_neg (hpairwise.1 entry hentry).ne
  rw [hmap, h, List.map_cons, if_pos rfl, hrest]

end OrderBook

end RangeBook
