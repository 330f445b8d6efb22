import Mathlib
import RangeBook.OrderedMap

/-!
# Sums and neighbours in ordered maps

The books of a pool are sums over its positions, ticks, levels and orders. `total` is the sum of a
quantity over the entries of a map. Putting an entry in or taking it out changes the sum by the
quantity at its key (`total_insert`, `total_erase`), so an operation that writes one entry is
accounted for by comparing the old value at the key with the new one.

The searches `first?` and `last?` of a map with integer keys find the least and the greatest key
that satisfies a condition.
-/

set_option autoImplicit false
set_option relaxedAutoImplicit false

namespace RangeBook.OrderedMap

variable {κ α M : Type} [Ord κ]

/-! ### The sum of a quantity over the entries -/

section Total

variable [AddCommMonoid M]

/-- The sum of a quantity over the entries of a map. -/
def total (map : OrderedMap κ α) (quantity : κ → α → M) : M :=
  (map.entries.map fun entry ↦ quantity entry.1 entry.2).sum

/-- The quantity at a key, zero where there is no entry. -/
def amountAt (map : OrderedMap κ α) (quantity : κ → α → M) (key : κ) : M :=
  (map.get? key).elim 0 (quantity key)

@[simp] theorem total_empty (quantity : κ → α → M) :
    (empty : OrderedMap κ α).total quantity = 0 :=
  rfl

theorem total_add (map : OrderedMap κ α) (left right : κ → α → M) :
    map.total (fun key value ↦ left key value + right key value) =
      map.total left + map.total right := by
  unfold total
  exact List.sum_map_add

theorem total_zero (map : OrderedMap κ α) : map.total (fun _ _ ↦ (0 : M)) = 0 := by
  unfold total
  simp

variable [Std.TransOrd κ] [Std.LawfulEqOrd κ]

theorem total_congr {map : OrderedMap κ α} {left right : κ → α → M}
    (h : ∀ key value, map.get? key = some value → left key value = right key value) :
    map.total left = map.total right := by
  unfold total
  refine congrArg List.sum (List.map_congr_left fun entry hentry ↦ ?_)
  exact h entry.1 entry.2 ((get?_eq_some_iff map).mpr hentry)

theorem total_of_zero {map : OrderedMap κ α} {quantity : κ → α → M}
    (h : ∀ key value, map.get? key = some value → quantity key value = 0) :
    map.total quantity = 0 :=
  (total_congr h).trans (total_zero map)

/-- The entries of a map with a value put in are that entry and those at the other keys. -/
theorem insertEntry_perm {entries : List (κ × α)} (h : Ascending entries) (key : κ) (value : α) :
    (insertEntry key value entries).Perm ((key, value) :: eraseEntry key entries) := by
  induction entries with
  | nil => exact List.Perm.refl _
  | cons head tail ih =>
    obtain ⟨hhead, htail⟩ := List.pairwise_cons.mp h
    have hkept : ∀ {rest : List (κ × α)}, (∀ entry ∈ rest, compare key entry.1 = .lt) →
        eraseEntry key rest = rest := by
      intro rest hrest
      refine List.filter_eq_self.mpr fun entry hentry ↦ ?_
      rw [hrest entry hentry]
      decide
    unfold insertEntry
    split
    · rename_i hlt
      have hall : ∀ entry ∈ head :: tail, compare key entry.1 = .lt := by
        intro entry hentry
        rcases List.mem_cons.mp hentry with rfl | hentry
        · exact hlt
        · exact Std.TransCmp.lt_trans hlt (hhead entry hentry)
      rw [hkept hall]
    · rename_i heq
      have hkey := Std.LawfulEqCmp.eq_of_compare heq
      subst hkey
      have herase : eraseEntry head.1 (head :: tail) = eraseEntry head.1 tail :=
        List.filter_cons_of_neg (by simp)
      rw [herase, hkept hhead]
    · rename_i hgt
      have herase : eraseEntry key (head :: tail) = head :: eraseEntry key tail :=
        List.filter_cons_of_pos (by simp [hgt])
      rw [herase]
      exact ((ih htail).cons head).trans (List.Perm.swap _ _ _)

theorem total_insert_eq (map : OrderedMap κ α) (quantity : κ → α → M) (key : κ) (value : α) :
    (map.insert key value).total quantity =
      quantity key value + (map.erase key).total quantity := by
  have hperm := (insertEntry_perm map.ascending key value).map fun entry ↦
    quantity entry.1 entry.2
  exact hperm.sum_eq

theorem insert_get? {map : OrderedMap κ α} {key : κ} {value : α} (h : map.get? key = some value) :
    map.insert key value = map := by
  refine ext_get? fun other ↦ ?_
  by_cases hother : other = key
  · rw [hother, get?_insert_self, h]
  · rw [get?_insert_of_ne map value hother]

theorem insert_insert (map : OrderedMap κ α) (key : κ) (before after : α) :
    (map.insert key before).insert key after = map.insert key after := by
  refine ext_get? fun other ↦ ?_
  by_cases hother : other = key
  · rw [hother, get?_insert_self, get?_insert_self]
  · rw [get?_insert_of_ne _ _ hother, get?_insert_of_ne _ _ hother, get?_insert_of_ne _ _ hother]

theorem insert_comm (map : OrderedMap κ α) {key key' : κ} (hne : key ≠ key') (value value' : α) :
    (map.insert key value).insert key' value' = (map.insert key' value').insert key value := by
  refine ext_get? fun other ↦ ?_
  by_cases hother : other = key
  · rw [hother, get?_insert_of_ne _ _ hne, get?_insert_self, get?_insert_self]
  · rw [get?_insert_of_ne _ value hother]
    by_cases hother' : other = key'
    · rw [hother', get?_insert_self, get?_insert_self]
    · rw [get?_insert_of_ne _ _ hother', get?_insert_of_ne _ _ hother', get?_insert_of_ne _ _ hother]

theorem erase_insert (map : OrderedMap κ α) (key : κ) (value : α) :
    (map.insert key value).erase key = map.erase key := by
  refine ext_get? fun other ↦ ?_
  by_cases hother : other = key
  · rw [hother, get?_erase_self, get?_erase_self]
  · rw [get?_erase_of_ne _ hother, get?_erase_of_ne _ hother, get?_insert_of_ne _ _ hother]

theorem isSome_insert {map : OrderedMap κ α} {key other : κ} {value : α}
    (h : ((map.insert key value).get? other).isSome) : other = key ∨ (map.get? other).isSome := by
  by_cases hother : other = key
  · exact .inl hother
  · rw [get?_insert_of_ne map value hother] at h
    exact .inr h

theorem isSome_erase {map : OrderedMap κ α} {key other : κ}
    (h : ((map.erase key).get? other).isSome) : (map.get? other).isSome := by
  by_cases hother : other = key
  · rw [hother, get?_erase_self] at h
    exact absurd h Bool.false_ne_true
  · rwa [get?_erase_of_ne map hother] at h

/-- What holds of all entries still holds after a value is put in of which it holds. -/
theorem forall_insert {map : OrderedMap κ α} {property : κ → α → Prop} {key : κ} {value : α}
    (h : ∀ other found, map.get? other = some found → property other found)
    (hvalue : property key value) (other : κ) (found : α)
    (hfound : (map.insert key value).get? other = some found) : property other found := by
  by_cases hother : other = key
  · rw [hother, get?_insert_self] at hfound
    rw [hother, ← Option.some.inj hfound]
    exact hvalue
  · rw [get?_insert_of_ne map value hother] at hfound
    exact h other found hfound

/-- What holds of all entries still holds after one is taken out. -/
theorem forall_erase {map : OrderedMap κ α} {property : κ → α → Prop} {key : κ}
    (h : ∀ other found, map.get? other = some found → property other found) (other : κ) (found : α)
    (hfound : (map.erase key).get? other = some found) : property other found := by
  by_cases hother : other = key
  · rw [hother, get?_erase_self] at hfound
    exact absurd hfound (Option.some_ne_none found).symm
  · rw [get?_erase_of_ne map hother] at hfound
    exact h other found hfound

theorem erase_of_get?_eq_none {map : OrderedMap κ α} {key : κ} (h : map.get? key = none) :
    map.erase key = map := by
  refine ext_get? fun other ↦ ?_
  by_cases hother : other = key
  · rw [hother, get?_erase_self, h]
  · rw [get?_erase_of_ne map hother]

/-- Taking an entry out takes the quantity at its key off the sum. -/
theorem total_erase (map : OrderedMap κ α) (quantity : κ → α → M) (key : κ) :
    (map.erase key).total quantity + map.amountAt quantity key = map.total quantity := by
  unfold amountAt
  cases hget : map.get? key with
  | none => rw [erase_of_get?_eq_none hget, Option.elim_none, add_zero]
  | some value =>
    rw [Option.elim_some, add_comm, ← total_insert_eq, insert_get? hget]

/-- Putting an entry in replaces the quantity at its key by the new one. -/
theorem total_insert (map : OrderedMap κ α) (quantity : κ → α → M) (key : κ) (value : α) :
    (map.insert key value).total quantity + map.amountAt quantity key =
      map.total quantity + quantity key value := by
  rw [total_insert_eq, add_assoc, total_erase, add_comm]

/-- Maps that agree off a key have sums that differ by the quantities at it. -/
theorem total_add_amountAt {map map' : OrderedMap κ α} (quantity quantity' : κ → α → M) (key : κ)
    (hmap : ∀ other, other ≠ key → map'.get? other = map.get? other)
    (hquantity : ∀ other value, other ≠ key → map.get? other = some value →
      quantity' other value = quantity other value) :
    map'.total quantity' + map.amountAt quantity key =
      map.total quantity + map'.amountAt quantity' key := by
  have herase : map'.erase key = map.erase key := by
    refine ext_get? fun other ↦ ?_
    by_cases hother : other = key
    · rw [hother, get?_erase_self, get?_erase_self]
    · rw [get?_erase_of_ne _ hother, get?_erase_of_ne _ hother, hmap other hother]
  have hrest : (map.erase key).total quantity' = (map.erase key).total quantity := by
    refine total_congr fun other value hget ↦ ?_
    have hne : other ≠ key := by
      rintro rfl
      rw [get?_erase_self] at hget
      exact absurd hget (by simp)
    rw [get?_erase_of_ne _ hne] at hget
    exact hquantity other value hne hget
  rw [← total_erase map' quantity' key, ← total_erase map quantity key, herase, hrest]
  exact add_right_comm _ _ _

omit [Std.TransOrd κ] [Std.LawfulEqOrd κ] in
/-- A sum over two maps may be taken in either order. -/
theorem total_comm {κ' β : Type} [Ord κ'] (left : OrderedMap κ α) (right : OrderedMap κ' β)
    (quantity : κ → α → κ' → β → M) :
    (left.total fun key value ↦ right.total (quantity key value)) =
      right.total fun key' value' ↦ left.total fun key value ↦ quantity key value key' value' := by
  unfold total
  induction left.entries with
  | nil => simp
  | cons head tail ih => simp only [List.map_cons, List.sum_cons, ih, List.sum_map_add]

theorem total_single (map : OrderedMap κ α) [DecidableEq κ] (key : κ) (quantity : M) :
    (map.total fun other _ ↦ if other = key then quantity else 0) =
      if (map.get? key).isSome then quantity else 0 := by
  have hrest : ((map.erase key).total fun other _ ↦ if other = key then quantity else 0) = 0 := by
    refine total_of_zero fun other value hvalue ↦ if_neg fun hother ↦ ?_
    rw [hother, get?_erase_self] at hvalue
    exact absurd hvalue (by simp)
  rw [← total_erase map _ key, hrest, zero_add, amountAt]
  cases map.get? key <;> simp

end Total

section Ordered

variable [Std.TransOrd κ] [Std.LawfulEqOrd κ]

/-- Putting a value at a key that has one replaces it in its place. -/
theorem insertEntry_of_mem [DecidableEq κ] {entries : List (κ × α)} (h : Ascending entries)
    {key : κ} {before : α} (hmem : (key, before) ∈ entries) (value : α) :
    insertEntry key value entries =
      entries.map fun entry ↦ if entry.1 = key then (key, value) else entry := by
  induction entries with
  | nil => simp at hmem
  | cons head tail ih =>
    obtain ⟨hhead, htail⟩ := List.pairwise_cons.mp h
    have hkept : (∀ entry ∈ tail, entry.1 ≠ key) →
        (tail.map fun entry ↦ if entry.1 = key then (key, value) else entry) = tail := by
      intro hne
      conv_rhs => rw [← List.map_id tail]
      exact List.map_congr_left fun entry hentry ↦ if_neg (hne entry hentry)
    rcases List.mem_cons.mp hmem with rfl | hmem
    · have hne : ∀ entry ∈ tail, entry.1 ≠ key := by
        rintro entry hentry rfl
        exact absurd (hhead entry hentry) (by simp)
      simp [insertEntry, hkept hne]
    · have hlt := hhead _ hmem
      have hgt : compare key head.1 = .gt := Std.OrientedCmp.gt_iff_lt.mpr hlt
      have hne : head.1 ≠ key := by
        intro heq
        rw [heq] at hlt
        exact absurd hlt (by simp)
      simp [insertEntry, hgt, hne, ih htail hmem]

theorem entries_insert [DecidableEq κ] {map : OrderedMap κ α} {key : κ} {before : α}
    (h : map.get? key = some before) (value : α) :
    (map.insert key value).entries =
      map.entries.map fun entry ↦ if entry.1 = key then (key, value) else entry :=
  insertEntry_of_mem map.ascending ((get?_eq_some_iff map).mp h) value

omit [Std.TransOrd κ] in
theorem entries_erase [DecidableEq κ] (map : OrderedMap κ α) (key : κ) :
    (map.erase key).entries = map.entries.filter fun entry ↦ decide (entry.1 ≠ key) := by
  refine List.filter_congr fun entry _ ↦ ?_
  by_cases heq : entry.1 = key
  · simp [heq]
  · have hne : compare key entry.1 ≠ .eq :=
      fun hcompare ↦ heq (Std.LawfulEqCmp.eq_of_compare hcompare).symm
    simp [heq, hne]

omit [Std.TransOrd κ] in
theorem nodup_keys (map : OrderedMap κ α) : (map.entries.map Prod.fst).Nodup := by
  refine List.pairwise_map.mpr (map.ascending.imp fun hlt heq ↦ ?_)
  rw [heq] at hlt
  exact absurd hlt (by simp)

/-- A map has no more entries than there are keys for them. -/
theorem size_le_card [DecidableEq κ] {map : OrderedMap κ α} {keys : Finset κ}
    (h : ∀ key, (map.get? key).isSome → key ∈ keys) : map.size ≤ keys.card := by
  have hsubset : (map.entries.map Prod.fst).toFinset ⊆ keys := by
    intro key hkey
    obtain ⟨entry, hentry, rfl⟩ := List.mem_map.mp (List.mem_toFinset.mp hkey)
    refine h entry.1 ?_
    rw [(get?_eq_some_iff map).mpr hentry]
    rfl
  calc map.size = (map.entries.map Prod.fst).toFinset.card := by
        rw [List.toFinset_card_of_nodup map.nodup_keys, List.length_map, size]
    _ ≤ keys.card := Finset.card_le_card hsubset

theorem total_le_total [AddCommMonoid M] [PartialOrder M] [IsOrderedAddMonoid M]
    {map : OrderedMap κ α} {left right : κ → α → M}
    (h : ∀ key value, map.get? key = some value → left key value ≤ right key value) :
    map.total left ≤ map.total right := by
  unfold total
  refine List.sum_le_sum fun entry hentry ↦ ?_
  exact h entry.1 entry.2 ((get?_eq_some_iff map).mpr hentry)

theorem total_nonneg [AddCommMonoid M] [PartialOrder M] [IsOrderedAddMonoid M]
    {map : OrderedMap κ α} {quantity : κ → α → M}
    (h : ∀ key value, map.get? key = some value → 0 ≤ quantity key value) :
    0 ≤ map.total quantity := by
  rw [← total_zero map]
  exact total_le_total h

/-- A single entry is at most the sum. -/
theorem le_total [AddCommMonoid M] [PartialOrder M] [IsOrderedAddMonoid M]
    {map : OrderedMap κ α} {quantity : κ → α → M}
    (h : ∀ key value, map.get? key = some value → 0 ≤ quantity key value) {key : κ} {value : α}
    (hget : map.get? key = some value) : quantity key value ≤ map.total quantity := by
  rw [← total_erase map quantity key, amountAt, hget, Option.elim_some]
  refine le_add_of_nonneg_left (total_nonneg fun other value' hother ↦ ?_)
  by_cases hkey : other = key
  · rw [hkey, get?_erase_self] at hother
    exact absurd hother (by simp)
  · rw [get?_erase_of_ne map hkey] at hother
    exact h other value' hother

/-- A sum of naturals is positive exactly when one of its entries is. -/
theorem total_pos_iff {map : OrderedMap κ α} {quantity : κ → α → ℕ} :
    0 < map.total quantity ↔
      ∃ key value, map.get? key = some value ∧ 0 < quantity key value := by
  constructor
  · intro hpos
    by_contra hnone
    push Not at hnone
    have hzero : map.total quantity = map.total fun _ _ ↦ 0 :=
      total_congr fun key value hget ↦ Nat.le_zero.mp (hnone key value hget)
    rw [hzero, total_zero] at hpos
    exact absurd hpos (lt_irrefl 0)
  · rintro ⟨key, value, hget, hpos⟩
    exact lt_of_lt_of_le hpos (le_total (fun _ _ _ ↦ Nat.zero_le _) hget)

end Ordered

theorem total_sub {G : Type} [AddCommGroup G] (map : OrderedMap κ α) (left right : κ → α → G) :
    map.total (fun key value ↦ left key value - right key value) =
      map.total left - map.total right := by
  rw [eq_sub_iff_add_eq, ← total_add]
  simp only [sub_add_cancel]

section Ring

variable [Semiring M]

theorem total_mul_left (map : OrderedMap κ α) (factor : M) (quantity : κ → α → M) :
    (map.total fun key value ↦ factor * quantity key value) = factor * map.total quantity := by
  unfold total
  exact List.sum_map_mul_left map.entries (fun entry ↦ quantity entry.1 entry.2) factor

theorem total_cast (map : OrderedMap κ α) (quantity : κ → α → ℕ) :
    ((map.total quantity : ℕ) : M) = map.total fun key value ↦ (quantity key value : M) := by
  unfold total
  induction map.entries with
  | nil => simp
  | cons head tail ih => simp [ih]

end Ring

/-! ### Neighbours -/

section Neighbours

variable {map : OrderedMap Int α} {condition : Int → Bool}

theorem lt_of_ascending {entries : List (Int × α)} (h : Ascending entries) :
    entries.Pairwise fun left right ↦ left.1 < right.1 :=
  h.imp fun hlt ↦ Int.compare_eq_lt.mp hlt

/-- The first entry whose key satisfies a condition has the least such key. -/
theorem first?_eq_some {key : Int} {value : α} (h : map.first? condition = some (key, value)) :
    map.get? key = some value ∧ condition key = true ∧
      ∀ other, (map.get? other).isSome → condition other = true → key ≤ other := by
  obtain ⟨hcondition, before, after, hentries, hbefore⟩ := List.find?_eq_some_iff_append.mp h
  refine ⟨?_, hcondition, fun other hother hholds ↦ ?_⟩
  · rw [get?_eq_some_iff, hentries]
    simp
  · obtain ⟨value', hvalue'⟩ := Option.isSome_iff_exists.mp hother
    rw [get?_eq_some_iff, hentries] at hvalue'
    have horder := lt_of_ascending map.ascending
    rw [hentries] at horder
    rcases List.mem_append.mp hvalue' with hmem | hmem
    · have hfails := hbefore _ hmem
      simp only [hholds, Bool.not_true, Bool.false_eq_true] at hfails
    · rcases List.mem_cons.mp hmem with heq | hmem
      · exact le_of_eq (Prod.mk.inj heq).1.symm
      · have hafter := (List.pairwise_append.mp horder).2.1
        exact ((List.pairwise_cons.mp hafter).1 _ hmem).le

theorem first?_eq_none (h : map.first? condition = none) {key : Int}
    (hkey : (map.get? key).isSome) : condition key = false := by
  obtain ⟨value, hvalue⟩ := Option.isSome_iff_exists.mp hkey
  rw [get?_eq_some_iff] at hvalue
  simpa using List.find?_eq_none.mp h _ hvalue

/-- The last entry whose key satisfies a condition has the greatest such key. -/
theorem last?_eq_some {key : Int} {value : α} (h : map.last? condition = some (key, value)) :
    map.get? key = some value ∧ condition key = true ∧
      ∀ other, (map.get? other).isSome → condition other = true → other ≤ key := by
  obtain ⟨front, hfront⟩ := List.getLast?_eq_some_iff.mp h
  have hmem : (key, value) ∈ map.entries.filter fun entry ↦ condition entry.1 := by
    rw [hfront]
    simp
  obtain ⟨hentry, hcondition⟩ := List.mem_filter.mp hmem
  refine ⟨(get?_eq_some_iff map).mpr hentry, hcondition, fun other hother hholds ↦ ?_⟩
  obtain ⟨value', hvalue'⟩ := Option.isSome_iff_exists.mp hother
  rw [get?_eq_some_iff] at hvalue'
  have hfound : (other, value') ∈ front ++ [(key, value)] := by
    rw [← hfront]
    exact List.mem_filter.mpr ⟨hvalue', hholds⟩
  have horder := (lt_of_ascending map.ascending).filter fun entry ↦ condition entry.1
  rw [hfront] at horder
  rcases List.mem_append.mp hfound with hbefore | hlast
  · exact ((List.pairwise_append.mp horder).2.2 _ hbefore _ (List.mem_singleton_self _)).le
  · simp only [List.mem_singleton, Prod.mk.injEq] at hlast
    exact le_of_eq hlast.1

theorem last?_eq_none (h : map.last? condition = none) {key : Int}
    (hkey : (map.get? key).isSome) : condition key = false := by
  obtain ⟨value, hvalue⟩ := Option.isSome_iff_exists.mp hkey
  rw [get?_eq_some_iff] at hvalue
  have hempty := List.getLast?_eq_none_iff.mp h
  simpa using List.filter_eq_nil_iff.mp hempty _ hvalue

end Neighbours

end RangeBook.OrderedMap
