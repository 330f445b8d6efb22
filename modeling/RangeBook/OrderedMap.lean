/-!
# Ordered maps

A finite map from keys to values, kept as the list of its entries in ascending order of their
keys. The order makes the list unique, so two maps with the same lookups are equal (`ext_get?`).
Each operation is described by its lookups: `get?_insert`, `get?_erase`. Neighbouring entries are
found with `first?` and `last?`, which search the entries whose keys satisfy a condition.
-/

set_option autoImplicit false
set_option relaxedAutoImplicit false

namespace RangeBook

variable {κ α : Type} [Ord κ]

/-- The keys of the entries ascend strictly. -/
def Ascending (entries : List (κ × α)) : Prop :=
  entries.Pairwise fun left right => compare left.1 right.1 = .lt

/-- A finite map with its entries in ascending order. -/
structure OrderedMap (κ α : Type) [Ord κ] where
  entries : List (κ × α)
  ascending : Ascending entries

namespace OrderedMap

instance [DecidableEq κ] [DecidableEq α] : DecidableEq (OrderedMap κ α) := fun left right =>
  decidable_of_iff (left.entries = right.entries) (by cases left; cases right; simp)

/-- The map without entries. -/
def empty : OrderedMap κ α :=
  ⟨[], .nil⟩

instance : Inhabited (OrderedMap κ α) :=
  ⟨empty⟩

/-- The number of entries. -/
def size (map : OrderedMap κ α) : Nat :=
  map.entries.length

/-- Whether there is no entry. -/
def isEmpty (map : OrderedMap κ α) : Bool :=
  map.entries.isEmpty

/-- The value of the first entry with a key. -/
def lookup (key : κ) : List (κ × α) → Option α
  | [] => none
  | entry :: entries => if compare key entry.1 = .eq then some entry.2 else lookup key entries

/-- The value at a key. -/
def get? (map : OrderedMap κ α) (key : κ) : Option α :=
  lookup key map.entries

/-- Whether there is an entry with a key. -/
def contains (map : OrderedMap κ α) (key : κ) : Bool :=
  (map.get? key).isSome

/-- Puts a value at a key into entries in ascending order. -/
def insertEntry (key : κ) (value : α) : List (κ × α) → List (κ × α)
  | [] => [(key, value)]
  | entry :: entries =>
    match compare key entry.1 with
    | .lt => (key, value) :: entry :: entries
    | .eq => (key, value) :: entries
    | .gt => entry :: insertEntry key value entries

/-- Takes the entry with a key out. -/
def eraseEntry (key : κ) (entries : List (κ × α)) : List (κ × α) :=
  entries.filter fun entry => compare key entry.1 != .eq

/-- The first entry whose key satisfies a condition. -/
def first? (map : OrderedMap κ α) (condition : κ → Bool) : Option (κ × α) :=
  map.entries.find? fun entry => condition entry.1

/-- The last entry whose key satisfies a condition. -/
def last? (map : OrderedMap κ α) (condition : κ → Bool) : Option (κ × α) :=
  (map.entries.filter fun entry => condition entry.1).getLast?

/-- Taking entries out keeps the order. -/
theorem ascending_eraseEntry {entries : List (κ × α)} (key : κ) (h : Ascending entries) :
    Ascending (eraseEntry key entries) :=
  h.filter _

/-- Takes out the entry with a key, if there is one. -/
def erase (map : OrderedMap κ α) (key : κ) : OrderedMap κ α :=
  ⟨eraseEntry key map.entries, ascending_eraseEntry key map.ascending⟩

theorem mem_insertEntry {entries : List (κ × α)} {key : κ} {value : α} {entry : κ × α}
    (h : entry ∈ insertEntry key value entries) : entry = (key, value) ∨ entry ∈ entries := by
  induction entries with
  | nil => simpa [insertEntry] using h
  | cons head tail ih =>
    unfold insertEntry at h
    split at h
    · simpa using h
    · rcases List.mem_cons.1 h with h | h
      · exact .inl h
      · exact .inr (List.mem_cons_of_mem _ h)
    · rcases List.mem_cons.1 h with h | h
      · exact .inr (h ▸ List.mem_cons_self)
      · exact (ih h).imp id (List.mem_cons_of_mem _)

variable [Std.TransOrd κ] [Std.LawfulEqOrd κ]

/-- Putting an entry in keeps the order. -/
theorem ascending_insertEntry {entries : List (κ × α)} (key : κ) (value : α)
    (h : Ascending entries) : Ascending (insertEntry key value entries) := by
  induction entries with
  | nil => simp [insertEntry, Ascending]
  | cons head tail ih =>
    obtain ⟨hhead, htail⟩ := List.pairwise_cons.1 h
    unfold insertEntry
    split
    · rename_i hlt
      refine List.pairwise_cons.2 ⟨?_, h⟩
      intro entry hentry
      rcases List.mem_cons.1 hentry with rfl | hentry
      · exact hlt
      · exact Std.TransCmp.lt_trans hlt (hhead entry hentry)
    · rename_i heq
      have hkey := Std.LawfulEqCmp.eq_of_compare heq
      subst hkey
      exact List.pairwise_cons.2 ⟨hhead, htail⟩
    · rename_i hgt
      refine List.pairwise_cons.2 ⟨?_, ih htail⟩
      intro entry hentry
      rcases mem_insertEntry hentry with rfl | hentry
      · exact Std.OrientedCmp.gt_iff_lt.1 hgt
      · exact hhead entry hentry

/-- Puts a value at a key, in the place of the value that was there. -/
def insert (map : OrderedMap κ α) (key : κ) (value : α) : OrderedMap κ α :=
  ⟨insertEntry key value map.entries, ascending_insertEntry key value map.ascending⟩

/-- Puts the entries of a list into a map one after the other. -/
def ofList (entries : List (κ × α)) : OrderedMap κ α :=
  entries.foldl (fun map entry => map.insert entry.1 entry.2) empty

/-! ### Lookups -/

theorem lookup_insertEntry (entries : List (κ × α)) (key other : κ) (value : α) :
    lookup other (insertEntry key value entries) =
      if compare other key = .eq then some value else lookup other entries := by
  induction entries with
  | nil => rfl
  | cons head tail ih =>
    unfold insertEntry
    split
    · rfl
    · rename_i heq
      have hkey := Std.LawfulEqCmp.eq_of_compare heq
      subst hkey
      simp only [lookup]
      split <;> rfl
    · rename_i hgt
      simp only [lookup, ih]
      split
      · rename_i heq
        have hkey := Std.LawfulEqCmp.eq_of_compare heq
        subst hkey
        rw [if_neg]
        rw [Std.OrientedCmp.gt_iff_lt.1 hgt]
        decide
      · rfl

theorem lookup_eraseEntry (entries : List (κ × α)) (key other : κ) :
    lookup other (eraseEntry key entries) =
      if compare other key = .eq then none else lookup other entries := by
  induction entries with
  | nil => simp [eraseEntry, lookup]
  | cons head tail ih =>
    rw [eraseEntry] at ih ⊢
    rw [List.filter_cons]
    by_cases hkey : compare key head.1 = .eq
    · have heq := Std.LawfulEqCmp.eq_of_compare hkey
      rw [if_neg (by simp [hkey]), ih, lookup]
      subst heq
      split <;> rfl
    · rw [if_pos (by simp [hkey]), lookup, ih, lookup]
      by_cases hother : compare other head.1 = .eq
      · have heq := Std.LawfulEqCmp.eq_of_compare hother
        subst heq
        rw [if_pos hother, if_pos hother, if_neg]
        intro hswap
        exact hkey (Std.OrientedCmp.eq_comm.1 hswap)
      · rw [if_neg hother, if_neg hother]

omit [Std.TransOrd κ] [Std.LawfulEqOrd κ] in
@[simp] theorem get?_empty (key : κ) : (empty : OrderedMap κ α).get? key = none :=
  rfl

theorem get?_insert (map : OrderedMap κ α) (key other : κ) (value : α) :
    (map.insert key value).get? other =
      if compare other key = .eq then some value else map.get? other :=
  lookup_insertEntry map.entries key other value

theorem get?_erase (map : OrderedMap κ α) (key other : κ) :
    (map.erase key).get? other = if compare other key = .eq then none else map.get? other :=
  lookup_eraseEntry map.entries key other

@[simp] theorem get?_insert_self (map : OrderedMap κ α) (key : κ) (value : α) :
    (map.insert key value).get? key = some value := by
  rw [get?_insert, if_pos Std.ReflCmp.compare_self]

@[simp] theorem get?_erase_self (map : OrderedMap κ α) (key : κ) :
    (map.erase key).get? key = none := by
  rw [get?_erase, if_pos Std.ReflCmp.compare_self]

theorem get?_insert_of_ne (map : OrderedMap κ α) {key other : κ} (value : α)
    (hne : other ≠ key) : (map.insert key value).get? other = map.get? other := by
  rw [get?_insert, if_neg (fun h => hne (Std.LawfulEqCmp.eq_of_compare h))]

theorem get?_erase_of_ne (map : OrderedMap κ α) {key other : κ} (hne : other ≠ key) :
    (map.erase key).get? other = map.get? other := by
  rw [get?_erase, if_neg (fun h => hne (Std.LawfulEqCmp.eq_of_compare h))]

/-! ### Equality -/

omit [Std.LawfulEqOrd κ] in
/-- No key lies below itself. -/
theorem not_below_self (key : κ) : ¬compare key key = .lt := by
  have hself : compare key key = .eq := Std.ReflCmp.compare_self
  rw [hself]
  decide

/-- Entries in ascending order are found under their keys. -/
theorem lookup_eq_some_iff {entries : List (κ × α)} (h : Ascending entries) {key : κ} {value : α} :
    lookup key entries = some value ↔ (key, value) ∈ entries := by
  induction entries with
  | nil => simp [lookup]
  | cons head tail ih =>
    obtain ⟨hhead, htail⟩ := List.pairwise_cons.1 h
    rw [lookup]
    split
    · rename_i heq
      have hkey := Std.LawfulEqCmp.eq_of_compare heq
      subst hkey
      constructor
      · intro hvalue
        rw [← Option.some.inj hvalue]
        exact List.mem_cons_self
      · intro hmem
        rcases List.mem_cons.1 hmem with hmem | hmem
        · rw [← hmem]
        · exact absurd (hhead _ hmem) (not_below_self _)
    · rename_i hne
      rw [ih htail]
      constructor
      · exact List.mem_cons_of_mem _
      · intro hmem
        rcases List.mem_cons.1 hmem with hmem | hmem
        · rw [← hmem] at hne
          exact absurd Std.ReflCmp.compare_self hne
        · exact hmem

theorem get?_eq_some_iff (map : OrderedMap κ α) {key : κ} {value : α} :
    map.get? key = some value ↔ (key, value) ∈ map.entries :=
  lookup_eq_some_iff map.ascending

theorem ext_lookup {left right : List (κ × α)} (hleft : Ascending left) (hright : Ascending right)
    (h : ∀ key, lookup key left = lookup key right) : left = right := by
  have hmem : ∀ entry, entry ∈ left ↔ entry ∈ right := fun entry =>
    (lookup_eq_some_iff hleft).symm.trans (h entry.1 ▸ lookup_eq_some_iff hright)
  clear h
  induction left generalizing right with
  | nil =>
    cases right with
    | nil => rfl
    | cons head tail => exact absurd ((hmem head).2 List.mem_cons_self) List.not_mem_nil
  | cons head tail ih =>
    cases right with
    | nil => exact absurd ((hmem head).1 List.mem_cons_self) List.not_mem_nil
    | cons head' tail' =>
      obtain ⟨hhead, htail⟩ := List.pairwise_cons.1 hleft
      obtain ⟨hhead', htail'⟩ := List.pairwise_cons.1 hright
      have hfirst : head = head' := by
        rcases List.mem_cons.1 ((hmem head).1 List.mem_cons_self) with heq | hmem'
        · exact heq
        · rcases List.mem_cons.1 ((hmem head').2 List.mem_cons_self) with heq | hmem''
          · exact heq.symm
          · have hcycle := Std.TransCmp.lt_trans (hhead _ hmem'') (hhead' _ hmem')
            exact absurd hcycle (not_below_self _)
      subst hfirst
      rw [ih htail htail' fun entry => ?_]
      have hbelow : ∀ {entries : List (κ × α)},
          (∀ entry ∈ entries, compare head.1 entry.1 = .lt) → head ∉ entries :=
        fun hentries hhead => not_below_self _ (hentries head hhead)
      constructor
      · intro hentry
        rcases List.mem_cons.1 ((hmem entry).1 (List.mem_cons_of_mem _ hentry)) with rfl | h
        · exact absurd hentry (hbelow hhead)
        · exact h
      · intro hentry
        rcases List.mem_cons.1 ((hmem entry).2 (List.mem_cons_of_mem _ hentry)) with rfl | h
        · exact absurd hentry (hbelow hhead')
        · exact h

/-- Maps with the same lookups are equal. -/
theorem ext_get? {left right : OrderedMap κ α} (h : ∀ key, left.get? key = right.get? key) :
    left = right := by
  have hentries := ext_lookup left.ascending right.ascending h
  cases left
  cases right
  simp_all

end OrderedMap

end RangeBook
