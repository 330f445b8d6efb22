import Mathlib
import RangeBook.Quotient
import RangeBook.Width

/-!
# How operations can fail

An operation that is put together from others fails in one of the ways of its parts. So it is
enough to look at each part on its own to rule a failure out (`FailsOnly.bind`), and a later part
may be looked at where the earlier ones have finished.
-/

set_option autoImplicit false
set_option relaxedAutoImplicit false

namespace RangeBook

/-- Whether a computation that fails does so in a way that is allowed. -/
def FailsOnly {α : Type} (allowed : Failure → Prop) (computation : Outcome α) : Prop :=
  ∀ failure, computation = .error failure → allowed failure

namespace FailsOnly

variable {α β : Type} {allowed : Failure → Prop} {cause : Cause}

theorem ok (value : α) : FailsOnly allowed (.ok value) :=
  fun _ h ↦ absurd h (by simp)

theorem pure (value : α) : FailsOnly allowed (pure value) :=
  ok value

theorem mono {allowed' : Failure → Prop} {computation : Outcome α}
    (h : FailsOnly allowed computation) (hle : ∀ failure, allowed failure → allowed' failure) :
    FailsOnly allowed' computation :=
  fun failure hfails ↦ hle failure (h failure hfails)

/-- A computation that finishes does not fail. -/
theorem of_eq_ok {computation : Outcome α} {value : α} (h : computation = .ok value) :
    FailsOnly allowed computation :=
  h ▸ ok value

/-- A computation that cannot fail finishes. -/
theorem exists_eq_ok {computation : Outcome α} (h : FailsOnly (fun _ ↦ False) computation) :
    ∃ value, computation = .ok value := by
  cases hresult : computation with
  | ok value => exact ⟨value, rfl⟩
  | error failure => exact (h failure hresult).elim

/-- A computation that can fail in one way only does so exactly where it does not finish. -/
theorem eq_error_iff {computation : Outcome α} {condition : Prop} {value : α}
    {failure other : Failure} (h : FailsOnly (· = failure) computation)
    (hfinishes : ∀ result, computation = .ok result ↔ condition ∧ result = value) :
    computation = .error other ↔ ¬condition ∧ other = failure := by
  constructor
  · intro hfails
    refine ⟨fun hcondition ↦ ?_, h other hfails⟩
    have hresult := (hfinishes value).mpr ⟨hcondition, rfl⟩
    exact absurd (hfails.symm.trans hresult) (by simp)
  · rintro ⟨hcondition, rfl⟩
    cases hresult : computation with
    | ok result => exact absurd ((hfinishes result).mp hresult).1 hcondition
    | error failure => rw [h failure hresult]

/-- A choice fails as the chosen way does. -/
theorem ite {condition : Prop} [Decidable condition] {left right : Outcome α}
    (hleft : condition → FailsOnly allowed left) (hright : ¬condition → FailsOnly allowed right) :
    FailsOnly allowed (if condition then left else right) := by
  split
  · exact hleft ‹_›
  · exact hright ‹_›

/-- A sequence fails as its parts do, the second one after the first has finished. -/
theorem bind {first : Outcome α} {next : α → Outcome β} (hfirst : FailsOnly allowed first)
    (hnext : ∀ value, first = .ok value → FailsOnly allowed (next value)) :
    FailsOnly allowed (first >>= next) := by
  intro failure h
  rcases bind_eq_error.mp h with h | ⟨value, hvalue, h⟩
  · exact hfirst failure h
  · exact hnext value hvalue failure h

/-- A sequence whose first part finishes fails as the rest does. -/
theorem bind_of_eq_ok {first : Outcome α} {next : α → Outcome β} {value : α}
    (hfirst : first = .ok value) (hnext : FailsOnly allowed (next value)) :
    FailsOnly allowed (first >>= next) := by
  rw [hfirst]
  exact hnext

/-- A choice between two ways to get a value for the same continuation fails as the chosen way and
the continuation do. -/
theorem ite_bind {condition : Prop} [Decidable condition] {left right : Outcome α}
    {next : α → Outcome β} (hleft : condition → FailsOnly allowed left)
    (hright : ¬condition → FailsOnly allowed right)
    (hnext : ∀ value, (if condition then left else right) = .ok value →
      FailsOnly allowed (next value)) :
    FailsOnly allowed (if condition then left >>= next else right >>= next) := by
  by_cases hcondition : condition
  · rw [if_pos hcondition] at hnext ⊢
    exact (hleft hcondition).bind hnext
  · rw [if_neg hcondition] at hnext ⊢
    exact (hright hcondition).bind hnext

theorem require {condition : Prop} [Decidable condition]
    (h : ¬condition → allowed (.rejected cause)) :
    FailsOnly allowed (require condition cause) := by
  intro failure hfails
  obtain ⟨hcondition, rfl⟩ := require_eq_error.mp hfails
  exact h hcondition

theorem within {condition : Prop} [Decidable condition] {value : α}
    (h : ¬condition → allowed (.rejected cause)) :
    FailsOnly allowed (within condition cause value) := by
  intro failure hfails
  obtain ⟨hcondition, rfl⟩ := within_eq_error.mp hfails
  exact h hcondition

theorem orReject {value? : Option α} (h : value? = none → allowed (.rejected cause)) :
    FailsOnly allowed (orReject cause value?) := by
  cases value? with
  | some value => exact ok value
  | none =>
    intro failure hfails
    rw [← Except.error.inj hfails]
    exact h rfl

theorem remainder {left right : ℕ} (h : allowed .aborted) :
    FailsOnly allowed (remainder left right) := by
  unfold RangeBook.remainder
  split
  · exact ok _
  · intro failure hfails
    rw [← Except.error.inj hfails]
    exact h

theorem mulDivFloor {a b c : ℕ} (h : allowed (.rejected .quotientOverflow)) :
    FailsOnly allowed (mulDivFloor a b c) :=
  orReject fun _ ↦ h

/-- A quotient below a bound of 256 bits is never rejected, rounded down or up. -/
theorem mulDivFloor_of_le {a b c bound : ℕ} (hpos : 0 < c) (hle : a * b ≤ bound * c)
    (hfits : bound < twoPow 256) : FailsOnly allowed (RangeBook.mulDivFloor a b c) := by
  have hquotient : a * b / c ≤ bound := Nat.div_le_of_le_mul (by rwa [mul_comm c])
  exact of_eq_ok (mulDivFloor_eq_ok.mpr ⟨hpos.ne', lt_of_le_of_lt hquotient hfits, rfl⟩)

theorem mulDivCeil_of_le {a b c bound : ℕ} (hpos : 0 < c) (hle : a * b ≤ bound * c)
    (hfits : bound < twoPow 256) : FailsOnly allowed (mulDivCeil a b c) := by
  have hquotient : divCeil (a * b) c ≤ bound := (divCeil_le_iff hpos).mpr hle
  exact of_eq_ok (mulDivCeil_eq_ok.mpr ⟨hpos.ne', lt_of_le_of_lt hquotient hfits, rfl⟩)

end FailsOnly

end RangeBook
