import Mathlib
import RangeBook.Proofs.Failure
import RangeBook.Proofs.Swap.Course

/-!
# The passes of a swap

A swap makes a pass for each step that it takes, and one more where a step fails. `passes` lists the
states in which the passes begin, in the order in which `travel` comes to them. Each of them is
reached by a course of as many steps as there were passes before it (`course_of_passes`), so what
holds along every course holds at the start of every pass.

The allowance of steps does not enter what a swap does, as long as there are fewer passes than it
allows (`travel_of_le`). Then a swap fails only as one of its passes does (`failsOnly_travel`).
-/

set_option autoImplicit false
set_option relaxedAutoImplicit false

namespace RangeBook.SwapState

variable {pool : Pool} {request : SwapRequest} {state reached : SwapState} {allowed more : ℕ}

/-- The states in which a swap begins its passes, from a state on and within an allowance. -/
def passes (pool : Pool) (request : SwapRequest) : ℕ → SwapState → List SwapState
  | 0, _ => []
  | allowed + 1, state =>
    if state.IsDone request then []
    else
      match state.advance pool request with
      | .ok (step, next) => state :: if step.IsLast then [] else passes pool request allowed next
      | .error _ => [state]

/-- A pass begins where the course goes on, after as many steps as there were passes before. -/
theorem course_of_passes {taken : List SwapStep} {place : ℕ}
    (htaken : Course pool request taken state) (hgoing : ∀ step ∈ taken, ¬step.IsLast)
    (h : (passes pool request allowed state)[place]? = some reached) :
    ∃ steps, steps.length = taken.length + place ∧ Course pool request steps reached ∧
      (∀ step ∈ steps, ¬step.IsLast) ∧ ¬reached.IsDone request := by
  induction allowed generalizing taken state place with
  | zero => simp [passes] at h
  | succ allowed ih =>
    unfold passes at h
    split at h
    · simp at h
    rename_i hdone
    have hhead : ∀ {rest : List SwapState}, (state :: rest)[place]? = some reached → place = 0 →
        ∃ steps, steps.length = taken.length + place ∧ Course pool request steps reached ∧
          (∀ step ∈ steps, ¬step.IsLast) ∧ ¬reached.IsDone request := by
      intro rest hat hplace
      subst hplace
      obtain rfl : state = reached := by simpa using hat
      exact ⟨taken, rfl, htaken, hgoing, hdone⟩
    cases hadvance : state.advance pool request with
    | error failure =>
      rw [hadvance] at h
      cases place with
      | zero => exact hhead h rfl
      | succ place => simp at h
    | ok result =>
      obtain ⟨step, next⟩ := result
      simp only [hadvance] at h
      cases place with
      | zero => exact hhead h rfl
      | succ place =>
        rw [List.getElem?_cons_succ] at h
        split at h
        · simp at h
        rename_i hstep
        have hnext := Course.advanced htaken hgoing hdone (advanced_of_advance hadvance)
        have hgoing' : ∀ other ∈ taken ++ [step], ¬other.IsLast := by
          simpa [or_imp, forall_and] using ⟨hgoing, hstep⟩
        obtain ⟨steps, hlength, hrest⟩ := ih hnext hgoing' h
        refine ⟨steps, ?_, hrest⟩
        rw [hlength, List.length_append, List.length_singleton]
        omega

/-- What holds along every course of a swap that goes on holds where its passes begin. -/
theorem of_mem_passes (property : SwapState → Prop)
    (h : ∀ steps state, Course pool request steps state → (∀ step ∈ steps, ¬step.IsLast) →
      property state)
    (hreached : reached ∈ passes pool request allowed (.start pool request)) :
    property reached := by
  obtain ⟨place, hplace⟩ := List.mem_iff_getElem?.mp hreached
  obtain ⟨steps, -, hcourse, hgoing, -⟩ := course_of_passes .start (by simp) hplace
  exact h steps reached hcourse hgoing

/-- Where every course that goes on is shorter than a bound, there are no more passes than that. -/
theorem length_passes_le {bound : ℕ}
    (h : ∀ steps state, Course pool request steps state → (∀ step ∈ steps, ¬step.IsLast) →
      ¬state.IsDone request → steps.length < bound) (allowed : ℕ) :
    (passes pool request allowed (.start pool request)).length ≤ bound := by
  by_contra hlong
  have hlt := not_le.mp hlong
  obtain ⟨steps, hlength, hcourse, hgoing, hdone⟩ :=
    course_of_passes .start (by simp) (List.getElem?_eq_getElem hlt)
  have hshort := h steps _ hcourse hgoing hdone
  rw [hlength, List.length_nil, Nat.zero_add] at hshort
  exact lt_irrefl bound hshort

/-- A greater allowance than the passes need changes nothing. -/
theorem travel_of_le (h : (passes pool request allowed state).length < allowed)
    (hle : allowed ≤ more) :
    travel pool request more state = travel pool request allowed state := by
  induction allowed generalizing more state with
  | zero => exact absurd h (Nat.not_lt_zero _)
  | succ allowed ih =>
    obtain ⟨more, rfl⟩ : ∃ less, more = less + 1 := ⟨more - 1, by omega⟩
    unfold passes at h
    unfold travel
    split
    · rfl
    rename_i hdone
    rw [if_neg hdone] at h
    cases hadvance : state.advance pool request with
    | error failure => rfl
    | ok result =>
      obtain ⟨step, next⟩ := result
      simp only [hadvance] at h
      change (if step.IsLast then _ else _) = (if step.IsLast then _ else _)
      split
      · rfl
      rename_i hstep
      rw [if_neg hstep, List.length_cons] at h
      rw [ih (by omega) (by omega)]

/-- A swap whose courses are shorter than its allowance fails as one of its passes does. -/
theorem failsOnly_travel {failures : Failure → Prop} {bound : ℕ}
    (hlength : ∀ steps state, Course pool request steps state → (∀ step ∈ steps, ¬step.IsLast) →
      steps.length ≤ bound)
    (hadvance : ∀ steps state, Course pool request steps state → (∀ step ∈ steps, ¬step.IsLast) →
      ¬state.IsDone request → FailsOnly failures (state.advance pool request))
    {taken : List SwapStep} (htaken : Course pool request taken state)
    (hgoing : ∀ step ∈ taken, ¬step.IsLast) (hroom : bound < taken.length + allowed) :
    FailsOnly failures (travel pool request allowed state) := by
  induction allowed generalizing taken state with
  | zero =>
    have hle := hlength taken state htaken hgoing
    omega
  | succ allowed ih =>
    unfold travel
    refine .ite (fun _ ↦ .pure _) fun hdone ↦
      .bind (hadvance taken state htaken hgoing hdone) ?_
    rintro ⟨step, next⟩ hnext
    refine .ite (fun _ ↦ .pure _) fun hstep ↦ .bind ?_ fun _ _ ↦ .pure _
    have hcourse := Course.advanced htaken hgoing hdone (advanced_of_advance hnext)
    refine ih hcourse ?_ ?_
    · simpa [or_imp, forall_and] using ⟨hgoing, hstep⟩
    · rw [List.length_append, List.length_singleton]
      omega

end RangeBook.SwapState
