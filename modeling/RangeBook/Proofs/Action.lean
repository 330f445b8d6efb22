import Mathlib
import RangeBook.Action
import RangeBook.Proofs.Failure

/-!
# How actions end

Each way of putting actions together is described by the results that it can have: a sequence
finishes exactly when both parts do, and fails where one of them fails (`bind_eq_ok`,
`bind_eq_error`), in one of the ways of its parts (`FailsOnly.bind`). An action is `Atomic` where it writes nothing when it fails. Reading first and
writing last makes an action atomic (`Atomic.read_bind`), and mending makes one of an action whose
leftovers can be undone.
-/

set_option autoImplicit false
set_option relaxedAutoImplicit false

namespace RangeBook

/-- A choice between two ways to get a value for the same continuation finishes exactly when the
chosen way and the continuation do. -/
theorem ite_bind_eq_ok {α β : Type} {condition : Prop} [Decidable condition] {left right : Outcome α}
    {next : α → Outcome β} {result : β} :
    (if condition then left >>= next else right >>= next) = .ok result ↔
      ∃ value, (if condition then left else right) = .ok value ∧ next value = .ok result := by
  split <;> exact bind_eq_ok

namespace Action

variable {σ α β : Type} {state after : σ} {failure : Failure}

/-! ### Results of sequences -/

/-- A sequence finishes exactly when both of its parts do. -/
theorem bind_eq_ok {first : Action σ α} {next : α → Action σ β} {result : β} :
    (first >>= next) state = .ok result after ↔
      ∃ value between, first state = .ok value between ∧
        next value between = .ok result after := by
  change EStateM.bind first next state = _ ↔ _
  unfold EStateM.bind
  cases first state <;> simp

/-- A sequence fails where its first part does, or where the second does after the first. -/
theorem bind_eq_error {first : Action σ α} {next : α → Action σ β} :
    (first >>= next) state = .error failure after ↔
      first state = .error failure after ∨
        ∃ value between, first state = .ok value between ∧
          next value between = .error failure after := by
  change EStateM.bind first next state = _ ↔ _
  unfold EStateM.bind
  cases first state <;> simp

/-- A sequence whose first part finishes goes on with the second one. -/
theorem bind_of_eq_ok {first : Action σ α} {next : α → Action σ β} {value : α}
    (h : first state = .ok value after) : (first >>= next) state = next value after := by
  change EStateM.bind first next state = _
  rw [EStateM.bind, h]

/-- A sequence whose first part fails is over. -/
theorem bind_of_eq_error {first : Action σ α} {next : α → Action σ β}
    (h : first state = .error failure after) : (first >>= next) state = .error failure after :=
  bind_eq_error.mpr (.inl h)

@[simp] theorem pure_eq_ok {value result : α} :
    (pure value : Action σ α) state = .ok result after ↔ value = result ∧ state = after := by
  change EStateM.Result.ok value state = _ ↔ _
  simp

@[simp] theorem pure_ne_error {value : α} :
    (pure value : Action σ α) state ≠ .error failure after := by
  change EStateM.Result.ok value state ≠ _
  simp

@[simp] theorem get_eq_ok {result : σ} :
    (get : Action σ σ) state = .ok result after ↔ state = result ∧ state = after := by
  change EStateM.Result.ok state state = _ ↔ _
  simp

@[simp] theorem get_ne_error : (get : Action σ σ) state ≠ .error failure after := by
  change EStateM.Result.ok state state ≠ _
  simp

@[simp] theorem set_eq_ok {written : σ} {result : PUnit} :
    (set written : Action σ PUnit) state = .ok result after ↔ written = after := by
  change EStateM.Result.ok PUnit.unit written = _ ↔ _
  simp

@[simp] theorem set_ne_error {written : σ} :
    (set written : Action σ PUnit) state ≠ .error failure after := by
  change EStateM.Result.ok PUnit.unit written ≠ _
  simp

@[simp] theorem modify_eq_ok {change : σ → σ} {result : PUnit} :
    (modify change : Action σ PUnit) state = .ok result after ↔ change state = after := by
  change EStateM.Result.ok PUnit.unit (change state) = _ ↔ _
  simp

@[simp] theorem modify_ne_error {change : σ → σ} :
    (modify change : Action σ PUnit) state ≠ .error failure after := by
  change EStateM.Result.ok PUnit.unit (change state) ≠ _
  simp

/-- A computation without a state finishes as it does on its own and writes nothing. -/
@[simp] theorem lift_eq_ok {computation : Outcome α} {value : α} :
    (liftM computation : Action σ α) state = .ok value after ↔
      computation = .ok value ∧ state = after := by
  change ofOutcome computation state = _ ↔ _
  unfold ofOutcome
  cases computation <;> simp

@[simp] theorem lift_eq_error {computation : Outcome α} :
    (liftM computation : Action σ α) state = .error failure after ↔
      computation = .error failure ∧ state = after := by
  change ofOutcome computation state = _ ↔ _
  unfold ofOutcome
  cases computation <;> simp

@[simp] theorem mendingWith_eq_ok {mend : σ → σ} {action : Action σ α} {value : α} :
    action.mendingWith mend state = .ok value after ↔ action state = .ok value after := by
  unfold mendingWith
  cases action state <;> simp

theorem mendingWith_eq_error {mend : σ → σ} {action : Action σ α} :
    action.mendingWith mend state = .error failure after ↔
      ∃ left, action state = .error failure left ∧ mend left = after := by
  unfold mendingWith
  cases action state <;> simp

@[simp] theorem outcome_eq_ok {action : Action σ α} {value : α} :
    action.outcome state = .ok (value, after) ↔ action state = .ok value after := by
  unfold outcome
  cases action state <;> simp

/-! ### Failures that are allowed -/

/-- Whether an action that runs on a state and fails does so in a way that is allowed. -/
def FailsOnly (allowed : Failure → Prop) (action : Action σ α) (state : σ) : Prop :=
  ∀ failure after, action state = .error failure after → allowed failure

section

variable {allowed : Failure → Prop}

theorem FailsOnly.lift {computation : Outcome α} (h : RangeBook.FailsOnly allowed computation) :
    FailsOnly allowed (liftM computation : Action σ α) state :=
  fun failure _ hfails ↦ h failure (lift_eq_error.mp hfails).1

theorem FailsOnly.bind {first : Action σ α} {next : α → Action σ β}
    (hfirst : FailsOnly allowed first state)
    (hnext : ∀ value between, first state = .ok value between →
      FailsOnly allowed (next value) between) : FailsOnly allowed (first >>= next) state := by
  intro failure after h
  rcases bind_eq_error.mp h with h | ⟨value, between, hfinish, hrest⟩
  · exact hfirst failure after h
  · exact hnext value between hfinish failure after hrest

/-- What finishes may be left out. -/
theorem FailsOnly.bind_of_eq_ok {first : Action σ α} {next : α → Action σ β} {value : α}
    {between : σ} (hfinish : first state = .ok value between)
    (h : FailsOnly allowed (next value) between) : FailsOnly allowed (first >>= next) state := by
  intro failure last hfails
  rcases bind_eq_error.mp hfails with hfirst | ⟨value', between', hfirst, hnext⟩
  · rw [hfinish] at hfirst
    cases hfirst
  · rw [hfinish] at hfirst
    cases hfirst
    exact h failure last hnext

theorem FailsOnly.get_bind {next : σ → Action σ β} (h : FailsOnly allowed (next state) state) :
    FailsOnly allowed (get >>= next) state :=
  .bind_of_eq_ok (get_eq_ok.mpr ⟨rfl, rfl⟩) h

theorem FailsOnly.set_bind {written : σ} {next : PUnit → Action σ β}
    (h : FailsOnly allowed (next ⟨⟩) written) : FailsOnly allowed (set written >>= next) state :=
  .bind_of_eq_ok (set_eq_ok.mpr rfl) h

theorem FailsOnly.modify_bind {change : σ → σ} {next : PUnit → Action σ β}
    (h : FailsOnly allowed (next ⟨⟩) (change state)) :
    FailsOnly allowed (modify change >>= next) state :=
  .bind_of_eq_ok (modify_eq_ok.mpr rfl) h

theorem FailsOnly.pure (value : α) : FailsOnly allowed (pure value : Action σ α) state :=
  fun _ _ hfails ↦ absurd hfails pure_ne_error

theorem FailsOnly.lift_bind {computation : Outcome α} {value : α} {next : α → Action σ β}
    (hfinish : computation = .ok value) (h : FailsOnly allowed (next value) state) :
    FailsOnly allowed (liftM computation >>= next) state :=
  .bind_of_eq_ok (lift_eq_ok.mpr ⟨hfinish, rfl⟩) h

/-- Mending does not change how an action fails. -/
theorem FailsOnly.mendingWith {mend : σ → σ} {action : Action σ α}
    (h : FailsOnly allowed action state) : FailsOnly allowed (action.mendingWith mend) state := by
  intro failure after hfails
  obtain ⟨left, hfails, -⟩ := mendingWith_eq_error.mp hfails
  exact h failure left hfails

/-- Its outcome fails as the action does. -/
theorem FailsOnly.outcome {action : Action σ α} (h : FailsOnly allowed action state) :
    RangeBook.FailsOnly allowed (action.outcome state) := by
  intro failure hfails
  unfold Action.outcome at hfails
  cases hresult : action state with
  | ok value after =>
    rw [hresult] at hfails
    cases hfails
  | error failure' after =>
    rw [hresult] at hfails
    exact Except.error.inj hfails ▸ h failure' after hresult

/-- An action that cannot fail finishes. -/
theorem FailsOnly.exists_eq_ok {action : Action σ α} (h : FailsOnly (fun _ ↦ False) action state) :
    ∃ value after, action state = .ok value after := by
  cases hresult : action state with
  | ok value after => exact ⟨value, after, rfl⟩
  | error failure after => exact (h failure after hresult).elim

end

/-! ### Actions that fail without a trace -/

/-- Whether an action leaves the state as it was where it fails. -/
def Atomic (action : Action σ α) : Prop :=
  ∀ state failure after, action state = .error failure after → after = state

/-- Whether an action only reads: it leaves the state as it was however it ends. -/
structure ReadOnly (action : Action σ α) : Prop where
  of_ok : ∀ state value after, action state = .ok value after → after = state
  of_error : Atomic action

theorem ReadOnly.get : ReadOnly (get : Action σ σ) where
  of_ok _ _ _ h := (get_eq_ok.mp h).2.symm
  of_error _ _ _ h := absurd h get_ne_error

theorem ReadOnly.lift (computation : Outcome α) : ReadOnly (liftM computation : Action σ α) where
  of_ok _ _ _ h := (lift_eq_ok.mp h).2.symm
  of_error _ _ _ h := (lift_eq_error.mp h).2.symm

theorem ReadOnly.pure (value : α) : ReadOnly (pure value : Action σ α) where
  of_ok _ _ _ h := (pure_eq_ok.mp h).2.symm
  of_error _ _ _ h := absurd h pure_ne_error

theorem Atomic.pure (value : α) : Atomic (pure value : Action σ α) :=
  (ReadOnly.pure value).of_error

theorem ReadOnly.bind {first : Action σ α} {next : α → Action σ β} (hfirst : ReadOnly first)
    (hnext : ∀ value, ReadOnly (next value)) : ReadOnly (first >>= next) where
  of_ok _ _ _ h := by
    obtain ⟨value', between, hfinish, hrest⟩ := bind_eq_ok.mp h
    rw [(hnext value').of_ok _ _ _ hrest, hfirst.of_ok _ _ _ hfinish]
  of_error _ _ _ h := by
    rcases bind_eq_error.mp h with h | ⟨value', between, hfinish, hrest⟩
    · exact hfirst.of_error _ _ _ h
    · rw [(hnext value').of_error _ _ _ hrest, hfirst.of_ok _ _ _ hfinish]

/-- What only reads may stand in front of an atomic action. -/
theorem Atomic.read_bind {first : Action σ α} {next : α → Action σ β} (hfirst : ReadOnly first)
    (hnext : ∀ value, Atomic (next value)) : Atomic (first >>= next) := by
  intro state failure after h
  rcases bind_eq_error.mp h with h | ⟨value, between, hfinish, hrest⟩
  · exact hfirst.of_error _ _ _ h
  · rw [hnext value _ _ _ hrest, hfirst.of_ok _ _ _ hfinish]

/-- What never fails may stand behind an atomic action. -/
theorem Atomic.bind_of_ne_error {first : Action σ α} {next : α → Action σ β}
    (hfirst : Atomic first)
    (hnext : ∀ value state failure after, next value state ≠ .error failure after) :
    Atomic (first >>= next) := by
  intro state failure after h
  rcases bind_eq_error.mp h with h | ⟨value, between, -, hrest⟩
  · exact hfirst _ _ _ h
  · exact absurd hrest (hnext value between failure after)

theorem bind_ne_error {first : Action σ α} {next : α → Action σ β}
    (hfirst : ∀ state failure after, first state ≠ .error failure after)
    (hnext : ∀ value state failure after, next value state ≠ .error failure after)
    (state : σ) (failure : Failure) (after : σ) :
    (first >>= next) state ≠ .error failure after := by
  intro h
  rcases bind_eq_error.mp h with h | ⟨value, between, -, hrest⟩
  · exact hfirst _ _ _ h
  · exact hnext _ _ _ _ hrest

end Action

end RangeBook
