import RangeBook.Failure

/-!
# Actions on a state

An action runs on a state and ends with a value or a failure. The state that it leaves behind is
part of the result in both cases, so that an action which fails half-way shows what it has
written until then. A computation without a state becomes an action that writes nothing.
-/

set_option autoImplicit false
set_option relaxedAutoImplicit false

namespace RangeBook

/-- A computation that reads and writes a state and may fail. -/
abbrev Action (σ α : Type) : Type :=
  EStateM Failure σ α

namespace Action

variable {σ α β : Type}

/-- The action that takes its result from a computation and leaves the state alone. -/
def ofOutcome (outcome : Outcome α) : Action σ α := fun state =>
  match outcome with
  | .ok value => .ok value state
  | .error failure => .error failure state

instance : MonadLift Outcome (EStateM Failure σ) :=
  ⟨ofOutcome⟩

/-- Runs an action and, where it fails, mends the state that it left behind. -/
def mendingWith (mend : σ → σ) (action : Action σ α) : Action σ α := fun state =>
  match action state with
  | .ok value state => .ok value state
  | .error failure state => .error failure (mend state)

/-- The value and the state of an action that finishes. -/
def outcome (action : Action σ α) (state : σ) : Outcome (α × σ) :=
  match action state with
  | .ok value state => .ok (value, state)
  | .error failure _ => .error failure

end Action

end RangeBook
