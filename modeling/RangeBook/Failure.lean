/-!
# Outcomes

Every operation of the library is a total function whose result says how it ended. It finishes
with a value, or it is rejected for a named cause, or it is aborted because an amount left the
range that the operation takes for granted. A `Cause` carries the label, the number and the text
under which callers know it, and the causes are numbered in the order in which they are listed.
-/

set_option autoImplicit false
set_option relaxedAutoImplicit false

namespace RangeBook

/-- Why an operation is rejected. -/
inductive Cause
  | feeLimit
  | tickSpacingLimit
  | feeAlreadyEnabled
  | feeNotEnabled
  | notAnOwner
  | zeroMintAmount
  | invalidProtocolFee
  | alreadyInitialized
  | notInitialized
  | zeroSwapAmount
  | priceLimit
  | ticksOutOfOrder
  | tickBelowMinimum
  | tickAboveMaximum
  | tickOffSpacing
  | liquidityCap
  | emptyTick
  | orderNotFound
  | batchLimit
  | emptyPosition
  | priceOutOfRange
  | tickOutOfRange
  | liquidityUnderflow
  | liquidityOverflow
  | quotientOverflow
  | zeroSqrtPrice
  | zeroLiquidity
  | priceOverflow
  | fractionOutOfRange
  | uint128Range
  | int128Range
  | uint160Range
  | uint256Range
  | int256Range
  deriving DecidableEq, Repr

namespace Cause

/-- The label under which a cause is reported. -/
def label : Cause → String
  | feeLimit => "FeeLimit"
  | tickSpacingLimit => "TickSpacingLimit"
  | feeAlreadyEnabled => "FeeAlreadyEnabled"
  | feeNotEnabled => "FeeNotEnabled"
  | notAnOwner => "NotAnOwner"
  | zeroMintAmount => "ZeroMintAmount"
  | invalidProtocolFee => "InvalidFeeProtocol"
  | alreadyInitialized => "AI"
  | notInitialized => "LOK"
  | zeroSwapAmount => "AS"
  | priceLimit => "SPL"
  | ticksOutOfOrder => "TLU"
  | tickBelowMinimum => "TLM"
  | tickAboveMaximum => "TUM"
  | tickOffSpacing => "TMS"
  | liquidityCap => "LO"
  | emptyTick => "EmptyTick"
  | orderNotFound => "LimitOrderNotFound"
  | batchLimit => "PoolInstanceLimit"
  | emptyPosition => "NP"
  | priceOutOfRange => "R"
  | tickOutOfRange => "T"
  | liquidityUnderflow => "LS"
  | liquidityOverflow => "LA"
  | quotientOverflow => "MulDivOverflow"
  | zeroSqrtPrice => "ZeroSqrtPrice"
  | zeroLiquidity => "ZeroLiquidity"
  | priceOverflow => "PriceOverflow"
  | fractionOutOfRange => "FractionOutOfRange"
  | uint128Range => "U128Overflow"
  | int128Range => "I128Overflow"
  | uint160Range => "U160Overflow"
  | uint256Range => "U256Overflow"
  | int256Range => "I256Overflow"

/-- The number under which a cause is reported: its place in the list, counted from 6000. -/
def code (cause : Cause) : Nat :=
  6000 + cause.ctorIdx

/-- The sentence that explains a cause. Short causes are explained by their label alone. -/
def message : Cause → String
  | feeLimit => "Fees collected should be less than 1_000_000 (100%)"
  | tickSpacingLimit => "Tick spacing should be greater than 0 and less than 16384"
  | feeAlreadyEnabled => "Fee amount is already enabled"
  | feeNotEnabled => "Fee amount is not enabled"
  | notAnOwner => "Signer is not the factory owner"
  | zeroMintAmount => "Minting amount should be greater than 0"
  | invalidProtocolFee => "Protocol fee should be 0 or between 4 and 10"
  | emptyTick => "Cannot create an empty tick"
  | orderNotFound => "Limit order does not exist"
  | batchLimit => "Limit order tick instances are exhausted"
  | quotientOverflow => "Multiplication or division result does not fit in 256 bits"
  | zeroSqrtPrice => "Sqrt price should be greater than 0"
  | zeroLiquidity => "Liquidity should be greater than 0"
  | priceOverflow => "Price moved out of the representable range"
  | fractionOutOfRange => "Fraction must lie in (0, 1]"
  | uint128Range => "OF or UF of UINT128"
  | int128Range => "OF or UF of INT128"
  | uint160Range => "OF or UF of UINT160"
  | uint256Range => "OF or UF of UINT256"
  | int256Range => "OF or UF of INT256"
  | cause => cause.label

end Cause

/-- How an operation fails. An aborted operation has no cause that a caller could act on. -/
inductive Failure
  | rejected (cause : Cause)
  | aborted
  deriving DecidableEq, Repr

/-- The result of a computation: a value or a failure. -/
abbrev Outcome (α : Type) : Type :=
  Except Failure α

/-- Fails for the given cause. -/
def reject {α : Type} (cause : Cause) : Outcome α :=
  .error (.rejected cause)

/-- Fails without a cause. -/
def abort {α : Type} : Outcome α :=
  .error .aborted

/-- Goes on if the condition holds and is rejected otherwise. -/
def require (condition : Prop) [Decidable condition] (cause : Cause) : Outcome Unit :=
  if condition then .ok () else reject cause

/-- The value of an option, or a rejection where there is none. -/
def orReject {α : Type} (cause : Cause) : Option α → Outcome α
  | some value => .ok value
  | none => reject cause

@[simp] theorem require_eq_ok {condition : Prop} [Decidable condition] {cause : Cause} {u : Unit} :
    require condition cause = .ok u ↔ condition := by
  unfold require
  split <;> simp_all [reject]

@[simp] theorem require_eq_error {condition : Prop} [Decidable condition] {cause : Cause}
    {failure : Failure} :
    require condition cause = .error failure ↔ ¬condition ∧ failure = .rejected cause := by
  unfold require
  split <;> simp_all [reject, eq_comm]

@[simp] theorem orReject_eq_ok {α : Type} {cause : Cause} {value? : Option α} {value : α} :
    orReject cause value? = .ok value ↔ value? = some value := by
  cases value? <;> simp [orReject, reject]

/-- A sequence of two computations finishes exactly when both do. -/
theorem bind_eq_ok {α β : Type} {first : Outcome α} {next : α → Outcome β} {result : β} :
    (first >>= next) = .ok result ↔ ∃ value, first = .ok value ∧ next value = .ok result := by
  cases first <;> simp [bind, Except.bind]

/-- A sequence of two computations fails with the failure of the first, or of the second where
the first finishes. -/
theorem bind_eq_error {α β : Type} {first : Outcome α} {next : α → Outcome β}
    {failure : Failure} :
    (first >>= next) = .error failure ↔
      first = .error failure ∨ ∃ value, first = .ok value ∧ next value = .error failure := by
  cases first <;> simp [bind, Except.bind]

end RangeBook
