import RangeBook.Pool.Protocol

/-!
# Factories

A factory opens pools for the fee tiers that are enabled. Its owner enables further tiers, sets the
protocol's part of the fees of pools, collects it, and hands the factory over. A tier that is
enabled stays so, with the same tick spacing.
-/

set_option autoImplicit false
set_option relaxedAutoImplicit false

namespace RangeBook

/-- The owner and the enabled fee tiers, by their rate. -/
structure Factory where
  owner : Owner
  tiers : OrderedMap Nat FeeTier
  deriving DecidableEq

namespace Factory

/-- A factory with the tiers that are enabled from the start. -/
def create (owner : Owner) : Factory :=
  ⟨owner, .ofList (FeeTier.initial.map fun tier => (tier.fee, tier))⟩

/-- Refuses a signer that is not the owner. -/
def requireOwner (factory : Factory) (signer : Owner) : Outcome Unit :=
  require (signer = factory.owner) .notAnOwner

/-- Hands the factory over to a new owner. -/
def setOwner (signer newOwner : Owner) : Action Factory Unit := do
  let factory ← get
  factory.requireOwner signer
  set { factory with owner := newOwner }

/-- Enables a fee tier. -/
def enableTier (signer : Owner) (fee tickSpacing : Nat) : Action Factory Unit := do
  let factory ← get
  factory.requireOwner signer
  let tier ← FeeTier.create fee tickSpacing
  require (factory.tiers.get? fee = none) .feeAlreadyEnabled
  set { factory with tiers := factory.tiers.insert fee tier }

/-- The tick spacing of the tier with a rate, if it is enabled. -/
def tickSpacing? (factory : Factory) (fee : Nat) : Option Nat :=
  (factory.tiers.get? fee).map FeeTier.tickSpacing

/-- Opens a pool of an enabled tier at a price. -/
def createPool (factory : Factory) (fee sqrtPrice : Nat) : Outcome Pool := do
  let tier ← orReject .feeNotEnabled (factory.tiers.get? fee)
  let pool ← Pool.create tier.fee tier.tickSpacing
  let (_, pool) ← (Pool.setFirstPrice sqrtPrice).outcome pool
  return pool

/-- Sets the protocol's part of the fees of a pool. -/
def setProtocolPart (factory : Factory) (signer : Owner) (parts : TokenPair Nat) :
    Action Pool Unit := do
  factory.requireOwner signer
  Pool.setProtocolPart parts

/-- Pays out the protocol's part of the fees of a pool. -/
def collectProtocolFees (factory : Factory) (signer : Owner) (requested : TokenPair Nat) :
    Action Pool (TokenPair Nat) := do
  factory.requireOwner signer
  Pool.collectProtocolFees requested

end Factory

end RangeBook
