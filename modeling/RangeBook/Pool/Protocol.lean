import RangeBook.Pool.Basic

/-!
# The protocol's part of the fees

A part of the fees that ranges earn can be set aside for the protocol, one fourth to one tenth,
for each token on its own. Collecting all of what was set aside leaves one unit in place.
-/

set_option autoImplicit false
set_option relaxedAutoImplicit false

namespace RangeBook.Pool

/-- Whether the protocol may take this part of the fees: none, or one fourth to one tenth. -/
def ProtocolPartAllowed (denominator : Nat) : Prop :=
  denominator = 0 ∨ (4 ≤ denominator ∧ denominator ≤ 10)

instance (denominator : Nat) : Decidable (ProtocolPartAllowed denominator) :=
  inferInstanceAs (Decidable (_ ∨ _))

/-- Sets the part of the fees in each token that goes to the protocol. -/
def setProtocolPart (parts : TokenPair Nat) : Action Pool Unit := do
  let pool ← opened
  require (ProtocolPartAllowed parts.zero ∧ ProtocolPartAllowed parts.one) .invalidProtocolFee
  set { pool with protocolPart := parts }

/-- What is paid out of the fees set aside: at most what is requested, and all but one unit where
that is everything. -/
def protocolPayout (requested available : Nat) : Nat :=
  if available ≤ requested then available - 1 else requested

/-- Pays out at most the requested amounts of the fees that were set aside. -/
def collectProtocolFees (requested : TokenPair Nat) : Action Pool (TokenPair Nat) := do
  let pool ← opened
  let paid := requested.zipWith protocolPayout pool.protocolFees
  set { pool with protocolFees := pool.protocolFees.zipWith (· - ·) paid }
  return paid

end RangeBook.Pool
