import Mathlib
import RangeBook.Factory
import RangeBook.Proofs.Pool.Failure
import RangeBook.Proofs.Tick.Floor

/-!
# Who governs a factory, and what stays

An `Exchange` is a factory with the pools that it opened. Anybody may sign a call on it, and the
calls that belong to the owner are refused where someone else signs them. A call that goes through
does one of three things to the factory: it leaves the factory alone, hands it over or enables one
more tier, and the last two take the signature of the owner (`FactoryChange`).

So a tier is never changed once it is enabled (`Factory.KeepsTiers`), and every tier can be
instantiated (`Factory.TiersAllowed`). From these two it follows which pools can be opened at any
moment of a run (`factory_governed`).
-/

set_option autoImplicit false
set_option relaxedAutoImplicit false

namespace RangeBook

attribute [local irreducible] tickSqrtPrice tickAt

/-! ### Exchanges -/

/-- A factory and the pools that it opened, the oldest first. -/
structure Exchange where
  factory : Factory
  pools : List Pool
  deriving DecidableEq

/-- A call on a factory or on one of its pools. -/
inductive FactoryCall
  | setOwner (newOwner : Owner)
  | enableTier (fee tickSpacing : ℕ)
  | createPool (fee sqrtPrice : ℕ)
  | onPool (index : ℕ) (call : Call)

/-- A call, and who signs it. -/
structure SignedCall where
  signer : Owner
  call : FactoryCall

/-- Whether a call on a pool belongs to the owner of its factory: those on the protocol's part. -/
def Call.NeedsOwner : Call → Prop
  | setProtocolPart _ | collectProtocolFees _ => True
  | _ => False

namespace FactoryCall

/-- Whether a call belongs to the owner of the factory. -/
def NeedsOwner : FactoryCall → Prop
  | setOwner _ | enableTier _ _ => True
  | createPool _ _ => False
  | onPool _ call => call.NeedsOwner

/-- Whether the pool that a call is made on is there. -/
def HasPool (exchange : Exchange) : FactoryCall → Prop
  | onPool index _ => index < exchange.pools.length
  | _ => True

end FactoryCall

namespace Exchange

/-- A new factory, which has opened no pool. -/
def start (owner : Owner) : Exchange :=
  ⟨.create owner, []⟩

variable {α : Type}

/-- Runs an action on the factory. -/
def onFactory (action : Action Factory α) : Action Exchange α := fun exchange ↦
  match action exchange.factory with
  | .ok value factory => .ok value { exchange with factory }
  | .error failure factory => .error failure { exchange with factory }

/-- Runs an action on a pool. -/
def onPool (index : ℕ) (action : Factory → Action Pool α) : Action Exchange α := fun exchange ↦
  match exchange.pools[index]? with
  | none => .error .aborted exchange
  | some pool =>
    match action exchange.factory pool with
    | .ok value pool => .ok value { exchange with pools := exchange.pools.set index pool }
    | .error failure pool => .error failure { exchange with pools := exchange.pools.set index pool }

end Exchange

/-- Runs a call on a pool. The calls on the protocol's part go through the factory. -/
def Factory.runOnPool (factory : Factory) (signer : Owner) : Call → Action Pool (TokenPair ℤ)
  | .setProtocolPart parts => do
    factory.setProtocolPart signer parts
    return .both 0
  | .collectProtocolFees requested => do
    let paid ← factory.collectProtocolFees signer requested
    return paid.givenOut
  | call => call.run

/-- Runs a signed call, and gives what it brings to a pool in each token. -/
def SignedCall.run (signed : SignedCall) : Action Exchange (TokenPair ℤ) :=
  match signed.call with
  | .setOwner newOwner => do
    Exchange.onFactory (Factory.setOwner signed.signer newOwner)
    return .both 0
  | .enableTier fee tickSpacing => do
    Exchange.onFactory (Factory.enableTier signed.signer fee tickSpacing)
    return .both 0
  | .createPool fee sqrtPrice => do
    let exchange ← get
    let pool ← exchange.factory.createPool fee sqrtPrice
    set { exchange with pools := exchange.pools ++ [pool] }
    return .both 0
  | .onPool index call => Exchange.onPool index fun factory ↦ factory.runOnPool signed.signer call

namespace Exchange

/-- The exchange that a call leaves behind, whether it finishes or fails. -/
def enter (exchange : Exchange) (signed : SignedCall) : Exchange :=
  match signed.run exchange with
  | .ok _ after => after
  | .error _ after => after

/-- Runs a sequence of calls. -/
def enterAll (exchange : Exchange) (calls : List SignedCall) : Exchange :=
  calls.foldl enter exchange

end Exchange

/-! ### Calls that are refused -/

section

variable {α : Type} {exchange after : Exchange} {factory : Factory} {pool : Pool} {index : ℕ}
  {signer : Owner} {signed : SignedCall} {allowed : Failure → Prop} {failure : Failure}

namespace Exchange

theorem onFactory_eq_ok {action : Action Factory α} {value : α} :
    onFactory action exchange = .ok value after ↔
      ∃ factory, action exchange.factory = .ok value factory ∧
        { exchange with factory } = after := by
  unfold onFactory
  cases action exchange.factory <;> simp

theorem onFactory_eq_error {action : Action Factory α} :
    onFactory action exchange = .error failure after ↔
      ∃ factory, action exchange.factory = .error failure factory ∧
        { exchange with factory } = after := by
  unfold onFactory
  cases action exchange.factory <;> simp

/-- Actions on pools leave the factory alone. -/
theorem factory_onPool {action : Factory → Action Pool α} :
    (∀ value, onPool index action exchange = .ok value after → after.factory = exchange.factory) ∧
      ∀ failure, onPool index action exchange = .error failure after →
        after.factory = exchange.factory := by
  unfold onPool
  cases exchange.pools[index]? with
  | none => exact ⟨fun _ h ↦ absurd h (by simp), fun _ h ↦ by cases h; rfl⟩
  | some pool =>
    dsimp only
    cases action exchange.factory pool with
    | ok => exact ⟨fun _ h ↦ by cases h; rfl, fun _ h ↦ absurd h (by simp)⟩
    | error => exact ⟨fun _ h ↦ absurd h (by simp), fun _ h ↦ by cases h; rfl⟩

/-- An action that fails on a pool without a trace fails so on the exchange. -/
theorem onPool_of_eq_error {action : Factory → Action Pool α}
    (hpool : exchange.pools[index]? = some pool)
    (h : action exchange.factory pool = .error failure pool) :
    onPool index action exchange = .error failure exchange := by
  have hsame : exchange.pools.set index pool = exchange.pools := by
    obtain ⟨hindex, rfl⟩ := List.getElem?_eq_some_iff.mp hpool
    exact List.set_getElem_self hindex
  unfold onPool
  rw [hpool]
  dsimp only
  rw [h]
  dsimp only
  rw [hsame]

theorem onFactory_failsOnly {action : Action Factory α}
    (h : action.FailsOnly allowed exchange.factory) :
    (onFactory action).FailsOnly allowed exchange := by
  intro failure after hfails
  obtain ⟨left, hfails, -⟩ := onFactory_eq_error.mp hfails
  exact h failure left hfails

theorem onPool_failsOnly {action : Factory → Action Pool α}
    (hpool : exchange.pools[index]? = some pool)
    (h : (action exchange.factory).FailsOnly allowed pool) :
    (onPool index action).FailsOnly allowed exchange := by
  intro failure after hfails
  unfold onPool at hfails
  rw [hpool] at hfails
  dsimp only at hfails
  split at hfails
  · cases hfails
  · rename_i failure' left hfails'
    cases hfails
    exact h failure left hfails'

end Exchange

namespace Factory

theorem requireOwner_of_ne (hsigner : signer ≠ factory.owner) :
    factory.requireOwner signer = .error (.rejected .notAnOwner) :=
  require_eq_error.mpr ⟨hsigner, rfl⟩

theorem requireOwner_owner (factory : Factory) : factory.requireOwner factory.owner = .ok () :=
  require_eq_ok.mpr rfl

/-- An action on a factory that asks for its owner first is refused to others. -/
theorem refused {next : Factory → PUnit → Action Factory α} (hsigner : signer ≠ factory.owner) :
    (do
      let factory ← get
      let answer ← factory.requireOwner signer
      next factory answer : Action Factory α) factory =
        .error (.rejected .notAnOwner) factory := by
  rw [Action.bind_of_eq_ok (Action.get_eq_ok.mpr ⟨rfl, rfl⟩)]
  exact Action.bind_of_eq_error (Action.lift_eq_error.mpr ⟨requireOwner_of_ne hsigner, rfl⟩)

/-- So is an action on a pool that does. -/
theorem refusedOnPool {next : PUnit → Action Pool α} (hsigner : signer ≠ factory.owner) :
    (do
      let answer ← factory.requireOwner signer
      next answer : Action Pool α) pool = .error (.rejected .notAnOwner) pool :=
  Action.bind_of_eq_error (Action.lift_eq_error.mpr ⟨requireOwner_of_ne hsigner, rfl⟩)

theorem setOwner_finishes (factory : Factory) (newOwner : Owner) :
    (setOwner factory.owner newOwner).FailsOnly allowed factory :=
  .get_bind (.lift_bind factory.requireOwner_owner fun _ _ h ↦ absurd h Action.set_ne_error)

theorem enableTier_failsOnly (factory : Factory) (fee tickSpacing : ℕ)
    (h : ∀ cause, cause ≠ .notAnOwner → allowed (.rejected cause)) :
    (enableTier factory.owner fee tickSpacing).FailsOnly allowed factory := by
  refine .get_bind (.lift_bind factory.requireOwner_owner ?_)
  refine .bind (.lift ?_) fun tier _ _ ↦ .bind (.lift (.require fun _ ↦ h _ (by decide)))
    fun _ _ _ ↦ fun _ _ hfails ↦ absurd hfails Action.set_ne_error
  exact .bind (.require fun _ ↦ h _ (by decide)) fun _ _ ↦
    .bind (.require fun _ ↦ h _ (by decide)) fun _ _ ↦ .pure _

/-- The calls on the protocol's part are refused to others. -/
theorem runOnPool_of_ne {call : Call} (hneeds : call.NeedsOwner)
    (hsigner : signer ≠ factory.owner) :
    factory.runOnPool signer call pool = .error (.rejected .notAnOwner) pool := by
  cases call with
  | setProtocolPart parts => exact Action.bind_of_eq_error (refusedOnPool hsigner)
  | collectProtocolFees requested => exact Action.bind_of_eq_error (refusedOnPool hsigner)
  | _ => exact absurd hneeds id

theorem runOnPool_failsOnly (factory : Factory) {call : Call} (hneeds : call.NeedsOwner)
    (h : ∀ cause, cause ≠ .notAnOwner → allowed (.rejected cause)) :
    (factory.runOnPool factory.owner call).FailsOnly allowed pool := by
  have hopened : Pool.opened.FailsOnly allowed pool :=
    Pool.opened_failsOnly fun _ ↦ h _ (by decide)
  cases call with
  | setProtocolPart parts =>
    refine .bind (.lift_bind factory.requireOwner_owner (.bind hopened fun _ _ _ ↦ ?_))
      fun _ _ _ ↦ .pure _
    exact .bind (.lift (.require fun _ ↦ h _ (by decide)))
      fun _ _ _ _ _ hfails ↦ absurd hfails Action.set_ne_error
  | collectProtocolFees requested =>
    exact .bind (.lift_bind factory.requireOwner_owner (.bind hopened fun _ _ _ ↦
      .set_bind (.pure _))) fun _ _ _ ↦ .pure _
  | _ => exact absurd hneeds id

end Factory

namespace SignedCall

/-- A call that belongs to the owner is refused to everybody else, and nothing changes. -/
theorem run_of_ne (hneeds : signed.call.NeedsOwner) (hpool : signed.call.HasPool exchange)
    (hsigner : signed.signer ≠ exchange.factory.owner) :
    signed.run exchange = .error (.rejected .notAnOwner) exchange := by
  obtain ⟨signer, call⟩ := signed
  cases call with
  | setOwner newOwner =>
    exact Action.bind_of_eq_error
      (Exchange.onFactory_eq_error.mpr ⟨_, Factory.refused hsigner, rfl⟩)
  | enableTier fee tickSpacing =>
    exact Action.bind_of_eq_error
      (Exchange.onFactory_eq_error.mpr ⟨_, Factory.refused hsigner, rfl⟩)
  | createPool fee sqrtPrice => exact absurd hneeds id
  | onPool index call =>
    change Exchange.onPool index (fun factory ↦ factory.runOnPool signer call) exchange = _
    exact Exchange.onPool_of_eq_error (List.getElem?_eq_getElem hpool)
      (Factory.runOnPool_of_ne hneeds hsigner)

/-- The owner is never told to be someone else. -/
theorem run_owner_failsOnly (hneeds : signed.call.NeedsOwner)
    (hpool : signed.call.HasPool exchange) (hsigner : signed.signer = exchange.factory.owner)
    (h : ∀ cause, cause ≠ .notAnOwner → allowed (.rejected cause)) :
    signed.run.FailsOnly allowed exchange := by
  obtain ⟨signer, call⟩ := signed
  obtain rfl : signer = exchange.factory.owner := hsigner
  cases call with
  | setOwner newOwner =>
    exact .bind (Exchange.onFactory_failsOnly (exchange.factory.setOwner_finishes newOwner))
      fun _ _ _ ↦ .pure _
  | enableTier fee tickSpacing =>
    exact .bind (Exchange.onFactory_failsOnly
      (exchange.factory.enableTier_failsOnly fee tickSpacing h)) fun _ _ _ ↦ .pure _
  | createPool fee sqrtPrice => exact absurd hneeds id
  | onPool index call =>
    change (Exchange.onPool index fun factory ↦
      factory.runOnPool exchange.factory.owner call).FailsOnly allowed exchange
    exact Exchange.onPool_failsOnly (List.getElem?_eq_getElem hpool)
      (exchange.factory.runOnPool_failsOnly hneeds h)

/-- A call that belongs to the owner is refused exactly where someone else signs it. -/
theorem run_eq_notAnOwner_iff (hneeds : signed.call.NeedsOwner)
    (hpool : signed.call.HasPool exchange) :
    signed.run exchange = .error (.rejected .notAnOwner) exchange ↔
      signed.signer ≠ exchange.factory.owner := by
  refine ⟨fun hrefused hsigner ↦ ?_, run_of_ne hneeds hpool⟩
  have hother : signed.run.FailsOnly (· ≠ .rejected .notAnOwner) exchange :=
    run_owner_failsOnly hneeds hpool hsigner fun cause hcause heq ↦
      hcause (Failure.rejected.inj heq)
  exact hother _ _ hrefused rfl

end SignedCall

end

/-! ### What a call does to the factory -/

/-- What a signed call can make of a factory. -/
inductive FactoryChange (factory : Factory) (signed : SignedCall) : Factory → Prop
  | kept : FactoryChange factory signed factory
  | handedOver {newOwner : Owner} (signed_eq : signed = ⟨factory.owner, .setOwner newOwner⟩) :
    FactoryChange factory signed { factory with owner := newOwner }
  | tierEnabled {fee tickSpacing : ℕ} {tier : FeeTier}
    (signed_eq : signed = ⟨factory.owner, .enableTier fee tickSpacing⟩)
    (tier_eq : FeeTier.create fee tickSpacing = .ok tier)
    (new : factory.tiers.get? fee = none) :
    FactoryChange factory signed { factory with tiers := factory.tiers.insert fee tier }

namespace Factory

variable {factory after : Factory} {signer newOwner : Owner} {fee tickSpacing : ℕ}

theorem setOwner_eq_ok {u : Unit} :
    setOwner signer newOwner factory = .ok u after ↔
      signer = factory.owner ∧ { factory with owner := newOwner } = after := by
  unfold setOwner requireOwner
  simp only [Action.bind_eq_ok, Action.get_eq_ok, Action.lift_eq_ok, Action.set_eq_ok,
    require_eq_ok]
  constructor
  · rintro ⟨_, _, ⟨rfl, rfl⟩, _, _, ⟨hsigner, rfl⟩, rfl⟩
    exact ⟨hsigner, rfl⟩
  · rintro ⟨hsigner, rfl⟩
    exact ⟨_, _, ⟨rfl, rfl⟩, (), _, ⟨hsigner, rfl⟩, rfl⟩

theorem enableTier_eq_ok {u : Unit} :
    enableTier signer fee tickSpacing factory = .ok u after ↔
      signer = factory.owner ∧ ∃ tier, FeeTier.create fee tickSpacing = .ok tier ∧
        factory.tiers.get? fee = none ∧
          { factory with tiers := factory.tiers.insert fee tier } = after := by
  unfold enableTier requireOwner
  simp only [Action.bind_eq_ok, Action.get_eq_ok, Action.lift_eq_ok, Action.set_eq_ok,
    require_eq_ok]
  constructor
  · rintro ⟨_, _, ⟨rfl, rfl⟩, _, _, ⟨hsigner, rfl⟩, tier, _, ⟨htier, rfl⟩, _, _, ⟨hnew, rfl⟩, rfl⟩
    exact ⟨hsigner, tier, htier, hnew, rfl⟩
  · rintro ⟨hsigner, tier, htier, hnew, rfl⟩
    exact ⟨_, _, ⟨rfl, rfl⟩, (), _, ⟨hsigner, rfl⟩, tier, _, ⟨htier, rfl⟩, (), _, ⟨hnew, rfl⟩, rfl⟩

/-- Handing over and enabling a tier write the factory last. -/
theorem setOwner_atomic (signer newOwner : Owner) : (setOwner signer newOwner).Atomic := by
  unfold setOwner
  exact .read_bind .get fun _ ↦ .read_bind (.lift _) fun _ _ _ _ h ↦
    absurd h Action.set_ne_error

theorem enableTier_atomic (signer : Owner) (fee tickSpacing : ℕ) :
    (enableTier signer fee tickSpacing).Atomic := by
  unfold enableTier
  exact .read_bind .get fun _ ↦ .read_bind (.lift _) fun _ ↦ .read_bind (.lift _) fun _ ↦
    .read_bind (.lift _) fun _ _ _ _ h ↦ absurd h Action.set_ne_error

end Factory

namespace SignedCall

variable {exchange after : Exchange} {signed : SignedCall} {brought : TokenPair ℤ}
  {failure : Failure}

/-- A call that finishes does one of three things to the factory. -/
theorem factoryChange_of_ok (h : signed.run exchange = .ok brought after) :
    FactoryChange exchange.factory signed after.factory := by
  obtain ⟨signer, call⟩ := signed
  cases call with
  | setOwner newOwner =>
    obtain ⟨_, _, hfirst, hpure⟩ := Action.bind_eq_ok.mp h
    obtain ⟨-, rfl⟩ := Action.pure_eq_ok.mp hpure
    obtain ⟨_, hset, rfl⟩ := Exchange.onFactory_eq_ok.mp hfirst
    obtain ⟨hsigner, rfl⟩ := Factory.setOwner_eq_ok.mp hset
    exact .handedOver (by rw [← hsigner])
  | enableTier fee tickSpacing =>
    obtain ⟨_, _, hfirst, hpure⟩ := Action.bind_eq_ok.mp h
    obtain ⟨-, rfl⟩ := Action.pure_eq_ok.mp hpure
    obtain ⟨_, henable, rfl⟩ := Exchange.onFactory_eq_ok.mp hfirst
    obtain ⟨hsigner, tier, htier, hnew, rfl⟩ := Factory.enableTier_eq_ok.mp henable
    exact .tierEnabled (by rw [← hsigner]) htier hnew
  | createPool fee sqrtPrice =>
    simp only [run, Action.bind_eq_ok, Action.get_eq_ok, Action.lift_eq_ok, Action.set_eq_ok,
      Action.pure_eq_ok] at h
    obtain ⟨_, _, ⟨rfl, rfl⟩, _, _, ⟨-, rfl⟩, _, _, rfl, -, rfl⟩ := h
    exact .kept
  | onPool index call =>
    dsimp only [run] at h
    rw [Exchange.factory_onPool.1 brought h]
    exact .kept

/-- A call that fails leaves the factory as it was. -/
theorem factory_of_error (h : signed.run exchange = .error failure after) :
    after.factory = exchange.factory := by
  obtain ⟨signer, call⟩ := signed
  have hpure : ∀ {action : Action Exchange Unit},
      (do action; return TokenPair.both (0 : ℤ)) exchange = .error failure after →
        action exchange = .error failure after := by
    intro action hfails
    rcases Action.bind_eq_error.mp hfails with hfails | ⟨_, _, -, hpure⟩
    · exact hfails
    · exact absurd hpure Action.pure_ne_error
  cases call with
  | setOwner newOwner =>
    dsimp only [run] at h
    obtain ⟨_, hfails, rfl⟩ := Exchange.onFactory_eq_error.mp (hpure h)
    exact Factory.setOwner_atomic _ _ _ _ _ hfails
  | enableTier fee tickSpacing =>
    dsimp only [run] at h
    obtain ⟨_, hfails, rfl⟩ := Exchange.onFactory_eq_error.mp (hpure h)
    exact Factory.enableTier_atomic _ _ _ _ _ _ hfails
  | createPool fee sqrtPrice =>
    have hatomic : Action.Atomic (SignedCall.run ⟨signer, .createPool fee sqrtPrice⟩) :=
      .read_bind .get fun _ ↦ .read_bind (.lift _) fun _ _ _ _ hfails ↦
        absurd hfails (Action.bind_ne_error (fun _ _ _ ↦ Action.set_ne_error)
          (fun _ _ _ _ ↦ Action.pure_ne_error) _ _ _)
    rw [hatomic _ _ _ h]
  | onPool index call =>
    dsimp only [run] at h
    exact Exchange.factory_onPool.2 failure h

end SignedCall

namespace Exchange

theorem factoryChange_enter (exchange : Exchange) (signed : SignedCall) :
    FactoryChange exchange.factory signed (exchange.enter signed).factory := by
  unfold enter
  cases hrun : signed.run exchange with
  | ok brought after => exact SignedCall.factoryChange_of_ok hrun
  | error failure after =>
    dsimp only
    rw [SignedCall.factory_of_error hrun]
    exact .kept

/-- What a factory starts with and every change keeps holds along a run. -/
theorem enterAll_of_kept {property : Factory → Prop}
    (hkept : ∀ {before after : Factory} {signed : SignedCall}, FactoryChange before signed after →
      property before → property after) {exchange : Exchange} (h : property exchange.factory)
    (calls : List SignedCall) : property (exchange.enterAll calls).factory := by
  induction calls generalizing exchange with
  | nil => exact h
  | cons signed calls ih => exact ih (hkept (exchange.factoryChange_enter signed) h)

end Exchange

/-! ### Tiers -/

namespace Factory

variable {before after : Factory} {signed : SignedCall}

/-- Whether every tier of a factory is still a tier of another, with the same tick spacing. -/
def KeepsTiers (before after : Factory) : Prop :=
  ∀ fee tier, before.tiers.get? fee = some tier → after.tiers.get? fee = some tier

/-- Whether every tier of a factory is kept under its own rate and has passed the check. -/
def TiersAllowed (factory : Factory) : Prop :=
  ∀ fee tier, factory.tiers.get? fee = some tier →
    tier.fee = fee ∧ FeeTier.create tier.fee tier.tickSpacing = .ok tier

/-- A tier that is enabled has not been there before. -/
theorem keepsTiers_of_change (h : FactoryChange before signed after) : before.KeepsTiers after := by
  cases h with
  | kept => exact fun _ _ htier ↦ htier
  | handedOver => exact fun _ _ htier ↦ htier
  | @tierEnabled fee _ _ _ _ hnew =>
    intro other tier htier
    have hne : other ≠ fee := by
      rintro rfl
      rw [hnew] at htier
      cases htier
    exact (OrderedMap.get?_insert_of_ne _ _ hne).trans htier

theorem tiersAllowed_of_change (h : FactoryChange before signed after)
    (hallowed : before.TiersAllowed) : after.TiersAllowed := by
  cases h with
  | kept => exact hallowed
  | handedOver => exact hallowed
  | @tierEnabled fee tickSpacing tier _ htier _ =>
    obtain ⟨-, -, rfl⟩ := FeeTier.create_eq_ok.mp htier
    exact OrderedMap.forall_insert hallowed ⟨rfl, htier⟩

/-- The tiers that are enabled from the start have passed the check. -/
theorem tiersAllowed_create (owner : Owner) : (create owner).TiersAllowed := by
  have hnone : ∀ (fee : ℕ) (tier : FeeTier),
      (OrderedMap.empty : OrderedMap ℕ FeeTier).get? fee = some tier →
        tier.fee = fee ∧ FeeTier.create tier.fee tier.tickSpacing = .ok tier :=
    fun _ tier htier ↦ absurd htier (Option.some_ne_none tier).symm
  exact OrderedMap.forall_insert (OrderedMap.forall_insert
    (OrderedMap.forall_insert hnone ⟨rfl, rfl⟩) ⟨rfl, rfl⟩) ⟨rfl, rfl⟩

end Factory

/-! ### Pools that can be opened -/

namespace Pool

variable {pool : Pool} {fee tickSpacing : ℕ} {tier : FeeTier}

/-- Pools of a tier that passed the check can be created. -/
theorem exists_create (h : FeeTier.create fee tickSpacing = .ok tier) :
    ∃ pool, create fee tickSpacing = .ok pool := by
  refine FailsOnly.exists_eq_ok (.bind_of_eq_ok h (.bind ?_ fun _ _ ↦ .pure _))
  obtain ⟨-, ⟨hpos, -⟩, rfl⟩ := FeeTier.create_eq_ok.mp h
  have hspacing : ¬(tickSpacing : ℤ) = 0 := by omega
  exact .ite (fun hzero ↦ absurd hzero hspacing) fun _ ↦ .ok _

theorem settings_of_create (h : create fee tickSpacing = .ok pool) :
    pool.fee = fee ∧ pool.tickSpacing = tickSpacing ∧ ¬pool.IsOpen := by
  obtain ⟨-, -, _, -, rfl⟩ := created_of_create h
  exact ⟨rfl, rfl, fun hopen ↦ hopen rfl⟩

/-- The first price of a pool is taken as soon as it has a tick. -/
theorem setFirstPrice_outcome (hclosed : ¬pool.IsOpen) (price : ℕ) :
    (setFirstPrice price).outcome pool =
      (tickAt price >>= fun tick ↦ .ok ((), { pool with sqrtPrice := price, tick })) := by
  have hrequire : (liftM (require (¬pool.IsOpen) .alreadyInitialized) : Action Pool Unit) pool =
      .ok () pool := Action.lift_eq_ok.mpr ⟨require_eq_ok.mpr hclosed, rfl⟩
  unfold Action.outcome setFirstPrice
  rw [Action.bind_of_eq_ok (Action.get_eq_ok.mpr ⟨rfl, rfl⟩), Action.bind_of_eq_ok hrequire]
  cases htick : tickAt price with
  | ok tick =>
    rw [Action.bind_of_eq_ok (Action.lift_eq_ok.mpr ⟨rfl, rfl⟩)]
    rfl
  | error failure =>
    rw [Action.bind_of_eq_error (Action.lift_eq_error.mpr ⟨rfl, rfl⟩)]
    rfl

end Pool

namespace Factory

variable {factory : Factory} {fee price : ℕ} {tier : FeeTier} {pool : Pool}

/-- Opening a pool of a tier comes down to finding the tick of its first price. -/
theorem createPool_eq (htier : factory.tiers.get? fee = some tier)
    (hcreate : Pool.create tier.fee tier.tickSpacing = .ok pool) (price : ℕ) :
    factory.createPool fee price =
      (tickAt price >>= fun tick ↦ .ok { pool with sqrtPrice := price, tick }) := by
  unfold createPool
  rw [htier, orReject]
  change (Pool.create tier.fee tier.tickSpacing >>= _) = _
  rw [hcreate]
  change ((Pool.setFirstPrice price).outcome pool >>= _) = _
  rw [Pool.setFirstPrice_outcome (Pool.settings_of_create hcreate).2.2]
  cases tickAt price <;> rfl

/-- Of an enabled tier pools can be opened at every price within the bounds. -/
theorem createPool_of_tier (hallowed : factory.TiersAllowed)
    (htier : factory.tiers.get? fee = some tier) (hlow : minSqrtPrice ≤ price)
    (hhigh : price < maxSqrtPrice) :
    ∃ pool, factory.createPool fee price = .ok pool ∧ pool.Reachable ∧ pool.fee = fee ∧
      pool.tickSpacing = tier.tickSpacing ∧ pool.sqrtPrice = price := by
  obtain ⟨rfl, hcheck⟩ := hallowed fee tier htier
  obtain ⟨pool, hcreate⟩ := Pool.exists_create hcheck
  obtain ⟨tick, htick, -⟩ := tickAt_spec hlow hhigh
  have hset : Pool.setFirstPrice price pool = .ok () { pool with sqrtPrice := price, tick } := by
    refine Action.outcome_eq_ok.mp ?_
    rw [Pool.setFirstPrice_outcome (Pool.settings_of_create hcreate).2.2, htick]
    rfl
  have hrun : (Call.setFirstPrice price).run pool =
      .ok (.both 0) { pool with sqrtPrice := price, tick } := Action.bind_of_eq_ok hset
  have hopened := createPool_eq htier hcreate price
  rw [htick] at hopened
  refine ⟨_, hopened, (Pool.Reachable.created hcreate).of_run hrun, ?_, ?_, rfl⟩
  · exact (Pool.settings_of_create hcreate).1
  · exact (Pool.settings_of_create hcreate).2.1

/-- At any other price there is no pool to open. -/
theorem createPool_of_price (hallowed : factory.TiersAllowed)
    (htier : factory.tiers.get? fee = some tier)
    (hprice : ¬(minSqrtPrice ≤ price ∧ price < maxSqrtPrice)) :
    factory.createPool fee price = .error (.rejected .priceOutOfRange) := by
  obtain ⟨rfl, hcheck⟩ := hallowed fee tier htier
  obtain ⟨pool, hcreate⟩ := Pool.exists_create hcheck
  rw [createPool_eq htier hcreate, tickAt_eq]
  rw [require_eq_error.mpr ⟨hprice, rfl⟩]
  rfl

/-- Nor is there one of a tier that is not enabled. -/
theorem createPool_of_none (htier : factory.tiers.get? fee = none) (price : ℕ) :
    factory.createPool fee price = .error (.rejected .feeNotEnabled) := by
  unfold createPool
  rw [htier]
  rfl

end Factory

/-! ### Runs -/

/-- At any moment of a run of signed calls on a new factory and its pools, the calls that belong to
the owner are refused to everybody but the present owner, without a trace, and to him for other
reasons only. Enabled tiers have passed the check and never change. Pools can be opened of exactly
the enabled tiers, at exactly the prices within the bounds. -/
theorem factory_governed (owner : Owner) (calls : List SignedCall) :
    let exchange := (Exchange.start owner).enterAll calls
    let factory := exchange.factory
    (∀ signed : SignedCall, signed.call.NeedsOwner → signed.call.HasPool exchange →
      (signed.run exchange = .error (.rejected .notAnOwner) exchange ↔
        signed.signer ≠ factory.owner)) ∧
    (∀ signed : SignedCall, FactoryChange factory signed (exchange.enter signed).factory) ∧
    (∀ fee tickSpacing, factory.tickSpacing? fee = some tickSpacing →
      (fee < feeDenominator ∧ 0 < tickSpacing ∧ tickSpacing < maxTickSpacing) ∧
      (∀ later, (exchange.enterAll later).factory.tickSpacing? fee = some tickSpacing) ∧
      ∀ price, if minSqrtPrice ≤ price ∧ price < maxSqrtPrice then
          ∃ pool, factory.createPool fee price = .ok pool ∧ pool.Reachable ∧ pool.fee = fee ∧
            pool.tickSpacing = tickSpacing ∧ pool.sqrtPrice = price
        else factory.createPool fee price = .error (.rejected .priceOutOfRange)) ∧
    ∀ fee, factory.tickSpacing? fee = none →
      ∀ price, factory.createPool fee price = .error (.rejected .feeNotEnabled) := by
  intro exchange factory
  have hallowed : factory.TiersAllowed :=
    Exchange.enterAll_of_kept Factory.tiersAllowed_of_change
      (Factory.tiersAllowed_create owner) calls
  refine ⟨fun signed hneeds hpool ↦ SignedCall.run_eq_notAnOwner_iff hneeds hpool,
    exchange.factoryChange_enter, fun fee tickSpacing hspacing ↦ ?_, fun fee hnone price ↦ ?_⟩
  · obtain ⟨tier, htier, rfl⟩ := Option.map_eq_some_iff.mp hspacing
    obtain ⟨rfl, hcheck⟩ := hallowed fee tier htier
    obtain ⟨hfee, hbounds, -⟩ := FeeTier.create_eq_ok.mp hcheck
    refine ⟨⟨hfee, hbounds⟩, fun later ↦ ?_, fun price ↦ ?_⟩
    · have hkept : (exchange.enterAll later).factory.tiers.get? tier.fee = some tier :=
        Exchange.enterAll_of_kept (fun hchange hbefore ↦ Factory.keepsTiers_of_change hchange _ _
          hbefore) htier later
      exact congrArg (Option.map FeeTier.tickSpacing) hkept
    · split
      · rename_i hprice
        exact Factory.createPool_of_tier hallowed htier hprice.1 hprice.2
      · rename_i hprice
        exact Factory.createPool_of_price hallowed htier hprice
  · exact Factory.createPool_of_none (Option.map_eq_none_iff.mp hnone) price

/-- The first owner hands the factory over, and the second one enables a tier, of which a pool is
opened. -/
def handedOver : List SignedCall := [
  ⟨1, .setOwner 2⟩,
  ⟨2, .enableTier 250 15⟩,
  ⟨3, .createPool 250 q96⟩]

/-- Then the first owner can do nothing to the pool any more, and no tick spacing but the first one
is to be had for the tier. -/
theorem factory_governed_handedOver :
    let exchange := (Exchange.start 1).enterAll handedOver
    SignedCall.run ⟨1, .onPool 0 (.setProtocolPart ⟨4, 4⟩)⟩ exchange =
        .error (.rejected .notAnOwner) exchange ∧
      exchange.factory.tickSpacing? 250 = some 15 ∧
      (exchange.enterAll [⟨2, .enableTier 250 30⟩, ⟨2, .setOwner 1⟩]).factory.tickSpacing? 250 =
        some 15 ∧
      (∃ pool, exchange.factory.createPool 250 minSqrtPrice = .ok pool ∧ pool.tickSpacing = 15) ∧
      exchange.factory.createPool 250 maxSqrtPrice = .error (.rejected .priceOutOfRange) ∧
      exchange.factory.createPool 100 q96 = .error (.rejected .feeNotEnabled) := by
  intro exchange
  obtain ⟨hrefused, -, htiers, hnone⟩ := factory_governed 1 handedOver
  have hsigner : (1 : Owner) ≠ exchange.factory.owner := by decide +kernel
  have hpool : 0 < exchange.pools.length := by decide +kernel
  have hspacing : exchange.factory.tickSpacing? 250 = some 15 := by decide +kernel
  obtain ⟨-, hkept, hpools⟩ := htiers 250 15 hspacing
  have hlowest := hpools minSqrtPrice
  have hhighest := hpools maxSqrtPrice
  rw [if_pos ⟨le_rfl, by decide⟩] at hlowest
  rw [if_neg fun hprice ↦ lt_irrefl _ hprice.2] at hhighest
  obtain ⟨pool, hcreate, -, -, hopened, -⟩ := hlowest
  exact ⟨(hrefused ⟨1, .onPool 0 (.setProtocolPart ⟨4, 4⟩)⟩ trivial hpool).mpr hsigner, hspacing,
    hkept _, ⟨pool, hcreate, hopened⟩, hhighest, hnone 100 (by decide +kernel) q96⟩

end RangeBook
