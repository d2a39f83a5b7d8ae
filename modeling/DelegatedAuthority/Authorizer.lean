import DelegatedAuthority.Chain
import DelegatedAuthority.Clock
import DelegatedAuthority.Config
import DelegatedAuthority.Delegation.Checks
import DelegatedAuthority.Revocation
/-!
Decisions on requests. Local checks come first; proofs are resolved only after all of them
have passed, and never for a direct-only ability.
-/
namespace DelegatedAuthority

/-- What a client asks for, and the delegation it presents. -/
structure Request where
  operation : Operation
  resource : Resource
  owner : Principal
  invoker : Principal
  credential : Delegation
  deriving DecidableEq

/-- What was granted, to whom, and whether the direct-only policy decided. -/
structure Grant where
  operation : Operation
  ability : Ability
  resource : Resource
  issuer : Principal
  direct : Bool
  deriving DecidableEq, Repr

def Grant.of (requirement : Requirement) (credential : Delegation) (direct : Bool) : Grant :=
  ⟨requirement.operation, requirement.ability, requirement.resource, credential.issuer, direct⟩

structure Authorizer where
  config : Config
  resolver : Resolver

namespace Authorizer

def requirement (a : Authorizer) (request : Request) : Requirement :=
  a.config.abilities.requirement request.operation request.resource

/-- The checks that need no proof: audience, expiration, capability and invoker. -/
def checkLocal (a : Authorizer) (request : Request) (now : Timestamp) :
    Except AuthorizationError Unit := do
  let requirement := a.requirement request
  request.credential.checkAudience a.config.audience
  request.credential.checkExpiration now
  let _ ← request.credential.checkGrant requirement.ability requirement.resource
  request.credential.checkInvoker request.invoker

/-- The local checks, then the chain of proofs to the owner. -/
def decideDelegated (a : Authorizer) (request : Request) (now : Timestamp) : Decision Unit :=
  match a.checkLocal request now with
  | .error e => ⟨.error e, []⟩
  | .ok () => a.resolver.requireRoot a.config.limits request.owner request.credential

def decideDirect (a : Authorizer) (request : Request) (now : Timestamp) :
    Except AuthorizationError Unit := do
  request.credential.validateErase a.config.audience request.owner (a.requirement request) now
  request.credential.checkInvoker request.invoker

/-- Decides a request under the erase policy, whatever its operation. -/
def authorizeEraseAt (a : Authorizer) (request : Request) (now : Timestamp) : Decision Grant :=
  ⟨(a.decideDirect request now).map fun () =>
    .of (a.requirement request) request.credential true, []⟩

/-- Decides a request as of `now`. A direct-only ability falls under the erase policy. -/
def authorizeAt (a : Authorizer) (request : Request) (now : Timestamp) : Decision Grant :=
  if a.config.isDirectOnly (a.requirement request).ability then
    a.authorizeEraseAt request now
  else
    (a.decideDelegated request now).andThen fun () =>
      .ok (.of (a.requirement request) request.credential false)

/-- A decision that depends on the time, at an instant of the clock. -/
def atInstant (instant : Int) (decide : Timestamp → Decision Grant) : Decision Grant :=
  match timestampAt instant with
  | .error e => ⟨.error e, []⟩
  | .ok now => decide now

def authorize (a : Authorizer) (request : Request) (instant : Int) : Decision Grant :=
  atInstant instant (a.authorizeAt request)

def authorizeErase (a : Authorizer) (request : Request) (instant : Int) : Decision Grant :=
  atInstant instant (a.authorizeEraseAt request)

def authorizeRevocation (a : Authorizer) (revoker : Principal) (target : Delegation) :
    Decision Unit :=
  a.resolver.authorizeRevocation a.config.limits revoker target

def authorizeRevocationOf (a : Authorizer) (revoker : Principal) (target : Cid) :
    Decision Unit :=
  a.resolver.authorizeRevocationOf a.config.limits revoker target

end Authorizer

end DelegatedAuthority
