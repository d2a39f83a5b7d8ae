import DelegatedAuthority.AuthorizationError
import DelegatedAuthority.Delegation
/-!
Checks on a single delegation, without a look at its proofs. Each answers with the first
failure.
-/
namespace DelegatedAuthority.Delegation

def checkAudience (d : Delegation) (expected : Principal) : Except AuthorizationError Unit :=
  if d.audience = expected then .ok () else .error (.wrongAudience expected d.audience)

def checkExpiration (d : Delegation) (now : Timestamp) : Except AuthorizationError Unit :=
  match d.expiration with
  | some last => if isExpired (some last) now then .error (.expired last now) else .ok ()
  | none => .ok ()

/-- Refuses an invoker who is not the issuer. To hold a delegation, or to be its audience, is
not enough to use it. -/
def checkInvoker (d : Delegation) (invoker : Principal) : Except AuthorizationError Unit :=
  if invoker = d.issuer then .ok () else .error (.invocationNotAuthorized invoker d.issuer)

/-- The resource of the last capability that lists an ability exactly. -/
def listedResource? (d : Delegation) (ability : Ability) : Option Resource :=
  d.capabilities.foldl (fun found c => if c.ability = ability then some c.resource else found)
    none

/-- Refuses the first of the required abilities that is not listed, or that is listed last
for another resource. -/
def checkListed (d : Delegation) (resource : Resource) :
    List Ability → Except AuthorizationError Unit
  | [] => .ok ()
  | ability :: rest =>
    match d.listedResource? ability with
    | none => .error (.missingCapability ability)
    | some listed =>
      if listed = resource then d.checkListed resource rest
      else .error (.wrongResource ability resource listed)

/-- Checks the audience, the expiration, and that every required ability is listed over the
resource. Abilities are compared exactly. -/
def validateListed (d : Delegation) (audience : Principal) (resource : Resource)
    (required : List Ability) (now : Timestamp) : Except AuthorizationError Unit := do
  d.checkAudience audience
  d.checkExpiration now
  d.checkListed resource required

/-- The resource of a first capability, if all the others share it. -/
def sharedResource (first : Resource) : List Capability → Except AuthorizationError Resource
  | [] => .ok first
  | c :: rest =>
    if c.resource = first then sharedResource first rest
    else .error (.mismatchedResources first c.resource)

/-- The single resource that all capabilities name. -/
def commonResource (d : Delegation) : Except AuthorizationError Resource :=
  match d.capabilities with
  | [] => .error .noCapabilities
  | c :: rest => sharedResource c.resource rest

/-- The first capability of a list that allows an ability over a resource. `elsewhere` is the
resource of an earlier one that allows the ability over that resource only. -/
def findGrant (ability : Ability) (resource : Resource) :
    Option Resource → List Capability → Except AuthorizationError Capability
  | some other, [] => .error (.wrongResource ability resource other)
  | none, [] => .error (.missingCapability ability)
  | elsewhere, c :: rest =>
    if c.allows ability resource then .ok c
    else
      let elsewhere :=
        if elsewhere.isNone && c.ability.allows ability then some c.resource else elsewhere
      findGrant ability resource elsewhere rest

def checkGrant (d : Delegation) (ability : Ability) (resource : Resource) :
    Except AuthorizationError Capability :=
  findGrant ability resource none d.capabilities

/-- Refuses a delegation that the owner did not issue itself, or that rests on proofs. -/
def checkDirect (d : Delegation) (owner : Principal) : Except AuthorizationError Unit :=
  if d.issuer = owner then
    if d.proofs.isEmpty then .ok () else .error (.erasedThroughProofs d.proofs.length)
  else .error (.erasedByOther d.issuer owner)

def checkListsExactly (d : Delegation) (ability : Ability) (resource : Resource) :
    Except AuthorizationError Unit :=
  if d.capabilities.contains ⟨ability, resource⟩ then .ok ()
  else .error (.missingCapability ability)

/-- Checks a delegation for an erasure: the audience, the expiration, that the owner issued it
with no proofs, and that it lists exactly what is required. -/
def validateErase (d : Delegation) (audience owner : Principal) (requirement : Requirement)
    (now : Timestamp) : Except AuthorizationError Unit := do
  d.checkAudience audience
  d.checkExpiration now
  d.checkDirect owner
  d.checkListsExactly requirement.ability requirement.resource

end DelegatedAuthority.Delegation
