import DelegatedAuthority.Authorizer
import DelegatedAuthority.Proofs.Chains
import DelegatedAuthority.Proofs.Checks
/-!
Grants and what justifies them.

The two policies are opened here once, into the conditions under which each grants. What a
grant vouches for is then read off those conditions.
-/
namespace DelegatedAuthority

namespace Authorizer

variable {a : Authorizer} {request : Request} {now : Timestamp} {grant : Grant}

theorem checkLocal_ok_iff : a.checkLocal request now = .ok () ↔
    request.credential.audience = a.config.audience ∧
      isExpired request.credential.expiration now = false ∧
      (∃ c ∈ request.credential.capabilities,
        c.allows (a.requirement request).ability request.resource = true) ∧
      request.invoker = request.credential.issuer := by
  unfold checkLocal
  rw [check_bind_eq_ok_iff, check_bind_eq_ok_iff, bind_eq_ok_iff, exists_and_right,
    Delegation.checkAudience_ok_iff, Delegation.checkExpiration_ok_iff,
    Delegation.checkGrant_ok_exists, Delegation.checkInvoker_ok_iff]
  rfl

theorem decideDelegated_ok_iff : (a.decideDelegated request now).verdict = .ok () ↔
    a.checkLocal request now = .ok () ∧
      (a.resolver.requireRoot a.config.limits request.owner request.credential).verdict =
        .ok () := by
  unfold decideDelegated
  cases a.checkLocal request now with
  | error e => simp
  | ok passed => simp

theorem decideDirect_ok_iff : a.decideDirect request now = .ok () ↔
    request.credential.validateErase a.config.audience request.owner (a.requirement request)
      now = .ok () ∧ request.invoker = request.credential.issuer := by
  rw [decideDirect, check_bind_eq_ok_iff, Delegation.checkInvoker_ok_iff]

theorem authorizeEraseAt_ok_iff : (a.authorizeEraseAt request now).verdict = .ok grant ↔
    a.decideDirect request now = .ok () ∧
      grant = .of (a.requirement request) request.credential true := by
  unfold authorizeEraseAt
  cases a.decideDirect request now with
  | error e => simp [Except.map]
  | ok passed => simp [Except.map, eq_comm]

theorem authorizeAt_ok_iff : (a.authorizeAt request now).verdict = .ok grant ↔
    (a.config.isDirectOnly (a.requirement request).ability = true ∧
      (a.authorizeEraseAt request now).verdict = .ok grant) ∨
    (a.config.isDirectOnly (a.requirement request).ability = false ∧
      (a.decideDelegated request now).verdict = .ok () ∧
      grant = .of (a.requirement request) request.credential false) := by
  unfold authorizeAt
  cases direct : a.config.isDirectOnly (a.requirement request).ability with
  | true => simp
  | false =>
    cases verdict : (a.decideDelegated request now).verdict with
    | error e => simp [Decision.andThen, verdict, Except.bind]
    | ok passed => simp [Decision.andThen, verdict, Except.bind, eq_comm]

theorem authorizeAt_of_isDirectOnly
    (direct : a.config.isDirectOnly (a.requirement request).ability = true) :
    a.authorizeAt request now = a.authorizeEraseAt request now :=
  if_pos direct

theorem authorizeAt_of_not_isDirectOnly
    (policy : a.config.isDirectOnly (a.requirement request).ability = false) :
    a.authorizeAt request now = (a.decideDelegated request now).andThen fun () =>
      .ok (.of (a.requirement request) request.credential false) :=
  if_neg (Bool.eq_false_iff.mp policy)

theorem authorizeAt_eq_error {e : AuthorizationError}
    (policy : a.config.isDirectOnly (a.requirement request).ability = false)
    (failed : a.checkLocal request now = .error e) :
    a.authorizeAt request now = ⟨.error e, []⟩ := by
  rw [authorizeAt_of_not_isDirectOnly policy, decideDelegated, failed]
  rfl

/-- Once the local checks have passed, the decision rests with the chain to the owner. -/
theorem authorizeAt_eq_requireRoot
    (policy : a.config.isDirectOnly (a.requirement request).ability = false)
    (passed : a.checkLocal request now = .ok ()) : a.authorizeAt request now =
      (a.resolver.requireRoot a.config.limits request.owner request.credential).andThen fun () =>
        .ok (.of (a.requirement request) request.credential false) := by
  rw [authorizeAt_of_not_isDirectOnly policy, decideDelegated, passed]

/-- Another resolver makes no other decision, unless it is asked for the chain to the owner. -/
theorem authorizeAt_congr {other : Resolver}
    (same : a.config.isDirectOnly (a.requirement request).ability = false →
      a.checkLocal request now = .ok () →
      other.requireRoot a.config.limits request.owner request.credential =
        a.resolver.requireRoot a.config.limits request.owner request.credential) :
    authorizeAt { a with resolver := other } request now = a.authorizeAt request now := by
  cases policy : a.config.isDirectOnly (a.requirement request).ability with
  | true =>
    rw [authorizeAt_of_isDirectOnly policy]
    exact authorizeAt_of_isDirectOnly (a := { a with resolver := other }) policy
  | false =>
    cases passed : a.checkLocal request now with
    | error e =>
      rw [authorizeAt_eq_error policy passed]
      exact authorizeAt_eq_error (a := { a with resolver := other }) policy passed
    | ok _ =>
      rw [authorizeAt_eq_requireRoot policy passed, ← same policy passed]
      exact authorizeAt_eq_requireRoot (a := { a with resolver := other }) policy passed

/-- What a credential is that the erase policy grants to. -/
theorem firsthand_of_erase (h : (a.authorizeEraseAt request now).verdict = .ok grant) :
    request.credential.issuer = request.owner ∧ request.owner = request.invoker ∧
      request.credential.proofs = [] ∧
      ⟨a.config.abilities.required request.operation, request.resource⟩ ∈
        request.credential.capabilities := by
  obtain ⟨decided, _⟩ := authorizeEraseAt_ok_iff.mp h
  obtain ⟨valid, invoker⟩ := decideDirect_ok_iff.mp decided
  obtain ⟨_, _, ⟨owner, proofs⟩, listed⟩ := Delegation.validateErase_ok_iff.mp valid
  exact ⟨owner, owner.symm.trans invoker.symm, proofs, listed⟩

end Authorizer

/-- A grant that tells what was asked for and by whom, to a credential that is addressed to
the service, not expired, and issued by the invoker. -/
structure Grant.Fits (grant : Grant) (a : Authorizer) (request : Request) (now : Timestamp) :
    Prop where
  operation : grant.operation = request.operation
  resource : grant.resource = request.resource
  ability : grant.ability =
    (a.config.abilities.get? request.operation).getD Ability.wildcard
  issuer : grant.issuer = request.invoker
  invoker : request.invoker = request.credential.issuer
  direct : grant.direct = a.config.isDirectOnly grant.ability
  audience : request.credential.audience = a.config.audience
  unexpired : ∀ last, request.credential.expiration = some last → now ≤ last

/-- All that a grant vouches for. Under the delegated policy the ability may be held through a
broader one and the authority through a chain, under the direct one neither. -/
structure Grant.Justified (grant : Grant) (a : Authorizer) (request : Request)
    (now : Timestamp) : Prop extends Grant.Fits grant a request now where
  delegated : grant.direct = false →
    (∃ c ∈ request.credential.capabilities,
      c.resource = request.resource ∧ c.ability.allows grant.ability = true) ∧
    ∃ n ≤ a.config.limits.maxDepth.toNat, ∃ last,
      a.resolver.Chain request.credential n last ∧ last.issuer = request.owner
  firsthand : grant.direct = true →
    request.credential.issuer = request.owner ∧ request.credential.proofs = [] ∧
      ⟨grant.ability, request.resource⟩ ∈ request.credential.capabilities

namespace Authorizer

variable {a : Authorizer} {request : Request} {now : Timestamp} {grant : Grant}

theorem fits_of {direct : Bool}
    (policy : a.config.isDirectOnly (a.requirement request).ability = direct)
    (invoker : request.invoker = request.credential.issuer)
    (audience : request.credential.audience = a.config.audience)
    (current : isExpired request.credential.expiration now = false) :
    (Grant.of (a.requirement request) request.credential direct).Fits a request now where
  operation := rfl
  resource := rfl
  ability := rfl
  issuer := invoker.symm
  invoker := invoker
  direct := policy.symm
  audience := audience
  unexpired := isExpired_eq_false_iff.mp current

theorem justified_of_direct (policy : a.config.isDirectOnly (a.requirement request).ability = true)
    (decided : a.decideDirect request now = .ok ()) :
    (Grant.of (a.requirement request) request.credential true).Justified a request now := by
  obtain ⟨valid, invoker⟩ := decideDirect_ok_iff.mp decided
  obtain ⟨audience, current, ⟨owner, proofs⟩, listed⟩ := Delegation.validateErase_ok_iff.mp valid
  refine ⟨fits_of policy invoker audience current, nofun, ?_⟩
  intro _
  exact ⟨owner, proofs, listed⟩

theorem justified_of_delegated
    (policy : a.config.isDirectOnly (a.requirement request).ability = false)
    (decided : (a.decideDelegated request now).verdict = .ok ()) :
    (Grant.of (a.requirement request) request.credential false).Justified a request now := by
  obtain ⟨passed, root⟩ := decideDelegated_ok_iff.mp decided
  obtain ⟨audience, current, ⟨c, listed, allowed⟩, invoker⟩ := checkLocal_ok_iff.mp passed
  obtain ⟨resource, ability⟩ := Capability.allows_iff.mp allowed
  refine ⟨fits_of policy invoker audience current, ?_, nofun⟩
  intro _
  exact ⟨⟨c, listed, resource, ability⟩, Resolver.chain_of_requireRoot root⟩

/-- Every grant is justified, whichever policy decided. -/
theorem authorizeAt_justified (h : (a.authorizeAt request now).verdict = .ok grant) :
    grant.Justified a request now := by
  rcases authorizeAt_ok_iff.mp h with ⟨policy, erased⟩ | ⟨policy, decided, rfl⟩
  · obtain ⟨decided, rfl⟩ := authorizeEraseAt_ok_iff.mp erased
    exact justified_of_direct policy decided
  · exact justified_of_delegated policy decided

def agentProof : Cid := .v1 Cid.dagCbor ⟨Cid.sha256, [], by decide⟩

/-- Knows of one delegation, from an owner to an agent. -/
def agentService : Authorizer where
  config := { audience := "did:service" }
  resolver := .ofTable [(agentProof, { issuer := "did:owner", audience := "did:agent" })]

/-- The agent asks to append, in the last second of its credential. -/
def agentRequest : Request where
  operation := Operation.append
  resource := "tlog:1"
  owner := "did:owner"
  invoker := "did:agent"
  credential := {
    issuer := "did:agent"
    audience := "did:service"
    expiration := some 10
    capabilities := [⟨"tlog", "tlog:1"⟩]
    proofs := [agentProof] }

def agentGrant : Grant := ⟨Operation.append, Ability.append, "tlog:1", "did:agent", false⟩

theorem agentGrant_justified :
    (agentService.authorizeAt agentRequest 10).verdict = .ok agentGrant ∧
      agentGrant.Justified agentService agentRequest 10 :=
  have granted : (agentService.authorizeAt agentRequest 10).verdict = .ok agentGrant := by rfl
  ⟨granted, authorizeAt_justified granted⟩

end Authorizer

end DelegatedAuthority
