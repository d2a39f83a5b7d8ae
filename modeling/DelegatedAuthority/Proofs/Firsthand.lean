import DelegatedAuthority.Proofs.Authority
import DelegatedAuthority.Proofs.Validation
/-!
Credentials that the owner uses itself, and what the two policies make of them.

The erase policy asks for the very ability and for no proofs, the delegated one for an ability
that allows it and for a chain to the owner. Where the owner issued the credential the chain is
there from the start, so the policies could only disagree on an ability that does not allow
itself. That is the empty one, and no table that validates requires it.
-/
namespace DelegatedAuthority

/-- A request of the owner itself: on a credential of its own that is addressed to the audience,
has not expired, rests on no proofs, and lists what is required among whatever else. -/
structure Request.Firsthand (request : Request) (config : Config) (now : Timestamp) : Prop where
  invoker : request.invoker = request.owner
  issuer : request.credential.issuer = request.owner
  audience : request.credential.audience = config.audience
  unexpired : ∀ last, request.credential.expiration = some last → now ≤ last
  proofs : request.credential.proofs = []
  listed : ⟨config.abilities.required request.operation, request.resource⟩ ∈
    request.credential.capabilities

namespace Authorizer

variable {a : Authorizer} {request : Request} {now : Timestamp} {grant : Grant}

theorem decideDirect_of_firsthand (h : request.Firsthand a.config now) :
    a.decideDirect request now = .ok () := by
  apply decideDirect_ok_iff.mpr
  constructor
  · apply Delegation.validateErase_ok_iff.mpr
    exact ⟨h.audience, isExpired_eq_false_iff.mpr h.unexpired, ⟨h.issuer, h.proofs⟩, h.listed⟩
  · rw [h.invoker, h.issuer]

theorem authorizeEraseAt_of_direct (decided : a.decideDirect request now = .ok ()) :
    a.authorizeEraseAt request now =
      ⟨.ok (.of (a.requirement request) request.credential true), []⟩ := by
  rw [authorizeEraseAt, decided]
  rfl

/-- The owner's own credential needs no chain, and nothing is resolved to see that. -/
theorem decideDelegated_of_owner (passed : a.checkLocal request now = .ok ())
    (owner : request.credential.issuer = request.owner) :
    a.decideDelegated request now = ⟨.ok (), []⟩ := by
  rw [decideDelegated, passed]
  exact Resolver.requireRoot_of_issuer owner a.config.limits

/-- What passes the erase policy lacks nothing under the other, if some capability allows what is
required. -/
theorem decideDelegated_of_direct (decided : a.decideDirect request now = .ok ())
    (allowed : ∃ c ∈ request.credential.capabilities,
      c.allows (a.requirement request).ability request.resource = true) :
    a.decideDelegated request now = ⟨.ok (), []⟩ := by
  obtain ⟨valid, invoker⟩ := decideDirect_ok_iff.mp decided
  obtain ⟨audience, current, ⟨owner, _⟩, _⟩ := Delegation.validateErase_ok_iff.mp valid
  exact decideDelegated_of_owner (checkLocal_ok_iff.mpr ⟨audience, current, allowed, invoker⟩) owner

theorem authorizeAt_of_direct (decided : a.decideDirect request now = .ok ())
    (allowed : ∃ c ∈ request.credential.capabilities,
      c.allows (a.requirement request).ability request.resource = true) :
    a.authorizeAt request now = ⟨.ok (.of (a.requirement request) request.credential
      (a.config.isDirectOnly (a.requirement request).ability)), []⟩ := by
  cases policy : a.config.isDirectOnly (a.requirement request).ability with
  | true => rw [authorizeAt_of_isDirectOnly policy, authorizeEraseAt_of_direct decided]
  | false =>
    rw [authorizeAt_of_not_isDirectOnly policy, decideDelegated_of_direct decided allowed]
    rfl

/-- Every configuration that validates can be used for every operation: what the owner asks for
first-hand is granted under either policy, with the ability of the table, whatever the limits
are and whatever could be resolved. -/
theorem validated_usable (config : Config)
    (valid : config.validate = .ok () ∨ ∃ text, Config.load text = .ok config) (limits : Limits)
    (resolver : Resolver) (request : Request) (now : Timestamp)
    (firsthand : request.Firsthand config now) :
    authorizeAt ⟨{ config with limits := limits }, resolver⟩ request now =
      ⟨.ok ⟨request.operation, config.abilities.required request.operation, request.resource,
        request.owner, config.isDirectOnly (config.abilities.required request.operation)⟩, []⟩ ∧
    authorizeEraseAt ⟨{ config with limits := limits }, resolver⟩ request now =
      ⟨.ok ⟨request.operation, config.abilities.required request.operation, request.resource,
        request.owner, true⟩, []⟩ := by
  have validates : config.validate = .ok () := by
    rcases valid with passed | ⟨text, loaded⟩
    · exact passed
    · exact Config.validate_of_load loaded
  obtain ⟨_, table, _⟩ := Config.validate_ok_iff.mp validates
  have allowed := exists_allows_of_listed
    (AbilityTable.required_ne_empty table request.operation) firsthand.listed
  have decided : decideDirect ⟨{ config with limits := limits }, resolver⟩ request now = .ok () :=
    decideDirect_of_firsthand ⟨firsthand.invoker, firsthand.issuer, firsthand.audience,
      firsthand.unexpired, firsthand.proofs, firsthand.listed⟩
  rw [authorizeAt_of_direct decided allowed, authorizeEraseAt_of_direct decided, ← firsthand.issuer]
  exact ⟨rfl, rfl⟩

/-- A configuration that knows no operation and allows for no search. -/
def kiosk : Config where
  audience := "service"
  abilities := .empty
  limits := ⟨0, 0⟩
  directOnly := ["blob"]

/-- The owner asks for something unknown, in the last second of a credential that lists more than
is required. -/
def kioskRequest : Request where
  operation := "paint"
  resource := "wall:1"
  owner := "owner"
  invoker := "owner"
  credential := {
    issuer := "owner"
    audience := "service"
    expiration := some 10
    capabilities := [⟨"", "wall:1"⟩, ⟨Ability.wildcard, "wall:2"⟩, ⟨Ability.wildcard, "wall:1"⟩] }

/-- It is granted, and is not a second later, nor for a resource that is not listed. -/
theorem kiosk_usable :
    Config.load "[\"service\",\x7b\x7d,[0,0],[\"blob\"]]" = .ok kiosk ∧
    kioskRequest.Firsthand kiosk 10 ∧
    authorizeAt ⟨kiosk, .ofTable []⟩ kioskRequest 10 =
      ⟨.ok ⟨"paint", Ability.wildcard, "wall:1", "owner", false⟩, []⟩ ∧
    authorizeEraseAt ⟨kiosk, .ofTable []⟩ kioskRequest 10 =
      ⟨.ok ⟨"paint", Ability.wildcard, "wall:1", "owner", true⟩, []⟩ ∧
    (authorizeAt ⟨kiosk, .ofTable []⟩ kioskRequest 11).verdict = .error (.expired 10 11) ∧
    (authorizeEraseAt ⟨kiosk, .ofTable []⟩ { kioskRequest with resource := "wall:3" } 10).verdict =
      .error (.missingCapability Ability.wildcard) := by
  have loaded : Config.load "[\"service\",\x7b\x7d,[0,0],[\"blob\"]]" = .ok kiosk := by
    decide +kernel
  have firsthand : kioskRequest.Firsthand kiosk 10 :=
    ⟨rfl, rfl, rfl, isExpired_eq_false_iff.mp rfl, rfl, by decide⟩
  obtain ⟨granted, erased⟩ :=
    validated_usable kiosk (.inr ⟨_, loaded⟩) ⟨0, 0⟩ (.ofTable []) kioskRequest 10 firsthand
  exact ⟨loaded, firsthand, granted, erased, by decide +kernel, by decide +kernel⟩

theorem authorizeAt_of_erase
    (nonempty : a.config.abilities.required request.operation ≠ "")
    (erased : (a.authorizeEraseAt request now).verdict = .ok grant) :
    a.authorizeAt request now =
        ⟨.ok { grant with direct := a.config.isDirectOnly grant.ability }, []⟩ ∧
      a.decideDelegated request now = ⟨.ok (), []⟩ := by
  obtain ⟨decided, rfl⟩ := authorizeEraseAt_ok_iff.mp erased
  obtain ⟨_, _, _, listed⟩ := firsthand_of_erase erased
  have allowed := exists_allows_of_listed nonempty listed
  exact ⟨authorizeAt_of_direct decided allowed, decideDelegated_of_direct decided allowed⟩

/-- The empty ability does not allow itself, so to list it is enough for an erasure only. -/
theorem authorizeAt_of_erase_empty (empty : (a.requirement request).ability = "")
    (erased : (a.authorizeEraseAt request now).verdict = .ok grant) :
    (∃ grant', (a.authorizeAt request now).verdict = .ok grant') ↔
      a.config.isDirectOnly "" = true ∨
        ⟨Ability.wildcard, request.resource⟩ ∈ request.credential.capabilities := by
  constructor
  · rintro ⟨grant', granted⟩
    rcases authorizeAt_ok_iff.mp granted with ⟨policy, _⟩ | ⟨_, decided, _⟩
    · left
      rwa [empty] at policy
    · right
      obtain ⟨passed, _⟩ := decideDelegated_ok_iff.mp decided
      obtain ⟨_, _, allowed, _⟩ := checkLocal_ok_iff.mp passed
      rw [empty] at allowed
      exact exists_allows_empty_iff.mp allowed
  · rintro (policy | wildcard)
    · rw [← empty] at policy
      exact ⟨grant, authorizeAt_ok_iff.mpr (.inl ⟨policy, erased⟩)⟩
    · obtain ⟨decided, _⟩ := authorizeEraseAt_ok_iff.mp erased
      have allowed := exists_allows_empty_iff.mpr wildcard
      rw [← empty] at allowed
      exact ⟨_, congrArg Decision.verdict (authorizeAt_of_direct decided allowed)⟩

/-- The owner's request on a credential that rests on a proof it does not need. -/
def burdened (a : Authorizer) (operation : Operation) (resource : Resource) (owner : Principal) :
    Request where
  operation := operation
  resource := resource
  owner := owner
  invoker := owner
  credential := {
    issuer := owner
    audience := a.config.audience
    capabilities := [⟨a.config.abilities.required operation, resource⟩]
    proofs := [agentProof] }

theorem authorizeAt_burdened {operation : Operation} {resource : Resource} {owner : Principal}
    (nonempty : a.config.abilities.required operation ≠ "")
    (policy : a.config.isDirectOnly (a.config.abilities.required operation) = false) :
    ∃ grant, (a.authorizeAt (a.burdened operation resource owner) now).verdict = .ok grant := by
  have passed : a.checkLocal (a.burdened operation resource owner) now = .ok () :=
    checkLocal_ok_iff.mpr
      ⟨rfl, rfl, exists_allows_of_listed nonempty (List.mem_singleton_self _), rfl⟩
  have decided : (a.decideDelegated (a.burdened operation resource owner) now).verdict = .ok () :=
    congrArg Decision.verdict (decideDelegated_of_owner passed rfl)
  exact ⟨_, authorizeAt_ok_iff.mpr (.inr ⟨policy, decided, rfl⟩)⟩

theorem authorizeEraseAt_burdened {operation : Operation} {resource : Resource}
    {owner : Principal} :
    (a.authorizeEraseAt (a.burdened operation resource owner) now).verdict ≠ .ok grant := by
  intro erased
  obtain ⟨_, _, proofs, _⟩ := firsthand_of_erase erased
  cases proofs

/-- The erase policy is strictly tighter than the delegated one. What it grants is granted just so
under the other, but for the word on which policy decided, and the delegated checks pass without
any resolution. That the table validates matters for the empty ability only: where that is
required, the wildcard has to be listed as well, or the ability be direct-only. And whatever is
not direct-only the owner can have on a credential that the erase policy refuses. -/
theorem erase_tighter (a : Authorizer) :
    (∀ request now grant,
      a.config.abilities.validate = .ok () ∨ a.config.abilities.required request.operation ≠ "" →
      (a.authorizeEraseAt request now).verdict = .ok grant →
      a.authorizeAt request now =
          ⟨.ok { grant with direct := a.config.isDirectOnly grant.ability }, []⟩ ∧
        a.decideDelegated request now = ⟨.ok (), []⟩) ∧
    (∀ request now grant, a.config.abilities.required request.operation = "" →
      (a.authorizeEraseAt request now).verdict = .ok grant →
      ((∃ grant', (a.authorizeAt request now).verdict = .ok grant') ↔
        a.config.isDirectOnly "" = true ∨
          ⟨Ability.wildcard, request.resource⟩ ∈ request.credential.capabilities)) ∧
    (∀ operation resource owner now, a.config.abilities.required operation ≠ "" →
      a.config.isDirectOnly (a.config.abilities.required operation) = false →
      ∃ request : Request, request.operation = operation ∧ request.resource = resource ∧
        request.owner = owner ∧ (∃ grant, (a.authorizeAt request now).verdict = .ok grant) ∧
        ∀ grant, (a.authorizeEraseAt request now).verdict ≠ .ok grant) := by
  refine ⟨?_, ?_, ?_⟩
  · intro request now grant usable erased
    have nonempty : a.config.abilities.required request.operation ≠ "" := by
      rcases usable with valid | nonempty
      · exact AbilityTable.required_ne_empty valid request.operation
      · exact nonempty
    exact authorizeAt_of_erase nonempty erased
  · intro request now grant empty erased
    exact authorizeAt_of_erase_empty empty erased
  · intro operation resource owner now nonempty policy
    refine ⟨a.burdened operation resource owner, rfl, rfl, rfl, ?_, ?_⟩
    · exact authorizeAt_burdened nonempty policy
    · intro grant
      exact authorizeEraseAt_burdened

def kioskService : Authorizer := ⟨kiosk, .ofTable []⟩

def kioskErasure : Grant := ⟨"paint", Ability.wildcard, "wall:1", "owner", true⟩

/-- Requires the empty ability of one operation. -/
def hollow : Authorizer where
  config := { audience := "service", abilities := .ofList [("shrug", "")] }
  resolver := .ofTable []

/-- The owner asks for what it lists exactly, and lists nothing that allows it. -/
def shrugRequest : Request where
  operation := "shrug"
  resource := "wall:1"
  owner := "owner"
  invoker := "owner"
  credential := {
    issuer := "owner"
    audience := "service"
    capabilities := [⟨Ability.wildcard, "wall:2"⟩, ⟨"", "wall:1"⟩] }

theorem kiosk_tighter :
    (kioskService.authorizeEraseAt kioskRequest 10).verdict = .ok kioskErasure ∧
    kioskService.authorizeAt kioskRequest 10 = ⟨.ok { kioskErasure with direct := false }, []⟩ ∧
    kioskService.decideDelegated kioskRequest 10 = ⟨.ok (), []⟩ ∧
    (hollow.authorizeEraseAt shrugRequest 10).verdict =
      .ok ⟨"shrug", "", "wall:1", "owner", true⟩ ∧
    (∀ grant, (hollow.authorizeAt shrugRequest 10).verdict ≠ .ok grant) ∧
    ∃ request : Request, request.operation = "paint" ∧
      (∃ grant, (kioskService.authorizeAt request 10).verdict = .ok grant) ∧
      ∀ grant, (kioskService.authorizeEraseAt request 10).verdict ≠ .ok grant := by
  obtain ⟨tighter, _, strictly⟩ := erase_tighter kioskService
  obtain ⟨_, hollows, _⟩ := erase_tighter hollow
  have erased : (kioskService.authorizeEraseAt kioskRequest 10).verdict = .ok kioskErasure := by
    decide +kernel
  have shrugged : (hollow.authorizeEraseAt shrugRequest 10).verdict =
      .ok ⟨"shrug", "", "wall:1", "owner", true⟩ := by decide +kernel
  obtain ⟨granted, delegated⟩ := tighter kioskRequest 10 kioskErasure (.inl rfl) erased
  obtain ⟨request, operation, _, _, had, refused⟩ :=
    strictly "paint" "wall:1" "owner" 10 (by decide) (by decide)
  refine ⟨erased, granted, delegated, shrugged, ?_, request, operation, had, refused⟩
  intro grant granted
  have either := (hollows shrugRequest 10 _ (by decide +kernel) shrugged).mp ⟨grant, granted⟩
  revert either
  decide +kernel

end Authorizer

end DelegatedAuthority
