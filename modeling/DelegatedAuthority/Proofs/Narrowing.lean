import DelegatedAuthority.Proofs.DirectOnly
import DelegatedAuthority.Proofs.Views
/-!
Requests for less, and credentials that list more.

Neither loses a grant of the delegated policy. Whatever capability it rested on still allows what
is required, since the order of abilities is transitive, though another one may now be found
first; and the search for the owner sees nothing of operations or capabilities.
-/
namespace DelegatedAuthority

/-- A capability that allows a broader ability allows what it falls over the same resource. -/
theorem exists_allows_of_narrower {cs : List Capability} {ability ability' : Ability}
    {resource : Resource} (narrower : ability.allows ability' = true)
    (h : ∃ c ∈ cs, c.allows ability resource = true) :
    ∃ c ∈ cs, c.allows ability' resource = true := by
  obtain ⟨c, listed, allows⟩ := h
  obtain ⟨same, broad⟩ := Capability.allows_iff.mp allows
  exact ⟨c, listed, Capability.allows_iff.mpr ⟨same, Ability.allows_trans broad narrower⟩⟩

/-- A listed ability that is replaced by a broader one allows no less. -/
theorem exists_allows_of_broader {before after : List Capability} {c : Capability}
    {broader ability : Ability} {resource : Resource} (broad : broader.allows c.ability = true)
    (h : ∃ c' ∈ before ++ c :: after, c'.allows ability resource = true) :
    ∃ c' ∈ before ++ { c with ability := broader } :: after,
      c'.allows ability resource = true := by
  obtain ⟨c', listed, allows⟩ := h
  rcases List.mem_append.mp listed with earlier | here
  · exact ⟨c', List.mem_append_left _ earlier, allows⟩
  · rcases List.mem_cons.mp here with rfl | later
    · obtain ⟨same, narrow⟩ := Capability.allows_iff.mp allows
      have allows' : ({ c' with ability := broader } : Capability).allows ability resource = true :=
        Capability.allows_iff.mpr ⟨same, Ability.allows_trans broad narrow⟩
      exact ⟨_, List.mem_append_right _ (List.mem_cons_self ..), allows'⟩
    · exact ⟨c', List.mem_append_right _ (List.mem_cons_of_mem _ later), allows⟩

namespace Authorizer

variable {a : Authorizer} {request : Request} {now : Timestamp} {grant : Grant}

/-- What a grant says of a request that is not direct-only. -/
theorem delegated_of_granted
    (policy : a.config.isDirectOnly (a.requirement request).ability = false)
    (granted : (a.authorizeAt request now).verdict = .ok grant) :
    a.checkLocal request now = .ok () ∧
      (a.resolver.requireRoot a.config.limits request.owner request.credential).verdict =
        .ok () ∧
      grant = .of (a.requirement request) request.credential false := by
  rcases authorizeAt_ok_iff.mp granted with ⟨direct, _⟩ | ⟨_, decided, same⟩
  · rw [policy] at direct
    cases direct
  · obtain ⟨passed, root⟩ := decideDelegated_ok_iff.mp decided
    exact ⟨passed, root, same⟩

/-- A grant carries over to a request that passes the local checks on a credential with the same
place in the chain, if neither is direct-only. -/
theorem authorizeAt_carried (request' : Request)
    (policy : a.config.isDirectOnly (a.requirement request).ability = false)
    (policy' : a.config.isDirectOnly (a.requirement request').ability = false)
    (granted : (a.authorizeAt request now).verdict = .ok grant)
    (owner : request'.owner = request.owner)
    (link : request'.credential.link = request.credential.link)
    (passed' : a.checkLocal request' now = .ok ()) :
    a.authorizeAt request' now =
      ⟨.ok (.of (a.requirement request') request'.credential false),
        (a.authorizeAt request now).resolutions⟩ := by
  obtain ⟨passed, root, _⟩ := delegated_of_granted policy granted
  have same : a.resolver.requireRoot a.config.limits request.owner request'.credential =
      a.resolver.requireRoot a.config.limits request.owner request.credential :=
    Resolver.requireRoot_of_link (fun _ => rfl) link
  rw [authorizeAt_eq_requireRoot policy' passed', authorizeAt_eq_requireRoot policy passed, owner,
    same, Decision.andThen, root]
  rfl

/-- Authorization is monotone in the order of abilities. What an operation is granted for, it is
granted for any that requires less and is not direct-only; and a credential whose listed ability
is replaced by a broader one is granted what it was, if that is not direct-only. The proofs that
are resolved are the same. -/
theorem grants_monotone (a : Authorizer) :
    (∀ request now grant operation, (a.authorizeAt request now).verdict = .ok grant →
      (a.config.abilities.required request.operation).allows
        (a.config.abilities.required operation) = true →
      a.config.isDirectOnly (a.config.abilities.required operation) = false →
      a.authorizeAt { request with operation := operation } now =
        ⟨.ok { grant with
            operation := operation, ability := a.config.abilities.required operation },
          (a.authorizeAt request now).resolutions⟩) ∧
    (∀ request now grant before c after broader,
      (a.authorizeAt request now).verdict = .ok grant →
      a.config.isDirectOnly (a.config.abilities.required request.operation) = false →
      request.credential.capabilities = before ++ c :: after →
      broader.allows c.ability = true →
      a.authorizeAt { request with credential := { request.credential with
          capabilities := before ++ { c with ability := broader } :: after } } now =
        a.authorizeAt request now) := by
  constructor
  · intro request now grant operation granted narrower policy'
    have policy : a.config.isDirectOnly (a.requirement request).ability = false := by
      cases direct : a.config.isDirectOnly (a.requirement request).ability with
      | false => rfl
      | true =>
        rw [Config.isDirectOnly_of_allows direct narrower] at policy'
        cases policy'
    obtain ⟨passed, _, rfl⟩ := delegated_of_granted policy granted
    obtain ⟨audience, current, allowed, invoker⟩ := checkLocal_ok_iff.mp passed
    have passed' : a.checkLocal { request with operation := operation } now = .ok () :=
      checkLocal_ok_iff.mpr
        ⟨audience, current, exists_allows_of_narrower narrower allowed, invoker⟩
    exact authorizeAt_carried { request with operation := operation } policy policy' granted rfl rfl
      passed'
  · intro request now grant before c after broader granted policy listed broad
    obtain ⟨passed, _, rfl⟩ := delegated_of_granted policy granted
    obtain ⟨audience, current, allowed, invoker⟩ := checkLocal_ok_iff.mp passed
    rw [listed] at allowed
    let credential : Delegation := { request.credential with
      capabilities := before ++ { c with ability := broader } :: after }
    have passed' : a.checkLocal { request with credential := credential } now = .ok () :=
      checkLocal_ok_iff.mpr ⟨audience, current, exists_allows_of_broader broad allowed, invoker⟩
    calc a.authorizeAt { request with credential := credential } now
        = ⟨.ok (.of (a.requirement request) request.credential false),
            (a.authorizeAt request now).resolutions⟩ :=
          authorizeAt_carried { request with credential := credential } policy policy granted rfl
            rfl passed'
      _ = a.authorizeAt request now := by rw [← granted]

/-- A service of an archive, where the agent may do more than it asks for. -/
def archive : Authorizer where
  config := {
    audience := "did:service"
    abilities := .ofList [("manage", "tlog"), ("rotate", "tlog/admin/rotate"),
      (Operation.erase, Ability.blobRemove)] }
  resolver := agentService.resolver

/-- The agent lists the ability it needs twice, the first time for another resource. -/
def archiveRequest : Request := { agentRequest with
  operation := "manage"
  credential := { agentRequest.credential with
    capabilities := [⟨"tlog", "tlog:2"⟩, ⟨"tlog", "tlog:1"⟩] } }

/-- What requires a narrower ability is granted as well, and so it is for a broader one that is
listed. What requires a broader ability is not, nor is it for a narrower one that is listed. -/
theorem archive_monotone :
    (archive.authorizeAt archiveRequest 10).verdict =
      .ok ⟨"manage", "tlog", "tlog:1", "did:agent", false⟩ ∧
    archive.authorizeAt { archiveRequest with operation := "rotate" } 10 =
      ⟨.ok ⟨"rotate", "tlog/admin/rotate", "tlog:1", "did:agent", false⟩,
        (archive.authorizeAt archiveRequest 10).resolutions⟩ ∧
    archive.authorizeAt { archiveRequest with credential := { archiveRequest.credential with
        capabilities := [⟨"tlog", "tlog:2"⟩, ⟨Ability.wildcard, "tlog:1"⟩] } } 10 =
      archive.authorizeAt archiveRequest 10 ∧
    (archive.authorizeAt { archiveRequest with operation := "paint" } 10).verdict =
      .error (.missingCapability Ability.wildcard) ∧
    (archive.authorizeAt { archiveRequest with credential := { archiveRequest.credential with
        capabilities := [⟨"tlog", "tlog:2"⟩, ⟨"tlog/log", "tlog:1"⟩] } } 10).verdict =
      .error (.wrongResource "tlog" "tlog:1" "tlog:2") := by
  obtain ⟨narrower, broader⟩ := grants_monotone archive
  have granted : (archive.authorizeAt archiveRequest 10).verdict =
      .ok ⟨"manage", "tlog", "tlog:1", "did:agent", false⟩ := by decide +kernel
  refine ⟨granted, ?_, ?_, by decide +kernel, by decide +kernel⟩
  · exact narrower archiveRequest 10 _ "rotate" granted (by decide +kernel) (by decide +kernel)
  · exact broader archiveRequest 10 _ [⟨"tlog", "tlog:2"⟩] ⟨"tlog", "tlog:1"⟩ [] Ability.wildcard
      granted (by decide +kernel) rfl (by decide +kernel)

end Authorizer

end DelegatedAuthority
