import DelegatedAuthority.Proofs.Stability
/-!
What is looked at first.

A request is objected to on its own grounds before anything is resolved for it, and of several
objections the first in a fixed order is the answer. Only what nothing can be said against goes to
the search, and there the answer is the search's.
-/
namespace DelegatedAuthority

variable {κ α : Type} [DecidableEq κ]

namespace Search

variable {graph : ProofGraph κ α} {limits : Limits} {quest : Quest α} {start : α}

theorem resolutions_first : (first graph limits quest start).resolutions =
    if quest.goal start = true ∨ limits.maxDepth.toNat = 0 then []
    else (graph.proofs start).take limits.maxVisits.toNat := by
  unfold first
  by_cases goal : quest.goal start = true
  · simp [goal]
  · rw [if_neg goal]
    by_cases none : graph.proofs start = []
    · rw [(descended_of_isEmpty none).resolutions, none]
      simp
    · by_cases le : 1 ≤ limits.maxDepth.toNat
      · have looked : ∃ entries, Descended graph limits quest start 1 {} entries
            (admitted graph limits start 1 {}) (descend graph limits quest start 1 {}) :=
          descended_of_le none le
        obtain ⟨entries, below⟩ := looked
        rw [below.resolutions]
        simp [admitted, eligible, followedWithin, goal, Nat.one_le_iff_ne_zero.mp le]
      · have shallow : limits.maxDepth.toNat = 0 := Nat.lt_one_iff.mp (Nat.lt_of_not_le le)
        rw [(descended_of_tooDeep none (Nat.lt_of_not_le le)).resolutions]
        simp [shallow]

/-- A first look that resolves nothing puts nothing on the stack. -/
theorem isOver_first (nothing : (first graph limits quest start).resolutions = []) :
    (first graph limits quest start).isOver = true := by
  unfold first at nothing ⊢
  split
  · rfl
  · rename_i goal
    rw [if_neg goal] at nothing
    obtain ⟨entries, resolved, below⟩ := descend_spec graph limits quest start 1 {}
    have none : entries = [] := by
      have fewer := below.entries_le
      rw [below.resolutions] at nothing
      have unresolved : resolved = [] := nothing
      rw [unresolved] at fewer
      exact List.eq_nil_of_length_eq_zero (Nat.le_zero.mp fewer)
    apply isOver_iff.mpr
    right
    rw [below.stack, none]
    rfl

end Search

/-- A search resolves something just if the start is not what it looks for, both bounds leave
room for it, and there is something to resolve. -/
theorem ProofGraph.resolutions_ne_nil_iff {graph : ProofGraph κ α} {limits : Limits}
    {quest : Quest α} {start : α} : (graph.walk limits quest start).resolutions ≠ [] ↔
      quest.goal start = false ∧ 1 ≤ limits.maxDepth ∧ 1 ≤ limits.maxVisits ∧
        graph.proofs start ≠ [] := by
  have same : (graph.walk limits quest start).resolutions = [] ↔
      (Search.first graph limits quest start).resolutions = [] := by
    constructor
    · intro nothing
      have earlier := Search.resolutions_prefix_run graph limits quest limits.maxVisits.toNat
        (Search.first graph limits quest start)
      exact List.prefix_nil.mp (nothing ▸ earlier)
    · intro nothing
      rw [walk, search, Search.run_of_isOver (Search.isOver_first nothing)]
      exact nothing
  rw [Ne, same, Search.resolutions_first, UInt64.le_iff_toNat_le, UInt64.le_iff_toNat_le]
  simp [Nat.one_le_iff_ne_zero]

/-- Nothing that needs no proof stands against the request. -/
structure Request.Passes (request : Request) (audience : Principal) (ability : Ability)
    (now : Timestamp) : Prop where
  audience : request.credential.audience = audience
  unexpired : ∀ last, request.credential.expiration = some last → now ≤ last
  granted : ∃ c, request.credential.checkGrant ability request.resource = .ok c
  invoker : request.invoker = request.credential.issuer

/-- The first objection to a request, in the order in which they are looked for. Each row holds
only where none above it does. Neither the proofs that the credential lists nor a resolver or
limits have a part in it. -/
inductive Request.Objection (request : Request) (audience : Principal) (ability : Ability)
    (now : Timestamp) : AuthorizationError → Prop
  /-- The credential is addressed to somebody else. -/
  | misdirected : request.credential.audience ≠ audience →
      Objection request audience ability now (.wrongAudience audience request.credential.audience)
  /-- It has expired. -/
  | late {last : Timestamp} : request.credential.audience = audience →
      request.credential.expiration = some last → last < now →
      Objection request audience ability now (.expired last now)
  /-- It lists what allows the ability, first of all `c`, but nothing for the resource. -/
  | elsewhere {c : Capability} : request.credential.audience = audience →
      (∀ last, request.credential.expiration = some last → now ≤ last) →
      (∀ c ∈ request.credential.capabilities, c.allows ability request.resource = false) →
      request.credential.capabilities.find? (fun c => c.ability.allows ability) = some c →
      Objection request audience ability now (.wrongResource ability request.resource c.resource)
  /-- It lists nothing that allows the ability. -/
  | unlisted : request.credential.audience = audience →
      (∀ last, request.credential.expiration = some last → now ≤ last) →
      (∀ c ∈ request.credential.capabilities, c.ability.allows ability = false) →
      Objection request audience ability now (.missingCapability ability)
  /-- Somebody uses it who did not issue it. -/
  | borrowed : request.credential.audience = audience →
      (∀ last, request.credential.expiration = some last → now ≤ last) →
      (∃ c ∈ request.credential.capabilities, c.allows ability request.resource = true) →
      request.invoker ≠ request.credential.issuer →
      Objection request audience ability now
        (.invocationNotAuthorized request.invoker request.credential.issuer)

namespace Authorizer

variable {a : Authorizer} {request : Request} {now : Timestamp}

theorem checkLocal_passes_iff : a.checkLocal request now = .ok () ↔
    request.Passes a.config.audience (a.requirement request).ability now := by
  rw [checkLocal_ok_iff, ← Delegation.checkGrant_ok_exists, isExpired_eq_false_iff]
  constructor
  · rintro ⟨audience, unexpired, granted, invoker⟩
    exact ⟨audience, unexpired, granted, invoker⟩
  · rintro ⟨audience, unexpired, granted, invoker⟩
    exact ⟨audience, unexpired, granted, invoker⟩

theorem checkLocal_error_iff {e : AuthorizationError} : a.checkLocal request now = .error e ↔
    request.Objection a.config.audience (a.requirement request).ability now e := by
  unfold checkLocal
  rw [check_bind_eq_error_iff, check_bind_eq_error_iff, bind_eq_error_iff, exists_and_right,
    Delegation.checkAudience_error_iff, Delegation.checkAudience_ok_iff,
    Delegation.checkExpiration_error_iff, Delegation.checkExpiration_ok_iff,
    Delegation.checkGrant_error_iff, Delegation.checkGrant_ok_exists,
    Delegation.checkInvoker_error_iff, isExpired_eq_false_iff]
  constructor
  · rintro (⟨other, rfl⟩ | ⟨audience, ⟨last, expires, late, rfl⟩ | ⟨unexpired, rest⟩⟩)
    · exact .misdirected other
    · exact .late audience expires late
    · rcases rest with ⟨refused, ⟨c, first, rfl⟩ | ⟨nowhere, rfl⟩⟩ | ⟨allowed, stranger, rfl⟩
      · exact .elsewhere audience unexpired refused first
      · exact .unlisted audience unexpired nowhere
      · exact .borrowed audience unexpired allowed stranger
  · intro objection
    cases objection with
    | misdirected other => exact .inl ⟨other, rfl⟩
    | late audience expires late => exact .inr ⟨audience, .inl ⟨_, expires, late, rfl⟩⟩
    | elsewhere audience unexpired refused first =>
      exact .inr ⟨audience, .inr ⟨unexpired, .inl ⟨refused, .inl ⟨_, first, rfl⟩⟩⟩⟩
    | unlisted audience unexpired nowhere =>
      refine .inr ⟨audience, .inr ⟨unexpired, .inl ⟨?_, .inr ⟨nowhere, rfl⟩⟩⟩⟩
      intro c listed
      simp [Capability.allows, nowhere c listed]
    | borrowed audience unexpired allowed stranger =>
      exact .inr ⟨audience, .inr ⟨unexpired, .inr ⟨allowed, stranger, rfl⟩⟩⟩

/-- What has to hold before anything is resolved for a request, and is enough. -/
structure Consults (a : Authorizer) (request : Request) (now : Timestamp) : Prop
    extends Request.Passes request a.config.audience (a.requirement request).ability now where
  delegated : a.config.isDirectOnly (a.requirement request).ability = false
  notOwn : request.credential.issuer ≠ request.owner
  proofs : request.credential.proofs ≠ []
  depth : 1 ≤ a.config.limits.maxDepth
  visits : 1 ≤ a.config.limits.maxVisits

theorem traceToRoot_resolves_iff {resolver : Resolver} {limits : Limits} {root : Principal}
    {d : Delegation} : (resolver.traceToRoot limits root d).resolutions ≠ [] ↔
      d.issuer ≠ root ∧ 1 ≤ limits.maxDepth ∧ 1 ≤ limits.maxVisits ∧ d.proofs ≠ [] := by
  rw [Resolver.traceToRoot, ProofGraph.resolutions_ne_nil_iff]
  simp [Quest.toRoot, Resolver.graph]

theorem authorizeAt_resolves_iff :
    (a.authorizeAt request now).resolutions ≠ [] ↔ a.Consults request now := by
  constructor
  · intro resolved
    cases policy : a.config.isDirectOnly (a.requirement request).ability with
    | true =>
      rw [authorizeAt_of_isDirectOnly policy] at resolved
      exact absurd rfl resolved
    | false =>
      cases passed : a.checkLocal request now with
      | error e =>
        rw [authorizeAt_eq_error policy passed] at resolved
        exact absurd rfl resolved
      | ok _ =>
        rw [authorizeAt_eq_requireRoot policy passed] at resolved
        obtain ⟨notOwn, depth, visits, proofs⟩ := traceToRoot_resolves_iff.mp resolved
        exact ⟨checkLocal_passes_iff.mp passed, policy, notOwn, proofs, depth, visits⟩
  · intro h
    rw [authorizeAt_eq_requireRoot h.delegated (checkLocal_passes_iff.mpr h.toPasses)]
    exact traceToRoot_resolves_iff.mpr ⟨h.notOwn, h.depth, h.visits, h.proofs⟩

/-- The search for the owner among the proofs of what a request presents. -/
def trace (a : Authorizer) (request : Request) : Walk Cid :=
  a.resolver.traceToRoot a.config.limits request.owner request.credential

/-- How the end of that search decides a request that passes. -/
def verdictAfter (a : Authorizer) (request : Request) :
    Traversal → Except AuthorizationError Grant
  | .reached _ => .ok (.of (a.requirement request) request.credential false)
  | .exhausted => .error (.noAuthority request.credential.issuer request.owner)
  | .truncated => .error (.depthExceeded
      (a.config.limits.describe ++ " while tracing to " ++ request.owner))

theorem authorizeAt_eq_trace
    (policy : a.config.isDirectOnly (a.requirement request).ability = false)
    (passed : a.checkLocal request now = .ok ()) : a.authorizeAt request now =
      ⟨a.verdictAfter request (a.trace request).traversal, (a.trace request).resolutions⟩ := by
  rw [authorizeAt_eq_requireRoot policy passed, Decision.andThen, Resolver.requireRoot_verdict,
    trace]
  cases (a.resolver.traceToRoot a.config.limits request.owner request.credential).traversal <;> rfl

/-- No proof is resolved before everything local has passed, and local objections have a fixed
precedence. A resolution is made just if the request passes all checks, is not direct-only nor
on the owner's own credential, and has a proof that both bounds leave room for. Where the
delegated policy decides, an objection is the answer under all limits and for every resolver;
a request either passes or is objected to; and what passes is decided as the search ends. -/
theorem local_checks_first (a : Authorizer) (request : Request) (now : Timestamp) :
    ((a.authorizeAt request now).resolutions ≠ [] ↔ a.Consults request now) ∧
    (a.config.isDirectOnly (a.requirement request).ability = false →
      (∀ e, request.Objection a.config.audience (a.requirement request).ability now e →
        ∀ limits resolver, (a.under limits resolver).authorizeAt request now = ⟨.error e, []⟩) ∧
      (request.Passes a.config.audience (a.requirement request).ability now ∨
        ∃ e, request.Objection a.config.audience (a.requirement request).ability now e) ∧
      (request.Passes a.config.audience (a.requirement request).ability now →
        a.authorizeAt request now =
          ⟨a.verdictAfter request (a.trace request).traversal, (a.trace request).resolutions⟩)) := by
  refine ⟨authorizeAt_resolves_iff, ?_⟩
  intro policy
  refine ⟨?_, ?_, ?_⟩
  · intro e objection limits resolver
    exact authorizeAt_eq_error (a := a.under limits resolver) policy
      (checkLocal_error_iff.mpr objection)
  · cases checked : a.checkLocal request now with
    | ok _ => exact .inl (checkLocal_passes_iff.mp checked)
    | error e => exact .inr ⟨e, checkLocal_error_iff.mp checked⟩
  · intro passes
    exact authorizeAt_eq_trace policy (checkLocal_passes_iff.mpr passes)

/-- A stranger uses the agent's credential, a second late and for another resource. -/
def clumsyRequest : Request := { agentRequest with resource := "tlog:2", invoker := "did:stranger" }

theorem agent_checked_first :
    agentService.Consults agentRequest 10 ∧
    agentService.authorizeAt agentRequest 10 = ⟨.ok agentGrant, [agentProof]⟩ ∧
    (∀ limits resolver, (agentService.under limits resolver).authorizeAt clumsyRequest 11 =
      ⟨.error (.expired 10 11), []⟩) ∧
    ∀ limits resolver, (agentService.under limits resolver).authorizeAt clumsyRequest 10 =
      ⟨.error (.wrongResource Ability.append "tlog:2" "tlog:1"), []⟩ := by
  obtain ⟨resolves, table⟩ := local_checks_first agentService agentRequest 10
  obtain ⟨_, tableLate⟩ := local_checks_first agentService clumsyRequest 11
  obtain ⟨_, tableStray⟩ := local_checks_first agentService clumsyRequest 10
  have policy : agentService.config.isDirectOnly Ability.append = false := by decide
  have consults : agentService.Consults agentRequest 10 := resolves.mp (by decide +kernel)
  obtain ⟨_, _, passed⟩ := table policy
  obtain ⟨late, _⟩ := tableLate policy
  obtain ⟨stray, _⟩ := tableStray policy
  have expired : clumsyRequest.Objection "did:service" Ability.append 11 (.expired 10 11) :=
    .late rfl rfl (by decide)
  have confined : clumsyRequest.Objection "did:service" Ability.append 10
      (.wrongResource Ability.append "tlog:2" "tlog:1") :=
    .elsewhere (c := ⟨"tlog", "tlog:1"⟩) rfl (isExpired_eq_false_iff.mp rfl) (by decide +kernel)
      (by decide +kernel)
  refine ⟨consults, ?_, late _ expired, stray _ confined⟩
  rw [passed consults.toPasses]
  rfl

end Authorizer

end DelegatedAuthority
