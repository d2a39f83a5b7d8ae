import DelegatedAuthority.Faults
import DelegatedAuthority.Proofs.Authority
import DelegatedAuthority.Proofs.Completeness
import DelegatedAuthority.Proofs.Lockstep
import DelegatedAuthority.Proofs.Standing
/-!
What becomes of a decision when limits change, or when less can be resolved.

A grant rests on a chain, and a revocation on a way upstream. Either is still there for whoever
can resolve more, so it can be missed for the limits only. A search that saw everything and found
nothing has ruled both out, for all limits and for all who can resolve no more than it could.
-/
namespace DelegatedAuthority

theorem toOption_eq_some_iff {ε α : Type} {x : Except ε α} {a : α} :
    x.toOption = some a ↔ x = .ok a := by
  cases x <;> simp [Except.toOption]

namespace Resolver

/-- All that `fewer` resolves, `resolver` resolves to the same delegation. -/
def Within (fewer resolver : Resolver) : Prop :=
  ∀ cid d, fewer.resolve cid = some d → resolver.resolve cid = some d

theorem Within.refl (resolver : Resolver) : resolver.Within resolver :=
  fun _ _ resolves => resolves

theorem Within.chain {fewer resolver : Resolver} (within : fewer.Within resolver)
    {start d : Delegation} {n : Nat} (chain : fewer.Chain start n d) :
    resolver.Chain start n d := by
  induction chain with
  | here => exact .here
  | link _ listed resolves addressed ih => exact ih.link listed (within _ _ resolves) addressed

theorem Within.upstream {fewer resolver : Resolver} (within : fewer.Within resolver)
    {start d : Delegation} {n : Nat} (upstream : fewer.Upstream start n d) :
    resolver.Upstream start n d := by
  induction upstream with
  | here => exact .here
  | proof _ listed resolves ih => exact ih.proof listed (within _ _ resolves)

theorem resolve_ofBlocks {fetch : Cid → Except AuthorizationError Bytes}
    {verify : Delegation → Except AuthorizationError Unit} {cid : Cid} {d : Delegation} :
    (ofBlocks fetch verify).resolve cid = some d ↔
      ∃ block, fetch cid = .ok block ∧ Delegation.decode block = .ok d ∧ verify d = .ok () := by
  simp only [resolve, toOption_eq_some_iff, ofBlocks, bind_eq_ok_iff]
  constructor
  · rintro ⟨block, fetched, d', decoded, ⟨⟩, passed, same⟩
    cases same
    exact ⟨block, fetched, decoded, passed⟩
  · rintro ⟨block, fetched, decoded, passed⟩
    exact ⟨block, fetched, d, decoded, (), passed, rfl⟩

/-- A source that serves no other block that could be read, and a verifier that passes no other
delegation, resolve no more. -/
theorem ofBlocks_within {fetch fetch' : Cid → Except AuthorizationError Bytes}
    {verify verify' : Delegation → Except AuthorizationError Unit}
    (blocks : ∀ cid block d, fetch' cid = .ok block → Delegation.decode block = .ok d →
      fetch cid = .ok block)
    (verified : ∀ d, verify' d = .ok () → verify d = .ok ()) :
    (ofBlocks fetch' verify').Within (ofBlocks fetch verify) := by
  intro cid d resolves
  obtain ⟨block, fetched, decoded, passed⟩ := resolve_ofBlocks.mp resolves
  exact resolve_ofBlocks.mpr ⟨block, blocks cid block d fetched decoded, decoded, verified d passed⟩

end Resolver

/-- Faults take delegations away, and put none in their place. -/
theorem Faults.resolver_within (faults : Faults) (store : BlockStore) :
    (faults.resolver store).Within store.resolver := by
  apply Resolver.ofBlocks_within
  · intro cid block d fetched _
    unfold Faults.fetch at fetched
    split at fetched
    · cases fetched
    · exact fetched
  · intro d _
    rfl

namespace Authorizer

variable {a : Authorizer} {fewer : Resolver} {request : Request} {now : Timestamp}
  {grant : Grant} {revoker : Principal} {target : Delegation}

/-- The same service with other limits and another resolver. -/
def under (a : Authorizer) (limits : Limits) (resolver : Resolver) : Authorizer where
  config := { a.config with limits := limits }
  resolver := resolver

/-- What is granted under other limits, or with less to resolve, is granted just so or may not
be known for the limits. -/
theorem authorizeAt_of_under (within : fewer.Within a.resolver) (limits : Limits)
    (granted : ((a.under limits fewer).authorizeAt request now).verdict = .ok grant) :
    (a.authorizeAt request now).verdict = .ok grant ∨
      ∃ limit, (a.authorizeAt request now).verdict = .error (.depthExceeded limit) := by
  rcases authorizeAt_ok_iff.mp granted with ⟨policy, erased⟩ | ⟨policy, decided, rfl⟩
  · exact .inl (authorizeAt_ok_iff.mpr (.inl ⟨policy, erased⟩))
  · -- the two searches may differ at every step; what carries over is the chain that one found
    obtain ⟨passed, root⟩ := decideDelegated_ok_iff.mp decided
    obtain ⟨n, _, last, chain, issued⟩ := Resolver.chain_of_requireRoot root
    have verdict : (a.authorizeAt request now).verdict =
        (a.resolver.requireRoot a.config.limits request.owner request.credential).verdict.bind
          fun () => .ok (.of (a.requirement request) request.credential false) :=
      congrArg Decision.verdict (authorizeAt_eq_requireRoot (a := a) policy passed)
    have known : a.resolver.Chain request.credential n last := within.chain chain
    rcases known.requireRoot a.config.limits with traced | ⟨limit, cut⟩
    · left
      rw [verdict, ← issued, traced]
      rfl
    · right
      refine ⟨limit, ?_⟩
      rw [verdict, ← issued, cut]
      rfl

theorem authorizeRevocation_of_under (within : fewer.Within a.resolver) (limits : Limits)
    (allowed : ((a.under limits fewer).authorizeRevocation revoker target).verdict = .ok ()) :
    (a.authorizeRevocation revoker target).verdict = .ok () ∨
      ∃ limit, (a.authorizeRevocation revoker target).verdict =
        .error (.depthExceeded limit) := by
  obtain ⟨n, last, upstream, rfl⟩ := Resolver.upstream_of_authorizeRevocation allowed
  have known : a.resolver.Upstream target n last := within.upstream upstream
  exact known.authorizeRevocation a.config.limits

theorem authorizeRevocationOf_of_under (within : fewer.Within a.resolver) (limits : Limits)
    {cid : Cid}
    (allowed : ((a.under limits fewer).authorizeRevocationOf revoker cid).verdict = .ok ()) :
    (a.authorizeRevocationOf revoker cid).verdict = .ok () ∨
      ∃ limit, (a.authorizeRevocationOf revoker cid).verdict = .error (.depthExceeded limit) := by
  unfold authorizeRevocationOf Resolver.authorizeRevocationOf at allowed ⊢
  cases loaded : fewer.load cid with
  | error e =>
    simp only [under, loaded] at allowed
    cases allowed
  | ok target =>
    have known : a.resolver.load cid = .ok target :=
      toOption_eq_some_iff.mp (within cid target (toOption_eq_some_iff.mpr loaded))
    simp only [under, loaded] at allowed
    simp only [known]
    exact authorizeRevocation_of_under within limits allowed

/-- A denial for want of a chain stands under all limits and with less to resolve. -/
theorem noAuthority_under (within : fewer.Within a.resolver) {e : AuthorizationError}
    (denied : (a.authorizeAt request now).verdict = .error e) (kind : e.kind = .noAuthority)
    (limits : Limits) : ((a.under limits fewer).authorizeAt request now).verdict ≠ .ok grant := by
  intro granted
  have cut := kind_eq_depthExceeded (authorizeAt_of_under within limits granted) denied
  rw [kind] at cut
  cases cut

theorem revocationNotAuthorized_under (within : fewer.Within a.resolver) {e : AuthorizationError}
    (denied : (a.authorizeRevocation revoker target).verdict = .error e)
    (kind : e.kind = .revocationNotAuthorized) (limits : Limits) :
    ((a.under limits fewer).authorizeRevocation revoker target).verdict ≠ .ok () := by
  intro allowed
  have cut := kind_eq_depthExceeded (authorizeRevocation_of_under within limits allowed) denied
  rw [kind] at cut
  cases cut

/-- Verdicts are stable under changes of limits. A search that saw everything sees the same with
more allowed; a goal that is found stays where it is with more resolutions; and no limits make
the one verdict of the other, so what is denied for want of authority or standing under some
limits is granted under none. -/
theorem verdicts_stable {κ α : Type} [DecidableEq κ] (graph : ProofGraph κ α) (quest : Quest α)
    (start : α) (a : Authorizer) :
    (∀ limits wider, limits.Within wider →
      (graph.walk limits quest start).traversal = .exhausted →
      graph.walk wider quest start = graph.walk limits quest start) ∧
    (∀ (limits : Limits) depth more, limits.maxVisits ≤ more →
      (graph.walk limits quest start).traversal = .reached depth →
      (graph.walk { limits with maxVisits := more } quest start).traversal = .reached depth) ∧
    (∀ limits depth, (graph.walk limits quest start).traversal = .reached depth →
      ∀ other, (graph.walk other quest start).traversal ≠ .exhausted) ∧
    (∀ request now e, (a.authorizeAt request now).verdict = .error e → e.kind = .noAuthority →
      ∀ other grant, ((a.under other a.resolver).authorizeAt request now).verdict ≠ .ok grant) ∧
    (∀ revoker target e, (a.authorizeRevocation revoker target).verdict = .error e →
      e.kind = .revocationNotAuthorized →
      ∀ other, ((a.under other a.resolver).authorizeRevocation revoker target).verdict ≠
        .ok ()) := by
  refine ⟨?_, ?_, ?_, ?_, ?_⟩
  · intro limits wider within exhausted
    exact ProofGraph.walk_exhausted_within within exhausted
  · intro limits depth more le reached
    have within : limits.Within { limits with maxVisits := more } := ⟨UInt64.le_refl _, le⟩
    exact ProofGraph.walk_reached_within within rfl reached
  · intro limits depth reached other
    obtain ⟨_, node, path, goal⟩ := ProofGraph.walk_reached reached
    exact path.not_exhausted goal other
  · intro request now e denied kind other grant
    exact noAuthority_under (.refl a.resolver) denied kind other
  · intro revoker target e denied kind other
    exact revocationNotAuthorized_under (.refl a.resolver) denied kind other

/-- The same detour, taken for a goal that is nowhere. -/
def idleQuest : Quest (Fin 6) where
  follow := ProofGraph.detourQuest.follow
  goal _ := false

/-- A request that names somebody as the owner from whom no chain leads to the agent. -/
def strangeRequest : Request := { agentRequest with owner := "did:stranger" }

theorem detour_stable :
    (∀ wider, Limits.Within ⟨4, 8⟩ wider →
      ProofGraph.detour.walk wider idleQuest 0 = ⟨.exhausted, [1, 4, 5, 2, 3, 5, 3, 5]⟩) ∧
    (∀ more, 7 ≤ more →
      (ProofGraph.detour.walk ⟨3, more⟩ ProofGraph.detourQuest 0).traversal = .reached 3) ∧
    (∀ other, (ProofGraph.detour.walk other ProofGraph.detourQuest 0).traversal ≠ .exhausted) ∧
    (∀ other grant,
      ((agentService.under other agentService.resolver).authorizeAt strangeRequest 10).verdict ≠
        .ok grant) ∧
    ∀ other, ((agentService.under other agentService.resolver).authorizeRevocation "did:stranger"
      agentRequest.credential).verdict ≠ .ok () := by
  have idle : ProofGraph.detour.walk ⟨4, 8⟩ idleQuest 0 =
    ⟨.exhausted, [1, 4, 5, 2, 3, 5, 3, 5]⟩ := by decide
  have found : (ProofGraph.detour.walk ⟨3, 7⟩ ProofGraph.detourQuest 0).traversal = .reached 3 := by
    decide
  have denied : (agentService.authorizeAt strangeRequest 10).verdict =
    .error (.noAuthority "did:agent" "did:stranger") := by rfl
  have kept : (agentService.authorizeRevocation "did:stranger" agentRequest.credential).verdict =
    .error (.revocationNotAuthorized "did:stranger") := by rfl
  obtain ⟨exhausted, _⟩ := verdicts_stable ProofGraph.detour idleQuest 0 agentService
  obtain ⟨_, reached, either, refused, unrevoked⟩ :=
    verdicts_stable ProofGraph.detour ProofGraph.detourQuest 0 agentService
  refine ⟨?_, ?_, either ⟨3, 7⟩ 3 found, refused strangeRequest 10 _ denied rfl,
    unrevoked "did:stranger" agentRequest.credential _ kept rfl⟩
  · intro wider within
    rw [exhausted ⟨4, 8⟩ wider within (congrArg Walk.traversal idle)]
    exact idle
  · intro more le
    exact reached ⟨3, 7⟩ 3 more le found

/-- Another bound on hops may find the goal elsewhere. -/
example : (ProofGraph.detour.walk ⟨4, 7⟩ ProofGraph.detourQuest 0).traversal = .reached 4 := by
  decide

/-- Faults fail closed. What is granted or allowed with less to resolve would be so with all of
it, or not be known for the limits; and what is denied with all of it for want of authority or
standing is not granted with less. So it is when a revocation names its target by an identifier. -/
theorem faults_fail_closed (a : Authorizer) (fewer : Resolver) (within : fewer.Within a.resolver) :
    (∀ request now grant,
      (authorizeAt { a with resolver := fewer } request now).verdict = .ok grant →
      (a.authorizeAt request now).verdict = .ok grant ∨
        ∃ limit, (a.authorizeAt request now).verdict = .error (.depthExceeded limit)) ∧
    (∀ revoker target,
      (authorizeRevocation { a with resolver := fewer } revoker target).verdict = .ok () →
      (a.authorizeRevocation revoker target).verdict = .ok () ∨
        ∃ limit, (a.authorizeRevocation revoker target).verdict =
          .error (.depthExceeded limit)) ∧
    (∀ request now e, (a.authorizeAt request now).verdict = .error e → e.kind = .noAuthority →
      ∀ grant, (authorizeAt { a with resolver := fewer } request now).verdict ≠ .ok grant) ∧
    (∀ revoker target e, (a.authorizeRevocation revoker target).verdict = .error e →
      e.kind = .revocationNotAuthorized →
      (authorizeRevocation { a with resolver := fewer } revoker target).verdict ≠ .ok ()) ∧
    ∀ revoker cid,
      (authorizeRevocationOf { a with resolver := fewer } revoker cid).verdict = .ok () →
      (a.authorizeRevocationOf revoker cid).verdict = .ok () ∨
        ∃ limit, (a.authorizeRevocationOf revoker cid).verdict = .error (.depthExceeded limit) := by
  refine ⟨?_, ?_, ?_, ?_, ?_⟩
  · intro request now grant granted
    exact authorizeAt_of_under within a.config.limits granted
  · intro revoker target allowed
    exact authorizeRevocation_of_under within a.config.limits allowed
  · intro request now e denied kind grant
    exact noAuthority_under within denied kind a.config.limits
  · intro revoker target e denied kind
    exact revocationNotAuthorized_under within denied kind a.config.limits
  · intro revoker cid allowed
    exact authorizeRevocationOf_of_under within a.config.limits allowed

open Resolver (shortProof)

/-- An owner delegated to Alice, and she to Bob. Eve has delegated to Bob as well, with proofs
that nobody has seen. -/
def depot : BlockStore := BlockStore.empty.replay
  [.putAt (shortProof 1) (Delegation.encode { issuer := "owner", audience := "alice" }),
   .putAt (shortProof 2) (Delegation.encode
     { issuer := "alice", audience := "bob", proofs := [shortProof 1] }),
   .putAt (shortProof 3) (Delegation.encode
     { issuer := "eve", audience := "bob", proofs := [shortProof 4, shortProof 5] })]

def depotFaults : Faults := { unreachable := [shortProof 3] }

def depotService : Authorizer where
  config := { audience := "service", limits := ⟨16, 3⟩ }
  resolver := depot.resolver

def depotRequest : Request where
  operation := Operation.append
  resource := "tlog:owner"
  owner := "owner"
  invoker := "bob"
  credential := {
    issuer := "bob"
    audience := "service"
    capabilities := [⟨Ability.append, "tlog:owner"⟩]
    proofs := [shortProof 3, shortProof 2] }

def depotGrant : Grant := ⟨Operation.append, Ability.append, "tlog:owner", "bob", false⟩

def faultyService : Authorizer := { depotService with resolver := depotFaults.resolver depot }

/-- Without the block from Eve three resolutions lead to the owner. With it, the third is spent
on her proofs. -/
theorem depot_fails_closed : (depotFaults.resolver depot).Within depotService.resolver ∧
    (faultyService.authorizeAt depotRequest 0).verdict = .ok depotGrant ∧
    (∃ limit, (depotService.authorizeAt depotRequest 0).verdict =
      .error (.depthExceeded limit)) ∧
    (faultyService.authorizeRevocation "owner" depotRequest.credential).verdict = .ok () ∧
    ∃ limit, (depotService.authorizeRevocation "owner" depotRequest.credential).verdict =
      .error (.depthExceeded limit) := by
  have within : (depotFaults.resolver depot).Within depotService.resolver :=
    depotFaults.resolver_within depot
  have granted : (faultyService.authorizeAt depotRequest 0).verdict = .ok depotGrant :=
    toOption_eq_some_iff.mp (by decide +kernel)
  have allowed :
      (faultyService.authorizeRevocation "owner" depotRequest.credential).verdict = .ok () :=
    toOption_eq_some_iff.mp (by decide +kernel)
  obtain ⟨grants, revocations, _⟩ :=
    faults_fail_closed depotService (depotFaults.resolver depot) within
  refine ⟨within, granted, ?_, allowed, ?_⟩
  · have refused : (depotService.authorizeAt depotRequest 0).verdict.toOption = none := by
      decide +kernel
    rcases grants depotRequest 0 depotGrant granted with same | cut
    · rw [same] at refused
      cases refused
    · exact cut
  · have refused : (depotService.authorizeRevocation "owner"
        depotRequest.credential).verdict.toOption = none := by decide +kernel
    rcases revocations "owner" depotRequest.credential allowed with same | cut
    · rw [same] at refused
      cases refused
    · exact cut

end Authorizer

end DelegatedAuthority
