import DelegatedAuthority.Proofs.Chains
import DelegatedAuthority.Proofs.Checks
import DelegatedAuthority.Revocation
/-!
Who has standing to revoke a delegation: whoever issued it or anything upstream of it.

Upstream is all that proofs lead to, addressed to whomever. A chain that gives authority is a
way upstream, so nobody on it is told to have no standing, whatever the limits.
-/
namespace DelegatedAuthority.Resolver

/-- A delegation that is so many proofs away from `start`, each listed by the one before it. -/
inductive Upstream (resolver : Resolver) (start : Delegation) : Nat → Delegation → Prop
  | here : Upstream resolver start 0 start
  | proof {n : Nat} {d : Delegation} {cid : Cid} {proof : Delegation} :
      Upstream resolver start n d → cid ∈ d.proofs → resolver.resolve cid = some proof →
      Upstream resolver start (n + 1) proof

variable {resolver : Resolver} {limits : Limits} {revoker : Principal} {start d : Delegation}

theorem Chain.upstream {n : Nat} (chain : resolver.Chain start n d) :
    resolver.Upstream start n d := by
  induction chain with
  | here => exact .here
  | link _ listed resolves _ ih => exact ih.proof listed resolves

theorem upstream_iff_path {n : Nat} :
    resolver.Upstream start n d ↔ resolver.graph.Path (.toRevoker revoker) start n d := by
  constructor
  · intro upstream
    induction upstream with
    | here => exact .here
    | proof _ listed resolves ih => exact ih.step ⟨listed, resolves, rfl⟩
  · intro path
    induction path with
    | here => exact .here
    | step _ edge ih => exact ih.proof edge.listed edge.resolves

theorem upstream_of_reached {depth : Nat}
    (reached : (resolver.graph.walk limits (.toRevoker revoker) start).traversal =
      .reached depth) : ∃ last, resolver.Upstream start depth last ∧ last.issuer = revoker := by
  obtain ⟨_, last, path, goal⟩ := ProofGraph.walk_reached reached
  exact ⟨last, upstream_iff_path.mpr path, beq_iff_eq.mp goal⟩

theorem Upstream.not_exhausted {n : Nat} (upstream : resolver.Upstream start n d)
    (limits : Limits) :
    (resolver.graph.walk limits (.toRevoker d.issuer) start).traversal ≠ .exhausted :=
  (upstream_iff_path.mp upstream).not_exhausted (beq_iff_eq.mpr rfl) limits

theorem hasStanding_false_iff : (resolver.hasStanding limits revoker d).verdict = .ok false ↔
    (resolver.graph.walk limits (.toRevoker revoker) d).traversal = .exhausted := by
  unfold hasStanding
  dsimp only
  cases (resolver.graph.walk limits (.toRevoker revoker) d).traversal <;> simp

theorem authorizeRevocation_verdict : (resolver.authorizeRevocation limits revoker d).verdict =
    match (resolver.graph.walk limits (.toRevoker revoker) d).traversal with
    | .reached _ => .ok ()
    | .exhausted => .error (.revocationNotAuthorized revoker)
    | .truncated =>
      .error (.depthExceeded (limits.describe ++ " while looking for " ++ revoker)) := by
  unfold authorizeRevocation hasStanding Decision.andThen
  dsimp only
  cases (resolver.graph.walk limits (.toRevoker revoker) d).traversal <;> rfl

theorem upstream_of_authorizeRevocation
    (h : (resolver.authorizeRevocation limits revoker start).verdict = .ok ()) :
    ∃ n last, resolver.Upstream start n last ∧ last.issuer = revoker := by
  rw [authorizeRevocation_verdict] at h
  cases traversal : (resolver.graph.walk limits (.toRevoker revoker) start).traversal with
  | reached depth => exact ⟨depth, upstream_of_reached traversal⟩
  | exhausted => simp [traversal] at h
  | truncated => simp [traversal] at h

/-- Whoever is upstream may revoke, unless the search was cut short. -/
theorem Upstream.authorizeRevocation {n : Nat} (upstream : resolver.Upstream start n d)
    (limits : Limits) :
    (resolver.authorizeRevocation limits d.issuer start).verdict = .ok () ∨
      ∃ limit, (resolver.authorizeRevocation limits d.issuer start).verdict =
        .error (.depthExceeded limit) := by
  have unexhausted := upstream.not_exhausted limits
  rw [authorizeRevocation_verdict]
  cases traversal : (resolver.graph.walk limits (.toRevoker d.issuer) start).traversal with
  | reached depth => exact .inl rfl
  | exhausted => contradiction
  | truncated => exact .inr ⟨_, rfl⟩

theorem Upstream.hasStanding {n : Nat} (upstream : resolver.Upstream start n d)
    (limits : Limits) : (resolver.hasStanding limits d.issuer start).verdict ≠ .ok false := by
  intro denied
  exact upstream.not_exhausted limits (hasStanding_false_iff.mp denied)

/-- Where a chain leads to a root, the root and all issuers on the way there have standing: under
no limits is one of them told to have none. And who is told so under some limits, to that
principal no chain is found under any. -/
theorem chain_gives_standing (resolver : Resolver) (d : Delegation) :
    (∀ limits principal, (resolver.tracesToRoot limits principal d).verdict = .ok true →
      ∀ other, (resolver.hasStanding other principal d).verdict ≠ .ok false) ∧
    (∀ n last, resolver.Chain d n last → ∀ limits,
      (resolver.hasStanding limits last.issuer d).verdict ≠ .ok false ∧
        ∀ e, (resolver.authorizeRevocation limits last.issuer d).verdict = .error e →
          e.kind ≠ .revocationNotAuthorized) ∧
    (∀ limits principal, (resolver.hasStanding limits principal d).verdict = .ok false →
      ∀ other, (resolver.tracesToRoot other principal d).verdict ≠ .ok true) := by
  have traced : ∀ limits principal,
      (resolver.tracesToRoot limits principal d).verdict = .ok true →
      ∀ other, (resolver.hasStanding other principal d).verdict ≠ .ok false := by
    intro limits principal traces other
    obtain ⟨depth, reached⟩ := tracesToRoot_true_iff.mp traces
    obtain ⟨_, last, chain, issued⟩ := traceToRoot_reached reached
    rw [← issued]
    exact chain.upstream.hasStanding other
  refine ⟨traced, ?_, ?_⟩
  · intro n last chain limits
    refine ⟨chain.upstream.hasStanding limits, ?_⟩
    intro e refused
    rw [kind_eq_depthExceeded (chain.upstream.authorizeRevocation limits) refused]
    exact ErrorKind.noConfusion
  · intro limits principal denied other traces
    exact traced other principal traces limits denied

/-- An identifier whose digest is a single byte. -/
def shortProof (byte : UInt8) : Cid := .v1 Cid.dagCbor ⟨Cid.sha256, [byte], Nat.le_add_left 1 63⟩

/-- An owner delegated to Alice, and she to Bob. -/
def relay : Resolver := .ofTable
  [(shortProof 1, { issuer := "owner", audience := "alice" }),
   (shortProof 2, { issuer := "alice", audience := "bob", proofs := [shortProof 1] })]

def relayed : Delegation where
  issuer := "bob"
  audience := "service"
  proofs := [shortProof 2]

/-- The chain to the owner is found with two hops, so with one hop the owner may be refused for
the limit only. A stranger is told with two hops that there is no way to it. -/
theorem relay_gives_standing : (relay.tracesToRoot ⟨2, 2⟩ "owner" relayed).verdict = .ok true ∧
    (∀ limits, (relay.hasStanding limits "owner" relayed).verdict ≠ .ok false) ∧
    (relay.hasStanding ⟨2, 2⟩ "stranger" relayed).verdict = .ok false ∧
    ∀ limits, (relay.tracesToRoot limits "stranger" relayed).verdict ≠ .ok true := by
  have traces : (relay.tracesToRoot ⟨2, 2⟩ "owner" relayed).verdict = .ok true := by rfl
  have denied : (relay.hasStanding ⟨2, 2⟩ "stranger" relayed).verdict = .ok false := by rfl
  obtain ⟨standing, _, untraced⟩ := chain_gives_standing relay relayed
  exact ⟨traces, standing ⟨2, 2⟩ "owner" traces, denied, untraced ⟨2, 2⟩ "stranger" denied⟩

end DelegatedAuthority.Resolver
