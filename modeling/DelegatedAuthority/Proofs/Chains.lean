import DelegatedAuthority.Chain
import DelegatedAuthority.Proofs.Reachability
/-!
Chains of proofs, and what a search for the root tells of them.

A chain is said here without any search. It need not end at the root, it may be of any length,
and it may come back to a delegation that it has passed through.
-/
namespace DelegatedAuthority.Resolver

/-- A chain of proofs of a given length from `start` to a delegation: each one is listed by
the one before it, and addressed to the issuer of that. -/
inductive Chain (resolver : Resolver) (start : Delegation) : Nat → Delegation → Prop
  | here : Chain resolver start 0 start
  | link {n : Nat} {d : Delegation} {cid : Cid} {proof : Delegation} :
      Chain resolver start n d → cid ∈ d.proofs → resolver.resolve cid = some proof →
      proof.audience = d.issuer → Chain resolver start (n + 1) proof

variable {resolver : Resolver} {limits : Limits} {root : Principal} {start d : Delegation}

theorem chain_iff_path {n : Nat} :
    resolver.Chain start n d ↔ resolver.graph.Path (.toRoot root) start n d := by
  constructor
  · intro chain
    induction chain with
    | here => exact .here
    | link _ listed resolves addressed ih =>
      exact ih.step ⟨listed, resolves, beq_iff_eq.mpr addressed⟩
  · intro path
    induction path with
    | here => exact .here
    | step _ edge ih => exact ih.link edge.listed edge.resolves (beq_iff_eq.mp edge.followed)

theorem traceToRoot_reached {depth : Nat}
    (reached : (resolver.traceToRoot limits root start).traversal = .reached depth) :
    depth ≤ limits.maxDepth.toNat ∧ ∃ last, resolver.Chain start depth last ∧
      last.issuer = root := by
  obtain ⟨within, last, path, goal⟩ := ProofGraph.walk_reached reached
  exact ⟨within, last, chain_iff_path.mpr path, beq_iff_eq.mp goal⟩

theorem Chain.not_exhausted {n : Nat} (chain : resolver.Chain start n d) (limits : Limits) :
    (resolver.traceToRoot limits d.issuer start).traversal ≠ .exhausted :=
  (chain_iff_path.mp chain).not_exhausted (beq_iff_eq.mpr rfl) limits

theorem tracesToRoot_true_iff : (resolver.tracesToRoot limits root d).verdict = .ok true ↔
    ∃ depth, (resolver.traceToRoot limits root d).traversal = .reached depth := by
  unfold tracesToRoot
  dsimp only
  cases (resolver.traceToRoot limits root d).traversal <;> simp

theorem requireRoot_verdict : (resolver.requireRoot limits root d).verdict =
    match (resolver.traceToRoot limits root d).traversal with
    | .reached _ => .ok ()
    | .exhausted => .error (.noAuthority d.issuer root)
    | .truncated =>
      .error (.depthExceeded (limits.describe ++ " while tracing to " ++ root)) := by
  unfold requireRoot tracesToRoot Decision.andThen
  dsimp only
  cases (resolver.traceToRoot limits root d).traversal <;> rfl

theorem requireRoot_ok_iff : (resolver.requireRoot limits root d).verdict = .ok () ↔
    ∃ depth, (resolver.traceToRoot limits root d).traversal = .reached depth := by
  rw [requireRoot_verdict]
  cases (resolver.traceToRoot limits root d).traversal <;> simp

/-- The root needs no proof of its own authority. -/
theorem requireRoot_of_issuer (issued : d.issuer = root) (limits : Limits) :
    resolver.requireRoot limits root d = ⟨.ok (), []⟩ := by
  have walk : resolver.traceToRoot limits root d = ⟨.reached 0, []⟩ :=
    ProofGraph.walk_of_goal (beq_iff_eq.mpr issued) limits
  rw [requireRoot, tracesToRoot, walk]
  rfl

theorem chain_of_requireRoot (h : (resolver.requireRoot limits root start).verdict = .ok ()) :
    ∃ n ≤ limits.maxDepth.toNat, ∃ last, resolver.Chain start n last ∧ last.issuer = root := by
  obtain ⟨depth, reached⟩ := requireRoot_ok_iff.mp h
  obtain ⟨within, last, chain, issued⟩ := traceToRoot_reached reached
  exact ⟨depth, within, last, chain, issued⟩

/-- Whoever issued what ends a chain is its root, unless the search was cut short. -/
theorem Chain.requireRoot {n : Nat} (chain : resolver.Chain start n d) (limits : Limits) :
    (resolver.requireRoot limits d.issuer start).verdict = .ok () ∨
      ∃ limit, (resolver.requireRoot limits d.issuer start).verdict =
        .error (.depthExceeded limit) := by
  have unexhausted := chain.not_exhausted limits
  rw [requireRoot_verdict]
  cases traversal : (resolver.traceToRoot limits d.issuer start).traversal with
  | reached depth => exact .inl rfl
  | exhausted => contradiction
  | truncated => exact .inr ⟨_, rfl⟩

/-- Knows of the delegations in a table, and of no other. -/
def ofTable (table : List (Cid × Delegation)) : Resolver where
  load cid :=
    match table.lookup cid with
    | some d => .ok d
    | none => .error (.reported .notFound "")

theorem mem_of_resolve_ofTable {table : List (Cid × Delegation)} {cid : Cid} {d : Delegation}
    (h : (ofTable table).resolve cid = some d) : (cid, d) ∈ table := by
  unfold resolve ofTable at h
  cases found : table.lookup cid with
  | none => simp [found, Except.toOption] at h
  | some d' =>
    obtain ⟨before, after, eq, _⟩ := List.lookup_eq_some_iff.mp found
    simp only [found, Except.toOption, Option.some.injEq] at h
    rw [eq, h]
    exact List.mem_append_right before (List.mem_cons_self ..)

end DelegatedAuthority.Resolver
