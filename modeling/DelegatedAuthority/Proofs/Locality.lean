import DelegatedAuthority.Proofs.Stability
import Mathlib.Data.List.Basic
/-!
What a decision depends on: of all that can be resolved, only what was resolved on the way to it.

Which keys a search resolves is itself found out by the search. But resolutions are only ever
added, so two graphs that agree on all that one run resolves agree on what each of its steps
does, from the first on.
-/
namespace DelegatedAuthority

variable {κ α : Type}

/-- Two graphs whose nodes list the same keys, and which resolve each of some keys alike. -/
structure ProofGraph.AgreeOn (graph other : ProofGraph κ α) (keys : List κ) : Prop where
  proofs : other.proofs = graph.proofs
  resolve : ∀ key ∈ keys, other.resolve key = graph.resolve key

namespace Search

variable [DecidableEq κ] {graph other : ProofGraph κ α} {limits : Limits} {quest : Quest α}
  {parent : α} {depth : Nat} {keys : List κ} {s : Search κ α}

theorem eligible_agree (agree : graph.AgreeOn other keys) :
    s.eligible other parent depth = s.eligible graph parent depth := by
  rw [eligible, agree.proofs, eligible]

theorem admitted_agree (agree : graph.AgreeOn other keys) :
    s.admitted other limits parent depth = s.admitted graph limits parent depth := by
  rw [admitted, eligible_agree agree, admitted]

theorem charged_agree (agree : graph.AgreeOn other keys) :
    s.charged other limits parent depth = s.charged graph limits parent depth := by
  rw [charged, admitted_agree agree, eligible_agree agree, charged]

theorem loaded_agree (agree : graph.AgreeOn other keys)
    (known : s.admitted graph limits parent depth ⊆ keys) :
    s.loaded other limits parent depth = s.loaded graph limits parent depth := by
  rw [loaded, admitted_agree agree, loaded]
  apply List.filterMap_congr
  intro key member
  rw [agree.resolve key (known member)]

theorem expand_agree (agree : graph.AgreeOn other keys)
    (known : (s.expand graph limits parent depth).2.resolutions ⊆ keys) :
    s.expand other limits parent depth = s.expand graph limits parent depth := by
  by_cases none : graph.proofs parent = []
  · rw [expand_of_isEmpty none, expand_of_isEmpty (by rw [agree.proofs, none])]
  · have listed : other.proofs parent ≠ [] := by rwa [agree.proofs]
    by_cases le : depth ≤ limits.maxDepth.toNat
    · rw [expand_of_le none le] at known ⊢
      have resolved : s.admitted graph limits parent depth ⊆ keys := by
        intro key member
        exact known (List.mem_append_right _ member)
      rw [expand_of_le listed le, charged_agree agree, loaded_agree agree resolved]
    · have below : limits.maxDepth.toNat < depth := Nat.lt_of_not_le le
      rw [expand_of_tooDeep none below, expand_of_tooDeep listed below]

theorem descend_agree (agree : graph.AgreeOn other keys)
    (known : (s.descend graph limits quest parent depth).resolutions ⊆ keys) :
    s.descend other limits quest parent depth = s.descend graph limits quest parent depth := by
  obtain ⟨resolutions, _⟩ := descend_fields graph limits quest parent depth s
  rw [resolutions] at known
  rw [descend, descend, expand_agree agree known]

theorem advance_agree (agree : graph.AgreeOn other keys)
    (known : (s.advance graph limits quest).resolutions ⊆ keys) :
    s.advance other limits quest = s.advance graph limits quest := by
  revert known
  apply advance_both (P := fun t u => t.resolutions ⊆ keys → u = t) other limits quest
  · intro _
    rfl
  · intro rest _
    rfl
  · intro entry rest _ known
    exact descend_agree agree known

/-- A run is the same on every graph that agrees on what it resolves. -/
theorem run_agree (agree : graph.AgreeOn other keys) (count : Nat)
    (known : (run graph limits quest count s).resolutions ⊆ keys) :
    run other limits quest count s = run graph limits quest count s := by
  induction count generalizing s with
  | zero => rfl
  | succ count ih =>
    rw [run_advance] at known
    have earlier := resolutions_prefix_run graph limits quest count (s.advance graph limits quest)
    have next : (s.advance graph limits quest).resolutions ⊆ keys := by
      intro key member
      exact known (earlier.subset member)
    rw [run_advance, run_advance, advance_agree agree next]
    exact ih known

theorem first_agree {start : α} (agree : graph.AgreeOn other keys)
    (known : (first graph limits quest start).resolutions ⊆ keys) :
    first other limits quest start = first graph limits quest start := by
  revert known
  apply first_both (P := fun t u => t.resolutions ⊆ keys → u = t)
  · intro _
    rfl
  · intro known
    exact descend_agree agree known

end Search

namespace ProofGraph

variable [DecidableEq κ] {graph other : ProofGraph κ α} {limits : Limits} {quest : Quest α}
  {start : α}

theorem walk_agree (agree : graph.AgreeOn other (graph.walk limits quest start).resolutions) :
    other.walk limits quest start = graph.walk limits quest start := by
  have first : Search.first other limits quest start = Search.first graph limits quest start :=
    Search.first_agree agree (Search.resolutions_prefix_run ..).subset
  rw [walk, walk, search, search, first, Search.run_agree agree _ (List.Subset.refl _)]

end ProofGraph

namespace Resolver

variable {resolver other : Resolver} {limits : Limits} {root revoker : Principal} {d : Delegation}

theorem graph_agreeOn {cids : List Cid}
    (agree : ∀ cid ∈ cids, other.resolve cid = resolver.resolve cid) :
    resolver.graph.AgreeOn other.graph cids :=
  ⟨rfl, agree⟩

theorem requireRoot_agree
    (agree : ∀ cid ∈ (resolver.requireRoot limits root d).resolutions,
      other.resolve cid = resolver.resolve cid) :
    other.requireRoot limits root d = resolver.requireRoot limits root d := by
  have same : other.traceToRoot limits root d = resolver.traceToRoot limits root d :=
    ProofGraph.walk_agree (graph_agreeOn agree)
  rw [requireRoot, tracesToRoot, same, requireRoot, tracesToRoot]

theorem authorizeRevocation_agree
    (agree : ∀ cid ∈ (resolver.authorizeRevocation limits revoker d).resolutions,
      other.resolve cid = resolver.resolve cid) :
    other.authorizeRevocation limits revoker d =
      resolver.authorizeRevocation limits revoker d := by
  have same : other.graph.walk limits (.toRevoker revoker) d =
      resolver.graph.walk limits (.toRevoker revoker) d :=
    ProofGraph.walk_agree (graph_agreeOn agree)
  rw [authorizeRevocation, hasStanding, same, authorizeRevocation, hasStanding]

theorem authorizeRevocationOf_agree {target : Cid}
    (agree : ∀ cid ∈ (resolver.authorizeRevocationOf limits revoker target).resolutions,
      other.load cid = resolver.load cid) :
    other.authorizeRevocationOf limits revoker target =
      resolver.authorizeRevocationOf limits revoker target := by
  cases loaded : resolver.load target with
  | error e =>
    simp only [authorizeRevocationOf, loaded] at agree ⊢
    rw [agree target (List.mem_singleton_self _), loaded]
  | ok d =>
    simp only [authorizeRevocationOf, loaded] at agree ⊢
    have below : other.authorizeRevocation limits revoker d =
        resolver.authorizeRevocation limits revoker d := by
      apply authorizeRevocation_agree
      intro cid member
      rw [resolve, agree cid (List.mem_cons_of_mem _ member), resolve]
    simp only [agree target (List.mem_cons_self ..), loaded, below]

/-- A source that serves the same block, or fails to in the same way, loads the same. -/
theorem load_ofBlocks_congr {fetch fetch' : Cid → Except AuthorizationError Bytes}
    {verify : Delegation → Except AuthorizationError Unit} {cid : Cid}
    (same : fetch' cid = fetch cid) :
    (ofBlocks fetch' verify).load cid = (ofBlocks fetch verify).load cid := by
  simp only [ofBlocks, same]

end Resolver

namespace Authorizer

theorem authorizeAt_agree {a : Authorizer} {other : Resolver} {request : Request}
    {now : Timestamp}
    (agree : ∀ cid ∈ (a.authorizeAt request now).resolutions,
      other.resolve cid = a.resolver.resolve cid) :
    authorizeAt { a with resolver := other } request now = a.authorizeAt request now := by
  apply authorizeAt_congr
  intro policy passed
  rw [authorizeAt_eq_requireRoot policy passed] at agree
  exact Resolver.requireRoot_agree agree

/-- A service that reads from a source of blocks. -/
def reading (config : Config) (fetch : Cid → Except AuthorizationError Bytes)
    (verify : Delegation → Except AuthorizationError Unit) : Authorizer where
  config := config
  resolver := .ofBlocks fetch verify

/-- A search depends on what keys resolve to only for those it resolves, and a decision on the
blocks of its source only for those it fetches: whatever becomes of any other block, the answer
is the same, and so is all that is fetched for it. -/
theorem decided_by_fetched {κ α : Type} [DecidableEq κ] (graph : ProofGraph κ α) (quest : Quest α)
    (start : α) (config : Config) (fetch fetch' : Cid → Except AuthorizationError Bytes)
    (verify : Delegation → Except AuthorizationError Unit) :
    (∀ limits resolve,
      (∀ key ∈ (graph.walk limits quest start).resolutions, resolve key = graph.resolve key) →
      ProofGraph.walk { graph with resolve := resolve } limits quest start =
        graph.walk limits quest start) ∧
    (∀ request now,
      (∀ cid ∈ ((reading config fetch verify).authorizeAt request now).resolutions,
        fetch' cid = fetch cid) →
      (reading config fetch' verify).authorizeAt request now =
        (reading config fetch verify).authorizeAt request now) ∧
    (∀ revoker target,
      (∀ cid ∈ ((reading config fetch verify).authorizeRevocation revoker target).resolutions,
        fetch' cid = fetch cid) →
      (reading config fetch' verify).authorizeRevocation revoker target =
        (reading config fetch verify).authorizeRevocation revoker target) ∧
    ∀ revoker target,
      (∀ cid ∈ ((reading config fetch verify).authorizeRevocationOf revoker target).resolutions,
        fetch' cid = fetch cid) →
      (reading config fetch' verify).authorizeRevocationOf revoker target =
        (reading config fetch verify).authorizeRevocationOf revoker target := by
  have loads : ∀ cid, fetch' cid = fetch cid →
      (Resolver.ofBlocks fetch' verify).load cid = (Resolver.ofBlocks fetch verify).load cid := by
    intro cid same
    exact Resolver.load_ofBlocks_congr same
  have resolves : ∀ cid, fetch' cid = fetch cid → (Resolver.ofBlocks fetch' verify).resolve cid =
      (Resolver.ofBlocks fetch verify).resolve cid := by
    intro cid same
    rw [Resolver.resolve, loads cid same, Resolver.resolve]
  refine ⟨?_, ?_, ?_, ?_⟩
  · intro limits resolve agree
    exact ProofGraph.walk_agree ⟨rfl, agree⟩
  · intro request now fetched
    exact authorizeAt_agree fun cid member => resolves cid (fetched cid member)
  · intro revoker target fetched
    exact Resolver.authorizeRevocation_agree fun cid member => resolves cid (fetched cid member)
  · intro revoker target fetched
    exact Resolver.authorizeRevocationOf_agree fun cid member => loads cid (fetched cid member)

open Resolver (shortProof)

/-- The depot once somebody has spoilt the block of the owner, and has stored one that Eve's
delegation may refer to. -/
def tampering : List BlockStore.Write :=
  [.putAt (shortProof 1) [],
   .putAt (shortProof 5) (Delegation.encode { issuer := "owner", audience := "eve" })]

/-- Neither block is fetched where three resolutions are allowed, be it for the request or for
the revocation of what the request presents. -/
theorem depot_decided_by_fetched :
    (depotService.authorizeAt depotRequest 0).resolutions =
      [shortProof 3, shortProof 2, shortProof 4] ∧
    authorizeAt { depotService with resolver := (depot.replay tampering).resolver } depotRequest 0 =
      depotService.authorizeAt depotRequest 0 ∧
    authorizeRevocation { depotService with resolver := (depot.replay tampering).resolver } "owner"
      depotRequest.credential = depotService.authorizeRevocation "owner" depotRequest.credential := by
  obtain ⟨_, requests, revocations, _⟩ := decided_by_fetched ProofGraph.detour
    ProofGraph.detourQuest 0 depotService.config depot.get (depot.replay tampering).get
    fun _ => .ok ()
  have log : (depotService.authorizeAt depotRequest 0).resolutions =
    [shortProof 3, shortProof 2, shortProof 4] := by decide +kernel
  have log' : (depotService.authorizeRevocation "owner" depotRequest.credential).resolutions =
    [shortProof 3, shortProof 2, shortProof 4] := by decide +kernel
  have untouched : ∀ cid ∈ [shortProof 3, shortProof 2, shortProof 4],
      (depot.replay tampering).get cid = depot.get cid := by
    intro cid fetched
    apply BlockStore.get_replay
    revert fetched cid
    decide
  exact ⟨log, requests depotRequest 0 (log ▸ untouched),
    revocations "owner" depotRequest.credential (log' ▸ untouched)⟩

end Authorizer

end DelegatedAuthority
