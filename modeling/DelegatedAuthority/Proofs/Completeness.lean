import DelegatedAuthority.Proofs.Reachability
import Mathlib.Algebra.BigOperators.Ring.Finset
import Mathlib.Algebra.Order.BigOperators.Group.Finset
import Mathlib.Order.Interval.Finset.Nat
/-!
Completeness up to the bound on hops.

A key may be followed once for every depth, so its proofs are resolved at most as often as
there are depths. A bound on resolutions that allows for this is never hit, and then a goal at
the end of a path that is short enough is found, in whatever order proofs are listed.
-/
namespace DelegatedAuthority

open ProofGraph

variable {κ α : Type}

/-- The number of proofs that the node behind a key lists. -/
def ProofGraph.proofCount (graph : ProofGraph κ α) (key : κ) : Nat :=
  match graph.resolve key with
  | some node => (graph.proofs node).length
  | none => 0

theorem ProofGraph.proofCount_of_resolve {graph : ProofGraph κ α} {key : κ} {node : α}
    (h : graph.resolve key = some node) :
    graph.proofCount key = (graph.proofs node).length := by
  rw [proofCount, h]

theorem Receding.nodup {followed : List (κ × Nat)} (h : Receding followed) : followed.Nodup := by
  refine List.Pairwise.imp ?_ h
  rintro later earlier less rfl
  exact Nat.lt_irrefl _ (less rfl)

theorem Receding.sum_le [DecidableEq κ] {followed : List (κ × Nat)} (h : Receding followed)
    (weight : κ → Nat) {keys : List κ} (nodup : keys.Nodup) {bound : Nat}
    (known : ∀ e ∈ followed, e.1 ∈ keys ∧ e.2 ∈ Finset.Icc 1 bound) :
    (followed.map fun e => weight e.1).sum ≤ bound * (keys.map weight).sum := by
  -- a key is followed at most once for each depth
  have among : followed.toFinset ⊆ keys.toFinset ×ˢ Finset.Icc 1 bound := by
    intro e member
    obtain ⟨key, depth⟩ := known e (List.mem_toFinset.mp member)
    exact Finset.mem_product.mpr ⟨List.mem_toFinset.mpr key, depth⟩
  calc (followed.map fun e => weight e.1).sum
      = ∑ e ∈ followed.toFinset, weight e.1 := (List.sum_toFinset _ h.nodup).symm
    _ ≤ ∑ e ∈ keys.toFinset ×ˢ Finset.Icc 1 bound, weight e.1 :=
        Finset.sum_le_sum_of_subset among
    _ = ∑ key ∈ keys.toFinset, bound * weight key := by simp [Finset.sum_product]
    _ = bound * (keys.map weight).sum := by
        rw [← Finset.mul_sum, List.sum_toFinset _ nodup]

namespace Search

variable {graph : ProofGraph κ α} {limits : Limits} {quest : Quest α} {start : α}
  {s s' : Search κ α}

/-- All resolutions are of proofs of the start or of proofs behind followed keys, and those
behind the keys on the stack are still to come. The bound has not been hit. -/
structure Paid (graph : ProofGraph κ α) (start : α) (s : Search κ α) : Prop where
  receding : Receding s.followed
  paid : s.resolutions.length + (s.stack.map fun e => graph.proofCount e.key).sum ≤
    (graph.proofs start).length + (s.followed.map fun e => graph.proofCount e.1).sum
  all : s.tooMany = false

theorem sum_entries (entries : List (Entry κ α)) (depth : Nat) :
    ((entries.map fun e => (e.key, depth)).reverse.map fun e => graph.proofCount e.1).sum =
      (entries.map fun e => graph.proofCount e.key).sum := by
  rw [List.map_reverse, List.sum_reverse, List.map_map]
  rfl

theorem Paid.skip {entry : Entry κ α} {rest : List (Entry κ α)} (h : Paid graph start s)
    (stack : s.stack = entry :: rest) : Paid graph start { s with stack := rest } := by
  have due := h.paid
  rw [stack, List.map_cons, List.sum_cons] at due
  refine ⟨h.receding, ?_, h.all⟩
  dsimp only
  omega

variable [DecidableEq κ]

theorem OnPaths.sum_le (h : OnPaths graph limits quest start s) (receding : Receding s.followed)
    {keys : List κ} (nodup : keys.Nodup)
    (closed : ∀ n parent key node, graph.Path quest start n parent →
      graph.Edge quest parent key node → key ∈ keys) :
    (s.followed.map fun e => graph.proofCount e.1).sum ≤
      limits.maxDepth.toNat * (keys.map graph.proofCount).sum := by
  apply receding.sum_le graph.proofCount nodup
  intro e member
  obtain ⟨n, parent, node, depth, less, path, edge, _⟩ := h.followed e member
  refine ⟨closed n parent e.1 node path edge, Finset.mem_Icc.mpr ?_⟩
  omega

theorem Paid.first {entries : List (Entry κ α)} {resolved : List κ}
    (below : Descended graph limits quest start 1 {} entries resolved s)
    (budget : (graph.proofs start).length ≤ limits.maxVisits.toNat) : Paid graph start s := by
  refine ⟨below.receding .nil, ?_, below.ample budget⟩
  have fewer := below.resolved_le
  rw [below.stack, below.resolutions, below.followed]
  simp only [List.append_nil, List.nil_append, sum_entries]
  omega

theorem Paid.descend {entry : Entry κ α} {rest entries : List (Entry κ α)} {resolved : List κ}
    (h : Paid graph start s) (stack : s.stack = entry :: rest)
    (resolves : graph.resolve entry.key = some entry.node)
    (below : Descended graph limits quest entry.node (entry.depth + 1) { s with stack := rest }
      entries resolved s')
    (budget : (graph.proofs start).length + (s.followed.map fun e => graph.proofCount e.1).sum ≤
      limits.maxVisits.toNat) : Paid graph start s' := by
  -- the proofs of an entry are paid for once it is off the stack, and not before
  have due := h.paid
  have count := proofCount_of_resolve resolves
  have fewer := below.resolved_le
  rw [stack, List.map_cons, List.sum_cons] at due
  have room : (graph.proofs entry.node).length ≤
      limits.maxVisits.toNat - s.resolutions.length := by omega
  refine ⟨below.receding h.receding, ?_, (below.ample room).trans h.all⟩
  rw [below.stack, below.resolutions, below.followed]
  simp only [List.map_append, List.sum_append, List.length_append, sum_entries]
  omega

/-- Where the bound on resolutions allows for every key at every depth, it is not hit. -/
theorem tooMany_search {keys : List κ} (nodup : keys.Nodup)
    (closed : ∀ n parent key node, graph.Path quest start n parent →
      graph.Edge quest parent key node → key ∈ keys)
    (budget : (graph.proofs start).length +
      limits.maxDepth.toNat * (keys.map graph.proofCount).sum ≤ limits.maxVisits.toNat) :
    (graph.search limits quest start).tooMany = false := by
  have both : OnPaths graph limits quest start (graph.search limits quest start) ∧
      Paid graph start (graph.search limits quest start) := by
    apply search_onPaths_and
    · intro _
      exact ⟨.nil, by simp, rfl⟩
    · intro entries resolved s _ below
      exact Paid.first below (by omega)
    · intro s entry rest stack _ h
      exact h.skip stack
    · intro s entry rest entries resolved s' stack onPaths resolves below h
      have cost := onPaths.sum_le h.receding nodup closed
      exact h.descend stack resolves below (by omega)
  exact both.2.all

end Search

namespace ProofGraph

variable [DecidableEq κ]

/-- A goal at the end of a path within the bound on hops is found, if resolutions are allowed
for the proofs of the start and, once for every depth, for those behind all keys that accepted
edges lead to. -/
theorem walk_complete {graph : ProofGraph κ α} {limits : Limits} {quest : Quest α} {start : α}
    {keys : List κ} (nodup : keys.Nodup)
    (closed : ∀ n parent key node, graph.Path quest start n parent →
      graph.Edge quest parent key node → key ∈ keys)
    (budget : (graph.proofs start).length +
      limits.maxDepth.toNat * (keys.map graph.proofCount).sum ≤ limits.maxVisits.toNat)
    {n : Nat} {node : α} (path : graph.Path quest start n node)
    (within : n ≤ limits.maxDepth.toNat) (goal : quest.goal node = true) :
    ∃ depth, (graph.walk limits quest start).traversal = .reached depth := by
  obtain ⟨onPaths, settled⟩ := Search.settled_search graph limits quest start
  have all := Search.tooMany_search nodup closed budget
  cases reached : (graph.search limits quest start).reached with
  | some depth => exact ⟨depth, Search.outcome_eq_reached.mpr reached⟩
  | none =>
    have missed := ((settled reached all).path onPaths (stack_search reached) path
      (.inl within)).1
    rw [goal] at missed
    cases missed

/-- A goal behind two branches. The one listed first is longer than the bound on hops, and it
lists the goal where the goal may not be followed. -/
def detour : ProofGraph (Fin 6) (Fin 6) where
  proofs
    | 0 => [1, 4]
    | 1 => [5, 2]
    | 2 => [3]
    | 3 => [5]
    | 4 => [3]
    | 5 => []
  resolve := some

def detourQuest : Quest (Fin 6) where
  follow parent node := parent != 1 || node != 5
  goal node := node == 5

def detourKeys : List (Fin 6) := [1, 2, 3, 4, 5]

theorem detour_path : detour.Path detourQuest 0 3 5 := by
  have first : detour.Path detourQuest 0 1 4 := .step .here ⟨by decide, rfl, by decide⟩
  have second : detour.Path detourQuest 0 2 3 := first.step ⟨by decide, rfl, by decide⟩
  exact second.step ⟨by decide, rfl, by decide⟩

theorem detour_closed : ∀ parent, ∀ key ∈ detour.proofs parent, key ∈ detourKeys := by decide

theorem walk_detour : detour.Path detourQuest 0 3 5 ∧
    (detour.proofs 0).length + 3 * (detourKeys.map detour.proofCount).sum = 17 ∧
    ∃ depth, (detour.walk ⟨3, 17⟩ detourQuest 0).traversal = .reached depth := by
  have nodup : detourKeys.Nodup := by decide
  refine ⟨detour_path, by decide, walk_complete nodup ?_ (by decide) detour_path (by decide) rfl⟩
  intro n parent key node _ edge
  exact detour_closed parent key edge.listed

end ProofGraph

end DelegatedAuthority
