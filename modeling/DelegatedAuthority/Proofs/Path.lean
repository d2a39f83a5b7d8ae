import DelegatedAuthority.Search
/-!
Accepted paths: what a search looks for, said without it.

Nothing here knows of a stack, of what was seen before or of bounds. The same key may make an
edge out of one node and none out of another, and a path may pass through a node many times.
-/
namespace DelegatedAuthority.ProofGraph

variable {κ α : Type}

/-- An accepted edge: `parent` lists the key, it resolves to `node`, and the quest follows it. -/
structure Edge (graph : ProofGraph κ α) (quest : Quest α) (parent : α) (key : κ) (node : α) :
    Prop where
  listed : key ∈ graph.proofs parent
  resolves : graph.resolve key = some node
  followed : quest.follow parent node = true

/-- An accepted path of a given length from `start` to a node. -/
inductive Path (graph : ProofGraph κ α) (quest : Quest α) (start : α) : Nat → α → Prop
  | here : Path graph quest start 0 start
  | step {n : Nat} {parent : α} {key : κ} {node : α} : Path graph quest start n parent →
      graph.Edge quest parent key node → Path graph quest start (n + 1) node

end DelegatedAuthority.ProofGraph
