import DelegatedAuthority.Limits
/-!
A bounded depth-first search through a graph that untrusted parties supply.

A node lists keys, and a key may resolve to a node. The graph may be cyclic or infinite, and
the same key may be followed from one node and not from another. Keys are followed again only
at a smaller depth than before; the bounds of `Limits` are on hops and on resolutions. The
search answers `truncated` when a bound cut it short, so `exhausted` means that there was
nothing more to see.
-/
namespace DelegatedAuthority

/-- Nodes of type `α` that list keys of type `κ`, and the nodes that the keys resolve to. -/
structure ProofGraph (κ α : Type) where
  proofs : α → List κ
  resolve : κ → Option α

/-- Which resolved proofs of a node are followed, and at which nodes the search ends. -/
structure Quest (α : Type) where
  follow : α → α → Bool
  goal : α → Bool

inductive Traversal where
  /-- A node satisfying the goal was found, this many hops below the start. -/
  | reached (depth : Nat)
  /-- Every branch was explored to its end. -/
  | exhausted
  /-- The goal was not found, and a bound cut some branch short. -/
  | truncated
  deriving DecidableEq, Repr

def Traversal.isReached : Traversal → Bool
  | reached _ => true
  | _ => false

/-- A followed proof whose own proofs have yet to be looked at. -/
structure Entry (κ α : Type) where
  key : κ
  node : α
  depth : Nat

structure Search (κ α : Type) where
  /-- What to look at, the next one first. -/
  stack : List (Entry κ α) := []
  /-- Every key followed, with its depth, the latest first. -/
  followed : List (κ × Nat) := []
  /-- Every key resolved, in order. -/
  resolutions : List κ := []
  /-- Whether the bound on hops was hit. -/
  tooDeep : Bool := false
  /-- Whether the bound on resolutions was hit. -/
  tooMany : Bool := false
  /-- The depth of the goal, once it is found. -/
  reached : Option Nat := none

namespace Search

variable {κ α : Type}

def isOver (s : Search κ α) : Bool :=
  s.reached.isSome || s.stack.isEmpty

def outcome (s : Search κ α) : Traversal :=
  match s.reached with
  | some depth => .reached depth
  | none => if s.tooDeep || s.tooMany then .truncated else .exhausted

variable [DecidableEq κ]

def followedWithin (s : Search κ α) (key : κ) (depth : Nat) : Bool :=
  s.followed.any fun e => e.1 = key && e.2 ≤ depth

def followedAbove (s : Search κ α) (key : κ) (depth : Nat) : Bool :=
  s.followed.any fun e => e.1 = key && e.2 < depth

/-- Resolves the proofs of `parent`, which sit at `depth`, as far as the bounds allow. Those
followed at that depth or above are passed over, and those that do not resolve are dropped. -/
def expand (graph : ProofGraph κ α) (limits : Limits) (parent : α) (depth : Nat)
    (s : Search κ α) : List (κ × α) × Search κ α :=
  if (graph.proofs parent).isEmpty then ([], s)
  else if limits.maxDepth.toNat < depth then ([], { s with tooDeep := true })
  else
    let eligible := (graph.proofs parent).filter fun key => !s.followedWithin key depth
    let admitted := eligible.take (limits.maxVisits.toNat - s.resolutions.length)
    (admitted.filterMap fun key => (graph.resolve key).map fun node => (key, node),
      { s with
        resolutions := s.resolutions ++ admitted
        tooMany := s.tooMany || admitted.length < eligible.length })

/-- Tests the resolved proofs of `parent` in order, until one satisfies the goal. The ones to
follow are recorded and handed back. -/
def accept (quest : Quest α) (parent : α) (depth : Nat) :
    List (κ × α) → Search κ α → List (Entry κ α) × Search κ α
  | [], s => ([], s)
  | (key, node) :: rest, s =>
    if !quest.follow parent node then accept quest parent depth rest s
    else if quest.goal node then ([], { s with reached := some depth })
    else if s.followedWithin key depth then accept quest parent depth rest s
    else
      let (entries, s) :=
        accept quest parent depth rest { s with followed := (key, depth) :: s.followed }
      (⟨key, node, depth⟩ :: entries, s)

/-- Resolves and tests the proofs of `parent`, and puts those to follow on the stack. -/
def descend (graph : ProofGraph κ α) (limits : Limits) (quest : Quest α) (parent : α)
    (depth : Nat) (s : Search κ α) : Search κ α :=
  let (proofs, s) := s.expand graph limits parent depth
  let (entries, s) := accept quest parent depth proofs s
  { s with stack := entries ++ s.stack }

/-- Takes one entry off the stack and descends below it, unless its key has since been
followed at a smaller depth. -/
def step (graph : ProofGraph κ α) (limits : Limits) (quest : Quest α) (s : Search κ α) :
    Search κ α :=
  match s.stack with
  | [] => s
  | entry :: rest =>
    let s := { s with stack := rest }
    if s.followedAbove entry.key entry.depth then s
    else s.descend graph limits quest entry.node (entry.depth + 1)

def run (graph : ProofGraph κ α) (limits : Limits) (quest : Quest α) :
    Nat → Search κ α → Search κ α
  | 0, s => s
  | count + 1, s =>
    if s.isOver then s else run graph limits quest count (s.step graph limits quest)

def first (graph : ProofGraph κ α) (limits : Limits) (quest : Quest α) (start : α) :
    Search κ α :=
  if quest.goal start then { reached := some 0 }
  else ({} : Search κ α).descend graph limits quest start 1

end Search

structure Walk (κ : Type) where
  traversal : Traversal
  resolutions : List κ
  deriving DecidableEq, Repr

namespace ProofGraph

variable {κ α : Type} [DecidableEq κ]

/-- The search below `start`, run to its end. Each step takes an entry off the stack that some
resolution has put there, so there are no more steps than resolutions. -/
def search (graph : ProofGraph κ α) (limits : Limits) (quest : Quest α) (start : α) :
    Search κ α :=
  Search.run graph limits quest limits.maxVisits.toNat (Search.first graph limits quest start)

def walk (graph : ProofGraph κ α) (limits : Limits) (quest : Quest α) (start : α) : Walk κ :=
  let s := graph.search limits quest start
  ⟨s.outcome, s.resolutions⟩

end ProofGraph

end DelegatedAuthority
