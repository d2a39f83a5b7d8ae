import DelegatedAuthority.Proofs.Reachability
/-!
What a search that had resolutions enough tells of a graph, whatever order it took.

It finds a goal if one lies within the bound on hops. If none does, whether it is exhausted or
truncated is settled by what lies at the bound, except where all of that was met above the
bound as well: such a proof may have been looked at in its place at the bound before it was
followed again above it, or may have been passed over there.
-/
namespace DelegatedAuthority

variable {κ α : Type}

namespace ProofGraph

/-- What an accepted path of a given length leads to, and the key that it comes by. The start
comes by none. -/
inductive Arrival (graph : ProofGraph κ α) (quest : Quest α) (start : α) :
    Nat → Option κ → α → Prop
  | here : Arrival graph quest start 0 none start
  | proof {n : Nat} {parent : α} {key : κ} {node : α} : graph.Path quest start n parent →
      graph.Edge quest parent key node → Arrival graph quest start (n + 1) (some key) node

/-- What comes by this key at this depth lists proofs. -/
def Lists (graph : ProofGraph κ α) (quest : Quest α) (start : α) (depth : Nat)
    (key : Option κ) : Prop :=
  ∃ node, graph.Arrival quest start depth key node ∧ graph.proofs node ≠ []

/-- Proofs are listed at the bound on hops, where they are not looked at. -/
def AtBound (graph : ProofGraph κ α) (limits : Limits) (quest : Quest α) (start : α) : Prop :=
  ∃ key, graph.Lists quest start limits.maxDepth.toNat key

/-- Proofs are listed at the bound by something that does not come above it. -/
def BeyondBound (graph : ProofGraph κ α) (limits : Limits) (quest : Quest α) (start : α) : Prop :=
  ∃ key, graph.Lists quest start limits.maxDepth.toNat key ∧
    ∀ depth < limits.maxDepth.toNat, ¬ ∃ node, graph.Arrival quest start depth key node

/-- Proofs are listed at the bound, but by nothing that does not come above it as well. -/
def Revisited (graph : ProofGraph κ α) (limits : Limits) (quest : Quest α) (start : α) : Prop :=
  graph.AtBound limits quest start ∧ ¬ graph.BeyondBound limits quest start

end ProofGraph

namespace Search

variable [DecidableEq κ] {graph : ProofGraph κ α} {limits : Limits} {quest : Quest α} {start : α}
  {s s' : Search κ α}

omit [DecidableEq κ] in
theorem OnPaths.arrival (h : OnPaths graph limits quest start s) {key : κ} {node : α}
    {depth : Nat} (followed : (key, depth) ∈ s.followed) (resolves : graph.resolve key = some node) :
    depth ≤ limits.maxDepth.toNat ∧ graph.Arrival quest start depth (some key) node := by
  obtain ⟨n, parent, node', rfl, less, path, edge, _⟩ := h.followed _ followed
  cases edge.resolves.symm.trans resolves
  exact ⟨less, .proof path edge⟩

/-- That a bound on hops was hit is noted where proofs are listed at the bound, and only there. -/
structure Sounded (graph : ProofGraph κ α) (limits : Limits) (quest : Quest α) (start : α)
    (s : Search κ α) : Prop where
  queued : ∀ e ∈ s.stack, (e.key, e.depth) ∈ s.followed
  noted : s.tooDeep = true → graph.AtBound limits quest start
  start : limits.maxDepth.toNat = 0 → graph.proofs start ≠ [] → s.tooDeep = true
  followed : s.Accounted graph fun depth node =>
    limits.maxDepth.toNat = depth → graph.proofs node ≠ [] → s.tooDeep = true

theorem Descended.queued {parent : α} {depth : Nat} {entries : List (Entry κ α)}
    {resolved : List κ} (h : Descended graph limits quest parent depth s entries resolved s')
    (before : ∀ e ∈ s.stack, (e.key, e.depth) ∈ s.followed) :
    ∀ e ∈ s'.stack, (e.key, e.depth) ∈ s'.followed := by
  intro e member
  rw [h.stack] at member
  rcases List.mem_append.mp member with new | old
  · rw [h.followed, (h.edges e new).1]
    exact List.mem_append_left _ (List.mem_reverse.mpr (List.mem_map_of_mem new))
  · exact h.kept (before e old)

/-- A look at proofs notes the bound if they are listed by what came at it. -/
theorem Descended.noted_at {parent : α} {depth : Nat} {entries : List (Entry κ α)}
    {resolved : List κ} (h : Descended graph limits quest parent (depth + 1) s entries resolved s')
    (bound : limits.maxDepth.toNat = depth) (lists : graph.proofs parent ≠ []) :
    s'.tooDeep = true :=
  h.noted.mpr (.inr ⟨lists, by omega⟩)

theorem Descended.atBound {parent : α} {depth : Nat} {key : Option κ}
    {entries : List (Entry κ α)} {resolved : List κ}
    (h : Descended graph limits quest parent (depth + 1) s entries resolved s')
    (before : s.tooDeep = true → graph.AtBound limits quest start)
    (within : depth ≤ limits.maxDepth.toNat) (arrival : graph.Arrival quest start depth key parent)
    (noted : s'.tooDeep = true) : graph.AtBound limits quest start := by
  rcases h.noted.mp noted with was | ⟨lists, below⟩
  · exact before was
  · have bound : limits.maxDepth.toNat = depth := by omega
    exact ⟨key, parent, bound ▸ arrival, lists⟩

theorem Sounded.looked {entries : List (Entry κ α)} {resolved : List κ}
    (below : Descended graph limits quest start 1 {} entries resolved s) :
    Sounded graph limits quest start s where
  queued := below.queued nofun
  noted := below.atBound nofun (Nat.zero_le _) .here
  start bound lists := below.noted_at bound lists
  followed := .looked below

theorem Sounded.skip {entry : Entry κ α} {rest : List (Entry κ α)}
    (h : Sounded graph limits quest start s) (stack : s.stack = entry :: rest)
    (above : s.followedAbove entry.key entry.depth = true) :
    Sounded graph limits quest start { s with stack := rest } where
  queued e member := h.queued e (stack ▸ List.mem_cons_of_mem entry member)
  noted := h.noted
  start := h.start
  followed := h.followed.skip stack above

theorem Sounded.descend {entry : Entry κ α} {rest entries : List (Entry κ α)} {resolved : List κ}
    (h : Sounded graph limits quest start s) (onPaths : OnPaths graph limits quest start s)
    (stack : s.stack = entry :: rest) (resolves : graph.resolve entry.key = some entry.node)
    (below : Descended graph limits quest entry.node (entry.depth + 1) { s with stack := rest }
      entries resolved s') : Sounded graph limits quest start s' := by
  have first : (entry.key, entry.depth) ∈ s.followed :=
    h.queued entry (stack ▸ List.mem_cons_self ..)
  obtain ⟨within, arrival⟩ := onPaths.arrival first resolves
  constructor
  case queued =>
    apply below.queued
    intro e member
    exact h.queued e (stack ▸ List.mem_cons_of_mem entry member)
  case noted => exact below.atBound h.noted within arrival
  case start =>
    intro bound lists
    exact below.tooDeep (h.start bound lists)
  case followed =>
    apply h.followed.descend stack resolves below
    · intro depth node done bound lists
      exact below.tooDeep (done bound lists)
    · exact below.noted_at

theorem sounded_search (graph : ProofGraph κ α) (limits : Limits) {quest : Quest α} {start : α}
    (missed : quest.goal start = false) :
    OnPaths graph limits quest start (graph.search limits quest start) ∧
      Sounded graph limits quest start (graph.search limits quest start) := by
  apply search_onPaths_and
  · intro goal
    rw [missed] at goal
    cases goal
  · intro entries resolved s _ below
    exact .looked below
  · intro s entry rest stack above h
    exact h.skip stack above
  · intro s entry rest entries resolved s' stack onPaths resolves below h
    exact h.descend onPaths stack resolves below

/-- A search that went everywhere has noted what it could not look at. -/
theorem Sounded.tooDeep (h : Sounded graph limits quest start s)
    (settled : Settled graph limits quest start s) (onPaths : OnPaths graph limits quest start s)
    (done : s.stack = []) (beyond : graph.BeyondBound limits quest start) : s.tooDeep = true := by
  obtain ⟨key, ⟨node, arrival, lists⟩, nearest⟩ := beyond
  generalize bound : limits.maxDepth.toNat = depth at arrival nearest
  cases arrival with
  | here => exact h.start bound lists
  | @proof n parent key node path edge =>
    obtain ⟨_, d, le, explored⟩ := settled.path onPaths done path (.inl (by omega))
    rcases explored with ⟨_, noted⟩ | all
    · exact noted
    · -- the key was followed within the bound, and it comes at no depth above it
      obtain ⟨⟨k, d'⟩, member, rfl, le'⟩ := followedWithin_iff.mp (all key node edge)
      obtain ⟨least, least_le, followed, noted⟩ := h.followed.least done edge.resolves d' member
      obtain ⟨within, arrival⟩ := onPaths.arrival followed edge.resolves
      refine noted (Nat.le_antisymm ?_ within) lists
      apply Nat.le_of_not_lt
      intro above
      exact nearest least (bound ▸ above) ⟨node, arrival⟩

end Search

namespace ProofGraph

variable [DecidableEq κ] {graph : ProofGraph κ α} {limits : Limits} {quest : Quest α} {start : α}

theorem atBound_of_truncated (all : (graph.search limits quest start).tooMany = false)
    (truncated : (graph.walk limits quest start).traversal = .truncated) :
    graph.AtBound limits quest start := by
  obtain ⟨_, settles⟩ := Search.settled_search graph limits quest start
  obtain ⟨unreached, deep | many⟩ := Search.outcome_eq_truncated.mp truncated
  · obtain ⟨_, sounded⟩ := Search.sounded_search graph limits (settles unreached all).goal
    exact sounded.noted deep
  · rw [all] at many
    cases many

theorem not_beyondBound_of_exhausted
    (exhausted : (graph.walk limits quest start).traversal = .exhausted) :
    ¬ graph.BeyondBound limits quest start := by
  intro beyond
  obtain ⟨onPaths, settles⟩ := Search.settled_search graph limits quest start
  obtain ⟨unreached, shallow, all⟩ := Search.outcome_eq_exhausted.mp exhausted
  have settled := settles unreached all
  obtain ⟨_, sounded⟩ := Search.sounded_search graph limits settled.goal
  have noted := sounded.tooDeep settled onPaths (stack_search unreached) beyond
  rw [shallow] at noted
  cases noted

end ProofGraph

end DelegatedAuthority
