import DelegatedAuthority.Proofs.Run
/-!
Searches and accepted paths: a goal that is reached lies on a path, and an exhausted search
leaves no goal on any path, however long.

Two invariants carry this. What a search has on record is on accepted paths (`OnPaths`), and
whatever it followed has been explored, is on the stack, or was followed again above
(`Settled`). The graph may be cyclic or infinite, so nothing is said about nodes in all.
-/
namespace DelegatedAuthority

open ProofGraph

variable {κ α : Type}

namespace Search

variable {graph : ProofGraph κ α} {limits : Limits} {quest : Quest α} {start : α}
  {s s' : Search κ α}

/-- Entries, followed keys and a goal that was reached lie on accepted paths. -/
structure OnPaths (graph : ProofGraph κ α) (limits : Limits) (quest : Quest α) (start : α)
    (s : Search κ α) : Prop where
  stack : ∀ e ∈ s.stack,
    graph.resolve e.key = some e.node ∧ graph.Path quest start e.depth e.node
  followed : ∀ e ∈ s.followed, ∃ n parent node, e.2 = n + 1 ∧ n < limits.maxDepth.toNat ∧
    graph.Path quest start n parent ∧ graph.Edge quest parent e.1 node ∧ quest.goal node = false
  reached : ∀ depth, s.reached = some depth → depth ≤ limits.maxDepth.toNat ∧
    ∃ node, graph.Path quest start depth node ∧ quest.goal node = true

theorem OnPaths.skip {rest : List (Entry κ α)} {entry : Entry κ α}
    (h : OnPaths graph limits quest start s) (stack : s.stack = entry :: rest) :
    OnPaths graph limits quest start { s with stack := rest } := by
  refine ⟨?_, h.followed, h.reached⟩
  intro e member
  apply h.stack
  rw [stack]
  exact List.mem_cons_of_mem entry member

variable [DecidableEq κ]

theorem OnPaths.descend {n : Nat} {parent : α} {entries : List (Entry κ α)} {resolved : List κ}
    (h : OnPaths graph limits quest start s) (path : graph.Path quest start n parent)
    (below : Descended graph limits quest parent (n + 1) s entries resolved s') :
    OnPaths graph limits quest start s' := by
  refine ⟨?_, ?_, ?_⟩
  · intro e member
    rw [below.stack] at member
    rcases List.mem_append.mp member with new | old
    · obtain ⟨depth, edge, _⟩ := below.edges e new
      exact ⟨edge.resolves, depth ▸ path.step edge⟩
    · exact h.stack e old
  · intro e member
    rw [below.followed] at member
    rcases List.mem_append.mp member with new | old
    · obtain ⟨entry, listed, rfl⟩ := List.mem_map.mp (List.mem_reverse.mp new)
      obtain ⟨_, edge, missed⟩ := below.edges entry listed
      exact ⟨n, parent, entry.node, rfl, below.depth_le listed, path, edge, missed⟩
    · exact h.followed e old
  · intro depth found
    rcases below.verdict with ⟨same, _⟩ | ⟨now, le, key, node, edge, goal⟩
    · exact h.reached depth (same ▸ found)
    · cases now.symm.trans found
      exact ⟨le, node, path.step edge, goal⟩

/-- The induction on a search, with what is known of the paths at every step. -/
theorem search_onPaths_and {P : Search κ α → Prop} (start : α)
    (found : quest.goal start = true → P { reached := some 0 })
    (looked : ∀ entries resolved s, quest.goal start = false →
      Descended graph limits quest start 1 {} entries resolved s → P s)
    (skipped : ∀ s entry rest, s.stack = entry :: rest →
      s.followedAbove entry.key entry.depth = true → P s → P { s with stack := rest })
    (descended : ∀ s entry rest entries resolved s', s.stack = entry :: rest →
      OnPaths graph limits quest start s → graph.resolve entry.key = some entry.node →
      Descended graph limits quest entry.node (entry.depth + 1) { s with stack := rest }
        entries resolved s' → P s → P s') :
    OnPaths graph limits quest start (graph.search limits quest start) ∧
      P (graph.search limits quest start) := by
  have empty : OnPaths graph limits quest start {} := ⟨nofun, nofun, nofun⟩
  apply searchAfter_induction (P := fun s => OnPaths graph limits quest start s ∧ P s)
  · intro goal
    refine ⟨⟨nofun, nofun, ?_⟩, found goal⟩
    intro depth reached
    cases reached
    exact ⟨Nat.zero_le _, start, .here, goal⟩
  · intro entries resolved s missed below
    exact ⟨empty.descend .here below, looked entries resolved s missed below⟩
  · intro s entry rest stack _ above h
    exact ⟨h.1.skip stack, skipped s entry rest stack above h.2⟩
  · intro s entry rest entries resolved s' stack _ below h
    obtain ⟨resolves, path⟩ := h.1.stack entry (by rw [stack]; exact List.mem_cons_self ..)
    exact ⟨(h.1.skip stack).descend path below,
      descended s entry rest entries resolved s' stack h.1 resolves below h.2⟩

/-- Of each key that was followed: it was followed again at a smaller depth, or its turn on the
stack is still to come, or what is to be `done` below it has been. -/
def Accounted (graph : ProofGraph κ α) (done : Nat → α → Prop) (s : Search κ α) : Prop :=
  ∀ key depth node, (key, depth) ∈ s.followed → graph.resolve key = some node →
    s.followedAbove key depth = true ∨ (∃ e ∈ s.stack, e.key = key ∧ e.depth = depth) ∨
      done depth node

/-- What is followed in a look at the proofs of a node is on the stack after it. -/
theorem Descended.mem_stack {parent : α} {depth : Nat} {entries : List (Entry κ α)}
    {resolved : List κ} (h : Descended graph limits quest parent depth s entries resolved s')
    {key : κ} {d : Nat} (member : (key, d) ∈ (entries.map fun e => (e.key, depth)).reverse) :
    ∃ e ∈ s'.stack, e.key = key ∧ e.depth = d := by
  obtain ⟨e, listed, same⟩ := List.mem_map.mp (List.mem_reverse.mp member)
  cases same
  refine ⟨e, ?_, rfl, (h.edges e listed).1⟩
  rw [h.stack]
  exact List.mem_append_left _ listed

section

variable {done done' : Nat → α → Prop} {entry : Entry κ α} {rest entries : List (Entry κ α)}
  {resolved : List κ}

theorem Accounted.looked (below : Descended graph limits quest start 1 {} entries resolved s) :
    Accounted graph done s := by
  intro key depth node member _
  rw [below.followed, List.append_nil] at member
  exact .inr (.inl (below.mem_stack member))

theorem Accounted.skip (h : Accounted graph done s) (stack : s.stack = entry :: rest)
    (above : s.followedAbove entry.key entry.depth = true) :
    Accounted graph done { s with stack := rest } := by
  intro key depth node member resolves
  rcases h key depth node member resolves with again | ⟨e, waiting, rfl, rfl⟩ | finished
  · exact .inl again
  · rw [stack] at waiting
    rcases List.mem_cons.mp waiting with rfl | later
    · exact .inl above
    · exact .inr (.inl ⟨e, later, rfl, rfl⟩)
  · exact .inr (.inr finished)

theorem Accounted.descend (h : Accounted graph done s) (stack : s.stack = entry :: rest)
    (resolves : graph.resolve entry.key = some entry.node)
    (below : Descended graph limits quest entry.node (entry.depth + 1) { s with stack := rest }
      entries resolved s') (kept : ∀ depth node, done depth node → done' depth node)
    (now : done' entry.depth entry.node) : Accounted graph done' s' := by
  intro key depth node member found
  rw [below.followed] at member
  rcases List.mem_append.mp member with new | old
  · exact .inr (.inl (below.mem_stack new))
  · rcases h key depth node old found with again | ⟨e, waiting, rfl, rfl⟩ | finished
    · exact .inl (followedAbove_mono below.kept again)
    · rw [stack] at waiting
      rcases List.mem_cons.mp waiting with rfl | later
      · cases resolves.symm.trans found
        exact .inr (.inr now)
      · refine .inr (.inl ⟨e, ?_, rfl, rfl⟩)
        rw [below.stack]
        exact List.mem_append_right _ later
    · exact .inr (.inr (kept depth node finished))

/-- With nothing left on the stack, all is done below a key for the least depth at which it was
followed. -/
theorem Accounted.least (h : Accounted graph done s) (empty : s.stack = []) {key : κ} {node : α}
    (resolves : graph.resolve key = some node) (depth : Nat) (member : (key, depth) ∈ s.followed) :
    ∃ d ≤ depth, (key, d) ∈ s.followed ∧ done d node := by
  -- a key that was followed again was so at a smaller depth, so this comes to an end
  induction depth using Nat.strongRecOn with
  | ind depth ih =>
    rcases h key depth node member resolves with again | ⟨e, waiting, _⟩ | finished
    · obtain ⟨⟨k, d⟩, earlier, rfl, less⟩ := followedAbove_iff.mp again
      obtain ⟨least, le, followed, finished⟩ := ih d less earlier
      exact ⟨least, Nat.le_trans le (Nat.le_of_lt less), followed, finished⟩
    · rw [empty] at waiting
      cases waiting
    · exact ⟨depth, Nat.le_refl _, member, finished⟩

end

/-- All that was followed has been explored, unless its turn on the stack is still to come or
it was followed again at a smaller depth. -/
structure Settled (graph : ProofGraph κ α) (limits : Limits) (quest : Quest α) (start : α)
    (s : Search κ α) : Prop where
  goal : quest.goal start = false
  start : s.Explored graph limits quest start 1
  followed : ∀ key depth node, (key, depth) ∈ s.followed → graph.resolve key = some node →
    s.followedAbove key depth = true ∨ (∃ e ∈ s.stack, e.key = key ∧ e.depth = depth) ∨
      s.Explored graph limits quest node (depth + 1)

theorem Settled.skip {entry : Entry κ α} {rest : List (Entry κ α)}
    (h : Settled graph limits quest start s) (stack : s.stack = entry :: rest)
    (above : s.followedAbove entry.key entry.depth = true) :
    Settled graph limits quest start { s with stack := rest } :=
  ⟨h.goal, h.start, Accounted.skip h.followed stack above⟩

theorem Settled.descend {entry : Entry κ α} {rest entries : List (Entry κ α)} {resolved : List κ}
    (h : Settled graph limits quest start s) (stack : s.stack = entry :: rest)
    (resolves : graph.resolve entry.key = some entry.node)
    (below : Descended graph limits quest entry.node (entry.depth + 1) { s with stack := rest }
      entries resolved s')
    (explored : s'.Explored graph limits quest entry.node (entry.depth + 1)) :
    Settled graph limits quest start s' := by
  have kept : s.followed ⊆ s'.followed := below.kept
  refine ⟨h.goal, h.start.mono kept below.tooDeep, ?_⟩
  apply Accounted.descend h.followed stack resolves below
  · intro depth node done
    exact done.mono kept below.tooDeep
  · exact explored

theorem Descended.explored {parent : α} {depth : Nat} {entries : List (Entry κ α)}
    {resolved : List κ} (h : Descended graph limits quest parent depth s entries resolved s')
    (unreached : s'.reached = none) (all : s'.tooMany = false) :
    s.reached = none ∧ s.tooMany = false ∧ s'.Explored graph limits quest parent depth := by
  rcases h.verdict with ⟨same, cut | explored⟩ | ⟨found, _⟩
  · rw [all] at cut
    cases cut
  · refine ⟨same ▸ unreached, ?_, explored⟩
    cases many : s.tooMany with
    | false => rfl
    | true => exact (h.tooMany many).symm.trans all
  · rw [unreached] at found
    cases found

theorem settled_search (graph : ProofGraph κ α) (limits : Limits) (quest : Quest α) (start : α) :
    OnPaths graph limits quest start (graph.search limits quest start) ∧
      ((graph.search limits quest start).reached = none →
        (graph.search limits quest start).tooMany = false →
        Settled graph limits quest start (graph.search limits quest start)) := by
  apply search_onPaths_and (P := fun s => s.reached = none → s.tooMany = false →
    Settled graph limits quest start s)
  · intro _ unreached
    cases unreached
  · intro entries resolved s missed below unreached all
    obtain ⟨_, _, explored⟩ := below.explored unreached all
    exact ⟨missed, explored, Accounted.looked below⟩
  · intro s entry rest stack above h unreached all
    exact (h unreached all).skip stack above
  · intro s entry rest entries resolved s' stack _ resolves below h unreached all
    obtain ⟨before, allBefore, explored⟩ := below.explored unreached all
    exact (h before allBefore).descend stack resolves below explored

theorem Settled.explored (h : Settled graph limits quest start s) (done : s.stack = [])
    {key : κ} {node : α} (resolves : graph.resolve key = some node) (depth : Nat)
    (member : (key, depth) ∈ s.followed) :
    ∃ d ≤ depth, s.Explored graph limits quest node (d + 1) := by
  obtain ⟨d, le, _, explored⟩ := Accounted.least h.followed done resolves depth member
  exact ⟨d, le, explored⟩

/-- A settled search with an empty stack has gone along every accepted path, as far as the
bound on hops allowed. -/
theorem Settled.path (h : Settled graph limits quest start s)
    (onPaths : OnPaths graph limits quest start s) (done : s.stack = []) {n : Nat} {node : α}
    (path : graph.Path quest start n node)
    (within : n ≤ limits.maxDepth.toNat ∨ s.tooDeep = false) :
    quest.goal node = false ∧ ∃ d ≤ n, s.Explored graph limits quest node (d + 1) := by
  -- a node may have been explored at a smaller depth than that of this path, never a greater
  induction path with
  | here => exact ⟨h.goal, 0, Nat.le_refl _, h.start⟩
  | @step n parent key node path edge ih =>
    obtain ⟨_, d, le, explored⟩ := ih (within.imp_left Nat.le_of_succ_le)
    rcases explored with ⟨below, noted⟩ | all
    · rw [noted] at within
      rcases within with within | none
      · omega
      · cases none
    · obtain ⟨⟨k, d'⟩, member, rfl, le'⟩ := followedWithin_iff.mp (all key node edge)
      obtain ⟨m, parent', node', _, _, _, edge', missed⟩ := onPaths.followed _ member
      cases edge'.resolves.symm.trans edge.resolves
      obtain ⟨least, least_le, done⟩ := h.explored done edge.resolves d' member
      exact ⟨missed, least, by dsimp only at le'; omega, done⟩

end Search

namespace ProofGraph

variable [DecidableEq κ]

theorem walk_reached {graph : ProofGraph κ α} {limits : Limits} {quest : Quest α} {start : α}
    {depth : Nat} (reached : (graph.walk limits quest start).traversal = .reached depth) :
    depth ≤ limits.maxDepth.toNat ∧
      ∃ node, graph.Path quest start depth node ∧ quest.goal node = true := by
  obtain ⟨onPaths, _⟩ := Search.settled_search graph limits quest start
  exact onPaths.reached depth (Search.outcome_eq_reached.mp reached)

theorem walk_exhausted {graph : ProofGraph κ α} {limits : Limits} {quest : Quest α} {start : α}
    (exhausted : (graph.walk limits quest start).traversal = .exhausted) {n : Nat} {node : α}
    (path : graph.Path quest start n node) : quest.goal node = false := by
  obtain ⟨onPaths, settled⟩ := Search.settled_search graph limits quest start
  obtain ⟨unreached, shallow, all⟩ := Search.outcome_eq_exhausted.mp exhausted
  exact ((settled unreached all).path onPaths (stack_search unreached) path (.inr shallow)).1

/-- Unless resolutions ran out, a goal at the end of a path within the bound on hops is found. -/
theorem walk_reaches {graph : ProofGraph κ α} {limits : Limits} {quest : Quest α} {start : α}
    (all : (graph.search limits quest start).tooMany = false) {n : Nat} {node : α}
    (path : graph.Path quest start n node) (within : n ≤ limits.maxDepth.toNat)
    (goal : quest.goal node = true) :
    ∃ depth, (graph.walk limits quest start).traversal = .reached depth := by
  obtain ⟨onPaths, settled⟩ := Search.settled_search graph limits quest start
  cases reached : (graph.search limits quest start).reached with
  | some depth => exact ⟨depth, Search.outcome_eq_reached.mpr reached⟩
  | none =>
    have missed := ((settled reached all).path onPaths (stack_search reached) path
      (.inl within)).1
    rw [goal] at missed
    cases missed

theorem Path.not_exhausted {graph : ProofGraph κ α} {quest : Quest α} {start node : α} {n : Nat}
    (path : graph.Path quest start n node) (goal : quest.goal node = true) (limits : Limits) :
    (graph.walk limits quest start).traversal ≠ .exhausted := by
  intro exhausted
  have missed := walk_exhausted exhausted path
  rw [goal] at missed
  cases missed

/-- A goal that a walk reaches lies on an accepted path of the depth it tells, and a walk that
is exhausted leaves no goal at the end of any accepted path, of whatever length. -/
theorem walk_exact (graph : ProofGraph κ α) (limits : Limits) (quest : Quest α) (start : α) :
    (∀ depth, (graph.walk limits quest start).traversal = .reached depth →
      depth ≤ limits.maxDepth.toNat ∧
        ∃ node, graph.Path quest start depth node ∧ quest.goal node = true) ∧
    ((graph.walk limits quest start).traversal = .exhausted →
      ∀ n node, graph.Path quest start n node → quest.goal node = false) := by
  constructor
  · intro depth reached
    exact walk_reached reached
  · intro exhausted n node path
    exact walk_exhausted exhausted path

/-- Three nodes in a ring, and a proof that nobody has seen. -/
def ring : ProofGraph (Fin 4) (Fin 4) where
  proofs
    | 0 => [3, 1]
    | 1 => [2]
    | 2 => [0]
    | 3 => []
  resolve key := if key = 3 then none else some key

def ringQuest (target : Fin 4) : Quest (Fin 4) where
  follow _ _ := true
  goal node := node == target

/-- The last node of the ring is reached, and however often one goes round, the unseen one is
not. -/
theorem walk_ring : (ring.walk ⟨2, 3⟩ (ringQuest 2) 0).traversal = .reached 2 ∧
    ring.Path (ringQuest 2) 0 2 2 ∧
    (ring.walk ⟨4, 6⟩ (ringQuest 3) 0).traversal = .exhausted ∧
    ∀ n, ¬ring.Path (ringQuest 3) 0 n 3 := by
  have reached : (ring.walk ⟨2, 3⟩ (ringQuest 2) 0).traversal = .reached 2 := by decide
  have exhausted : (ring.walk ⟨4, 6⟩ (ringQuest 3) 0).traversal = .exhausted := by decide
  obtain ⟨_, node, path, goal⟩ := (walk_exact ring ⟨2, 3⟩ (ringQuest 2) 0).1 2 reached
  have found : node = 2 := by simpa [ringQuest] using goal
  subst found
  refine ⟨reached, path, exhausted, ?_⟩
  intro n path
  have missed := (walk_exact ring ⟨4, 6⟩ (ringQuest 3) 0).2 exhausted n 3 path
  cases missed

end ProofGraph

end DelegatedAuthority
