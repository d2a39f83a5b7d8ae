import DelegatedAuthority.Proofs.Orders
/-!
Lines of proofs: where the bounds cut a search that has only one way to go.

On a line every node lists one proof, until one lists none. The search is then followed state by
state. It passes a node with each resolution, so both bounds are on the same number, and whichever
is lower decides.
-/
namespace DelegatedAuthority

variable {κ α : Type}

/-- The number of nodes that a search can pass on a line. -/
def Limits.reach (limits : Limits) : Nat :=
  min limits.maxDepth.toNat limits.maxVisits.toNat

namespace ProofGraph

/-- Nodes that list one key each, which resolves to the next of them, up to a node that lists none.
No key comes twice. -/
structure Line (graph : ProofGraph κ α) (length : Nat) where
  node : Nat → α
  key : Nat → κ
  proofs : ∀ i < length, graph.proofs (node i) = [key i]
  resolves : ∀ i < length, graph.resolve (key i) = some (node (i + 1))
  ends : graph.proofs (node length) = []
  distinct : ∀ i < length, ∀ j < length, key i = key j → i = j

namespace Line

variable {graph : ProofGraph κ α} {limits : Limits} {quest : Quest α} {length n : Nat}

/-- The search that has followed so many keys of a line, and has nothing on its stack. -/
def passed (line : graph.Line length) (n : Nat) : Search κ α where
  followed := ((List.range n).map fun i => (line.key i, i + 1)).reverse
  resolutions := (List.range n).map line.key

/-- The search that has just followed a key, and is to look at the node behind it. -/
def waiting (line : graph.Line length) (n : Nat) : Search κ α :=
  { line.passed (n + 1) with stack := [⟨line.key n, line.node (n + 1), n + 1⟩] }

theorem followed_succ (line : graph.Line length) (n : Nat) :
    (line.passed (n + 1)).followed = (line.key n, n + 1) :: (line.passed n).followed := by
  simp [passed, List.range_succ]

theorem resolutions_succ (line : graph.Line length) (n : Nat) :
    (line.passed (n + 1)).resolutions = (line.passed n).resolutions ++ [line.key n] := by
  simp [passed, List.range_succ]

theorem length_resolutions (line : graph.Line length) (n : Nat) :
    (line.passed n).resolutions.length = n := by
  simp [passed]

/-- The next key of a line was not followed before. -/
theorem ne_of_followed (line : graph.Line length) (more : n < length) :
    ∀ e ∈ (line.passed n).followed, e.1 ≠ line.key n := by
  intro e member same
  obtain ⟨i, before, rfl⟩ := List.mem_map.mp (List.mem_reverse.mp member)
  have earlier : i < n := List.mem_range.mp before
  have again : i = n := line.distinct i (by omega) n more same
  omega

theorem proofs_ne_nil (line : graph.Line length) (more : n < length) :
    graph.proofs (line.node n) ≠ [] := by
  rw [line.proofs n more]
  exact List.cons_ne_nil _ _

variable [DecidableEq κ]

/-- The look at a node of a line, when all keys before it have been followed. -/
def look (line : graph.Line length) (limits : Limits) (quest : Quest α) (n : Nat) : Search κ α :=
  (line.passed n).descend graph limits quest (line.node n) (n + 1)

theorem followedWithin_passed (line : graph.Line length) (more : n < length) :
    (line.passed n).followedWithin (line.key n) (n + 1) = false := by
  apply Bool.eq_false_iff.mpr
  intro known
  obtain ⟨e, member, same, _⟩ := Search.followedWithin_iff.mp known
  exact line.ne_of_followed more e member same

theorem eligible_passed (line : graph.Line length) (more : n < length) :
    (line.passed n).eligible graph (line.node n) (n + 1) = [line.key n] := by
  simp [Search.eligible, line.proofs n more, line.followedWithin_passed more]

theorem admitted_passed (line : graph.Line length) (limits : Limits) (more : n < length) :
    (line.passed n).admitted graph limits (line.node n) (n + 1) =
      [line.key n].take (limits.maxVisits.toNat - n) := by
  rw [Search.admitted, line.eligible_passed more, length_resolutions]

theorem look_end (line : graph.Line length) :
    line.look limits quest length = line.passed length := by
  rw [look, Search.descend_of_expand (Search.expand_of_isEmpty line.ends)]
  rfl

/-- Where either bound is used up, the look at a node with a proof notes that and nothing else. -/
theorem look_cut (line : graph.Line length) (more : n < length) (cut : limits.reach ≤ n) :
    (line.look limits quest n).isOver = true ∧
      (line.look limits quest n).outcome = .truncated := by
  by_cases deep : limits.maxDepth.toNat < n + 1
  · rw [look, Search.descend_of_expand (Search.expand_of_tooDeep (line.proofs_ne_nil more) deep)]
    exact ⟨rfl, rfl⟩
  · have used : limits.maxVisits.toNat - n = 0 := by
      unfold Limits.reach at cut
      omega
    have admitted := line.admitted_passed limits more
    rw [used, List.take_zero] at admitted
    rw [look, Search.descend_of_expand
      (Search.expand_of_le (line.proofs_ne_nil more) (Nat.le_of_not_lt deep)),
      Search.loaded, Search.charged, admitted, line.eligible_passed more]
    exact ⟨rfl, rfl⟩

/-- Where neither bound is used up, the look at a node resolves its proof. -/
theorem expand_passed (line : graph.Line length) (more : n < length) (within : n < limits.reach) :
    (line.passed n).expand graph limits (line.node n) (n + 1) =
      ([(line.key n, line.node (n + 1))],
        { line.passed n with resolutions := (line.passed (n + 1)).resolutions }) := by
  unfold Limits.reach at within
  have admitted := line.admitted_passed limits more
  rw [List.take_of_length_le (by simp only [List.length_singleton]; omega)] at admitted
  rw [Search.expand_of_le (line.proofs_ne_nil more) (by omega), Search.loaded, Search.charged,
    admitted, line.eligible_passed more, resolutions_succ]
  simp only [List.filterMap_cons, List.filterMap_nil, line.resolves n more, Option.map_some,
    Nat.lt_irrefl, decide_false, Bool.or_false]

theorem look_goal (line : graph.Line length) (more : n < length) (within : n < limits.reach)
    (followed : quest.follow (line.node n) (line.node (n + 1)) = true)
    (goal : quest.goal (line.node (n + 1)) = true) :
    (line.look limits quest n).isOver = true ∧
      (line.look limits quest n).outcome = .reached (n + 1) := by
  rw [look, Search.descend_of_expand (line.expand_passed more within)]
  simp [Search.accept, followed, goal, Search.isOver, Search.outcome]

/-- Unless it is a goal, the next node of a line is what the search looks at next. -/
theorem look_next (line : graph.Line length) (more : n < length) (within : n < limits.reach)
    (followed : quest.follow (line.node n) (line.node (n + 1)) = true)
    (missed : quest.goal (line.node (n + 1)) = false) :
    line.look limits quest n = line.waiting n := by
  have fresh : Search.followedWithin
      { line.passed n with resolutions := (line.passed (n + 1)).resolutions }
      (line.key n) (n + 1) = false := line.followedWithin_passed more
  rw [look, Search.descend_of_expand (line.expand_passed more within)]
  simp only [Search.accept, followed, missed, fresh, Bool.not_true, Bool.false_eq_true, if_false]
  simp [waiting, passed, List.range_succ]

theorem step_waiting (line : graph.Line length) (more : n < length) :
    (line.waiting n).step graph limits quest = line.look limits quest (n + 1) := by
  have below : (line.waiting n).followedAbove (line.key n) (n + 1) = false := by
    apply Bool.eq_false_iff.mpr
    intro above
    obtain ⟨e, member, same, less⟩ := Search.followedAbove_iff.mp above
    -- the key is followed as the latest of all, and not above itself
    rcases List.mem_cons.mp (line.followed_succ n ▸ member) with rfl | earlier
    · exact Nat.lt_irrefl _ less
    · exact line.ne_of_followed more e earlier same
  rcases Search.step_cases graph limits quest (s := line.waiting n) rfl with ⟨above, _⟩ | ⟨_, eq⟩
  · rw [below] at above
    cases above
  · exact eq

/-- A search passes the nodes of a line one by one, as long as none is a goal and the bounds
allow it. -/
theorem search_eq (line : graph.Line length)
    (followed : ∀ i < length, quest.follow (line.node i) (line.node (i + 1)) = true)
    (on : n ≤ length) (within : n ≤ limits.reach)
    (missed : ∀ i ≤ n, quest.goal (line.node i) = false) :
    graph.search limits quest (line.node 0) =
      Search.run graph limits quest (limits.maxVisits.toNat - n) (line.look limits quest n) := by
  induction n with
  | zero =>
    rw [search, Search.first, missed 0 (Nat.le_refl 0)]
    rfl
  | succ n ih =>
    have next := line.look_next on within (followed n on) (missed (n + 1) (Nat.le_refl _))
    have count : limits.maxVisits.toNat - n = limits.maxVisits.toNat - (n + 1) + 1 := by
      unfold Limits.reach at within
      omega
    rw [ih (Nat.le_of_succ_le on) (Nat.le_of_succ_le within)
      fun i le => missed i (Nat.le_succ_of_le le), next, count, Search.run_succ rfl,
      line.step_waiting on]

/-- A look that ends the search tells what the walk along the line comes to. -/
theorem walk_eq (line : graph.Line length)
    (followed : ∀ i < length, quest.follow (line.node i) (line.node (i + 1)) = true)
    (on : n ≤ length) (within : n ≤ limits.reach)
    (missed : ∀ i ≤ n, quest.goal (line.node i) = false) {outcome : Traversal}
    (ended : (line.look limits quest n).isOver = true ∧
      (line.look limits quest n).outcome = outcome) :
    (graph.walk limits quest (line.node 0)).traversal = outcome := by
  rw [walk, line.search_eq followed on within missed, Search.run_of_isOver ended.1]
  exact ended.2

theorem walk_cut (line : graph.Line length)
    (followed : ∀ i < length, quest.follow (line.node i) (line.node (i + 1)) = true)
    (more : limits.reach < length)
    (missed : ∀ i ≤ limits.reach, quest.goal (line.node i) = false) :
    (graph.walk limits quest (line.node 0)).traversal = .truncated :=
  line.walk_eq followed (Nat.le_of_lt more) (Nat.le_refl _) missed
    (line.look_cut more (Nat.le_refl _))

/-- The first goal on a line is found if the bounds allow as many hops, and as many resolutions,
as it is away from the start. -/
theorem walk_goal (line : graph.Line length)
    (followed : ∀ i < length, quest.follow (line.node i) (line.node (i + 1)) = true)
    (on : n ≤ length) (goal : quest.goal (line.node n) = true)
    (missed : ∀ i < n, quest.goal (line.node i) = false) :
    (graph.walk limits quest (line.node 0)).traversal =
      if n ≤ limits.reach then .reached n else .truncated := by
  by_cases within : n ≤ limits.reach
  · rw [if_pos within]
    cases n with
    | zero => rw [walk_of_goal goal]
    | succ n =>
      exact line.walk_eq followed (Nat.le_of_succ_le on) (Nat.le_of_succ_le within)
        (fun i le => missed i (Nat.lt_succ_of_le le))
        (line.look_goal on within (followed n on) goal)
  · have less := Nat.lt_of_not_le within
    rw [if_neg within]
    exact line.walk_cut followed (Nat.lt_of_lt_of_le less on)
      fun i le => missed i (Nat.lt_of_le_of_lt le less)

/-- That a line has no goal is found out if the bounds allow the search to pass all of it. -/
theorem walk_no_goal (line : graph.Line length)
    (followed : ∀ i < length, quest.follow (line.node i) (line.node (i + 1)) = true)
    (missed : ∀ i ≤ length, quest.goal (line.node i) = false) :
    (graph.walk limits quest (line.node 0)).traversal =
      if length ≤ limits.reach then .exhausted else .truncated := by
  by_cases within : length ≤ limits.reach
  · rw [if_pos within]
    apply line.walk_eq followed (Nat.le_refl _) within missed
    rw [line.look_end]
    exact ⟨rfl, rfl⟩
  · have less := Nat.lt_of_not_le within
    rw [if_neg within]
    exact line.walk_cut followed less fun i le => missed i (Nat.le_trans le (Nat.le_of_lt less))

end Line

end ProofGraph

namespace Resolver

variable {resolver : Resolver} {length : Nat}

/-- On a line of proofs the limits cut exactly at the boundary. The first delegation that a
principal issued is found if it is no further away than the lower of the two limits, and that
there is none is found out if the whole line is no longer. It takes a line that is addressed all
the way to trace authority along it; standing comes from any. -/
theorem limits_cut_line (line : resolver.graph.Line length) (limits : Limits) (p : Principal) :
    (∀ n ≤ length, (line.node n).issuer = p → (∀ i < n, (line.node i).issuer ≠ p) →
      (resolver.hasStanding limits p (line.node 0)).verdict =
        (if n ≤ limits.reach then .ok true
          else .error (.depthExceeded (limits.describe ++ " while looking for " ++ p))) ∧
      ((∀ i < length, (line.node (i + 1)).audience = (line.node i).issuer) →
        (resolver.traceToRoot limits p (line.node 0)).traversal =
          if n ≤ limits.reach then .reached n else .truncated)) ∧
    ((∀ i ≤ length, (line.node i).issuer ≠ p) →
      (resolver.hasStanding limits p (line.node 0)).verdict =
        (if length ≤ limits.reach then .ok false
          else .error (.depthExceeded (limits.describe ++ " while looking for " ++ p))) ∧
      ((∀ i < length, (line.node (i + 1)).audience = (line.node i).issuer) →
        (resolver.traceToRoot limits p (line.node 0)).traversal =
          if length ≤ limits.reach then .exhausted else .truncated)) := by
  constructor
  · intro n on issued others
    have goal : ((line.node n).issuer == p) = true := beq_iff_eq.mpr issued
    have missed : ∀ i < n, ((line.node i).issuer == p) = false :=
      fun i less => beq_eq_false_iff_ne.mpr (others i less)
    constructor
    · have walked : (resolver.graph.walk limits (.toRevoker p) (line.node 0)).traversal = _ :=
        line.walk_goal (fun _ _ => rfl) on goal missed
      rw [hasStanding_verdict, walked]
      by_cases within : n ≤ limits.reach
      · rw [if_pos within, if_pos within]
        rfl
      · rw [if_neg within, if_neg within]
        rfl
    · intro addressed
      exact line.walk_goal (fun i less => beq_iff_eq.mpr (addressed i less)) on goal missed
  · intro others
    have missed : ∀ i ≤ length, ((line.node i).issuer == p) = false :=
      fun i le => beq_eq_false_iff_ne.mpr (others i le)
    constructor
    · have walked : (resolver.graph.walk limits (.toRevoker p) (line.node 0)).traversal = _ :=
        line.walk_no_goal (fun _ _ => rfl) missed
      rw [hasStanding_verdict, walked]
      by_cases within : length ≤ limits.reach
      · rw [if_pos within, if_pos within]
        rfl
      · rw [if_neg within, if_neg within]
        rfl
    · intro addressed
      exact line.walk_no_goal (fun i less => beq_iff_eq.mpr (addressed i less)) missed

/-- The line of proofs from Bob's delegation to that of the owner. -/
def relayLine : relay.graph.Line 2 where
  node
    | 0 => relayed
    | 1 => { issuer := "alice", audience := "bob", proofs := [shortProof 1] }
    | _ => { issuer := "owner", audience := "alice" }
  key
    | 0 => shortProof 2
    | _ => shortProof 1
  proofs
    | 0, _ => rfl
    | 1, _ => rfl
  resolves
    | 0, _ => rfl
    | 1, _ => rfl
  ends := rfl
  distinct := by decide

theorem relay_cut :
    (relay.traceToRoot ⟨2, 9⟩ "owner" relayed).traversal = .reached 2 ∧
    (relay.traceToRoot ⟨9, 1⟩ "owner" relayed).traversal = .truncated ∧
    (relay.traceToRoot ⟨9, 2⟩ "stranger" relayed).traversal = .exhausted ∧
    (relay.traceToRoot ⟨1, 9⟩ "stranger" relayed).traversal = .truncated ∧
    (relay.hasStanding ⟨2, 2⟩ "owner" relayed).verdict = .ok true ∧
    (relay.hasStanding ⟨2, 2⟩ "stranger" relayed).verdict = .ok false := by
  have addressed : ∀ i < 2, (relayLine.node (i + 1)).audience = (relayLine.node i).issuer := by
    decide
  have first : ∀ i < 2, (relayLine.node i).issuer ≠ "owner" := by decide
  have none : ∀ i ≤ 2, (relayLine.node i).issuer ≠ "stranger" := by decide
  have owner := fun limits =>
    (limits_cut_line relayLine limits "owner").1 2 (Nat.le_refl 2) rfl first
  have stranger := fun limits => (limits_cut_line relayLine limits "stranger").2 none
  exact ⟨(owner ⟨2, 9⟩).2 addressed, (owner ⟨9, 1⟩).2 addressed, (stranger ⟨9, 2⟩).2 addressed,
    (stranger ⟨1, 9⟩).2 addressed, (owner ⟨2, 2⟩).1, (stranger ⟨2, 2⟩).1⟩

end Resolver

end DelegatedAuthority
