import DelegatedAuthority.Proofs.Depths
import DelegatedAuthority.Proofs.Standing
/-!
The order in which delegations list their proofs.

With resolutions enough, the order has no bearing on whether a root or a revoker is found. It
may decide between a plain no and not knowing: only where proofs are listed at the bound on
hops, and all that lists them there is met above the bound as well. Such a proof is followed
again where it is met above, and all below it is then seen; but what was noted when its turn
came at the bound is not taken back, and listed in another order its turn never comes.
-/
namespace DelegatedAuthority

/-- The answer to whether there is a goal. A search that was cut short does not know. -/
def Traversal.verdict (limit : String) : Traversal → Except AuthorizationError Bool
  | .reached _ => .ok true
  | .exhausted => .ok false
  | .truncated => .error (.depthExceeded limit)

/-- One of two verdicts is a plain no where the other does not know. -/
def NoOrUnknown (verdict other : Except AuthorizationError Bool) : Prop :=
  ∃ limit, (verdict = .ok false ∧ other = .error (.depthExceeded limit)) ∨
    (verdict = .error (.depthExceeded limit) ∧ other = .ok false)

theorem NoOrUnknown.not_yes {verdict other : Except AuthorizationError Bool}
    (h : NoOrUnknown verdict other) : verdict ≠ .ok true ∧ other ≠ .ok true := by
  obtain ⟨limit, ⟨rfl, rfl⟩ | ⟨rfl, rfl⟩⟩ := h <;> simp

namespace ProofGraph

variable {κ α : Type} {rel : α → α → Prop} {graph other : ProofGraph κ α} {limits : Limits}
  {quest : Quest α} {start start' : α}

/-- The same graph to a quest but for the order in which related nodes list their keys. -/
structure Reordering (rel : α → α → Prop) (graph other : ProofGraph κ α) (quest : Quest α) :
    Prop where
  proofs : ∀ {a b}, rel a b → (graph.proofs a).Perm (other.proofs b)
  resolve : ∀ key, Option.Rel rel (graph.resolve key) (other.resolve key)
  follow : ∀ {a b c d}, rel a b → rel c d → quest.follow a c = quest.follow b d
  goal : ∀ {a b}, rel a b → quest.goal a = quest.goal b

theorem Reordering.symm (h : Reordering rel graph other quest) :
    Reordering (fun a b => rel b a) other graph quest where
  proofs same := (h.proofs same).symm
  resolve key := by
    have related := h.resolve key
    generalize graph.resolve key = a, other.resolve key = b at related ⊢
    cases related with
    | some same => exact .some same
    | none => exact .none
  follow ab cd := (h.follow ab cd).symm
  goal same := (h.goal same).symm

theorem Reordering.edge (h : Reordering rel graph other quest) {parent parent' node : α} {key : κ}
    (same : rel parent parent') (edge : graph.Edge quest parent key node) :
    ∃ node', rel node node' ∧ other.Edge quest parent' key node' := by
  have found := h.resolve key
  rw [edge.resolves] at found
  generalize resolved : other.resolve key = result at found
  cases found with
  | @some _ node' alike =>
    refine ⟨node', alike, (h.proofs same).mem_iff.mp edge.listed, resolved, ?_⟩
    rw [← h.follow same alike]
    exact edge.followed

theorem Reordering.path (h : Reordering rel graph other quest) (first : rel start start') {n : Nat}
    {node : α} (path : graph.Path quest start n node) :
    ∃ node', rel node node' ∧ other.Path quest start' n node' := by
  induction path with
  | here => exact ⟨start', first, .here⟩
  | step _ edge ih =>
    obtain ⟨_, same, path⟩ := ih
    obtain ⟨node', alike, edge'⟩ := h.edge same edge
    exact ⟨node', alike, path.step edge'⟩

theorem Reordering.arrival (h : Reordering rel graph other quest) (first : rel start start')
    {depth : Nat} {key : Option κ} {node : α} (arrival : graph.Arrival quest start depth key node) :
    ∃ node', rel node node' ∧ other.Arrival quest start' depth key node' := by
  cases arrival with
  | here => exact ⟨start', first, .here⟩
  | proof path edge =>
    obtain ⟨_, same, path'⟩ := h.path first path
    obtain ⟨node', alike, edge'⟩ := h.edge same edge
    exact ⟨node', alike, .proof path' edge'⟩

theorem Reordering.lists (h : Reordering rel graph other quest) (first : rel start start')
    {depth : Nat} {key : Option κ} (lists : graph.Lists quest start depth key) :
    other.Lists quest start' depth key := by
  obtain ⟨node, arrival, listed⟩ := lists
  obtain ⟨node', same, arrival'⟩ := h.arrival first arrival
  refine ⟨node', arrival', ?_⟩
  intro none
  have perm := h.proofs same
  rw [none] at perm
  exact listed perm.eq_nil

theorem Reordering.atBound (h : Reordering rel graph other quest) (first : rel start start')
    (bound : graph.AtBound limits quest start) : other.AtBound limits quest start' := by
  obtain ⟨key, lists⟩ := bound
  exact ⟨key, h.lists first lists⟩

theorem Reordering.beyondBound (h : Reordering rel graph other quest) (first : rel start start')
    (beyond : graph.BeyondBound limits quest start) : other.BeyondBound limits quest start' := by
  obtain ⟨key, lists, nearest⟩ := beyond
  refine ⟨key, h.lists first lists, ?_⟩
  rintro depth above ⟨node, arrival⟩
  obtain ⟨node', _, arrival'⟩ := h.symm.arrival first arrival
  exact nearest depth above ⟨node', arrival'⟩

variable [DecidableEq κ]

theorem Reordering.reached (h : Reordering rel graph other quest) (first : rel start start')
    (all : (other.search limits quest start').tooMany = false)
    (reached : ∃ depth, (graph.walk limits quest start).traversal = .reached depth) :
    ∃ depth, (other.walk limits quest start').traversal = .reached depth := by
  obtain ⟨depth, found⟩ := reached
  obtain ⟨within, node, path, goal⟩ := walk_reached found
  obtain ⟨node', same, path'⟩ := h.path first path
  exact walk_reaches all path' within (h.goal same ▸ goal)

theorem Reordering.reached_iff (h : Reordering rel graph other quest) (first : rel start start')
    (all : (graph.search limits quest start).tooMany = false)
    (all' : (other.search limits quest start').tooMany = false) :
    (∃ depth, (graph.walk limits quest start).traversal = .reached depth) ↔
      ∃ depth, (other.walk limits quest start').traversal = .reached depth :=
  ⟨h.reached first all', h.symm.reached first all⟩

/-- Both searches give the same answer, or one knows that there is no goal and the other does not
know. In that case what lists proofs at the bound is met above it as well. -/
theorem Reordering.verdict (h : Reordering rel graph other quest) (first : rel start start')
    (all : (graph.search limits quest start).tooMany = false)
    (all' : (other.search limits quest start').tooMany = false) (limit : String) :
    (graph.walk limits quest start).traversal.verdict limit =
        (other.walk limits quest start').traversal.verdict limit ∨
      graph.Revisited limits quest start ∧
        NoOrUnknown ((graph.walk limits quest start).traversal.verdict limit)
          ((other.walk limits quest start').traversal.verdict limit) := by
  have found := h.reached_iff first all all'
  cases left : (graph.walk limits quest start).traversal with
  | reached depth =>
    obtain ⟨depth', right⟩ := found.mp ⟨depth, left⟩
    rw [right]
    exact .inl rfl
  | exhausted =>
    have near := not_beyondBound_of_exhausted left
    cases right : (other.walk limits quest start').traversal with
    | reached depth => simp [left, right] at found
    | exhausted => exact .inl rfl
    | truncated =>
      have bound := h.symm.atBound first (atBound_of_truncated all' right)
      exact .inr ⟨⟨bound, near⟩, limit, .inl ⟨rfl, rfl⟩⟩
  | truncated =>
    have bound := atBound_of_truncated all left
    cases right : (other.walk limits quest start').traversal with
    | reached depth => simp [left, right] at found
    | exhausted =>
      have near : ¬ graph.BeyondBound limits quest start := by
        intro beyond
        exact not_beyondBound_of_exhausted right (h.beyondBound first beyond)
      exact .inr ⟨⟨bound, near⟩, limit, .inr ⟨rfl, rfl⟩⟩
    | truncated => exact .inl rfl

end ProofGraph

/-- The same delegation to anyone who asks who issued it and to whom, with its proofs listed in
any order. -/
structure Delegation.Reordered (d other : Delegation) : Prop where
  issuer : d.issuer = other.issuer
  audience : d.audience = other.audience
  proofs : d.proofs.Perm other.proofs

namespace Resolver

/-- The same resolver but for the orders in which delegations list their proofs. -/
def Reordered (resolver other : Resolver) : Prop :=
  ∀ cid, Option.Rel Delegation.Reordered (resolver.resolve cid) (other.resolve cid)

theorem Reordered.refl (resolver : Resolver) : resolver.Reordered resolver := by
  intro cid
  cases resolver.resolve cid with
  | none => exact .none
  | some d => exact .some ⟨rfl, rfl, .refl _⟩

variable {resolver other : Resolver} {limits : Limits} {principal : Principal} {d d' : Delegation}

theorem Reordered.toRoot (h : resolver.Reordered other) :
    ProofGraph.Reordering Delegation.Reordered resolver.graph other.graph (.toRoot principal) where
  proofs same := same.proofs
  resolve := h
  follow parents nodes := by simp [Quest.toRoot, parents.issuer, nodes.audience]
  goal same := by simp [Quest.toRoot, same.issuer]

theorem Reordered.toRevoker (h : resolver.Reordered other) :
    ProofGraph.Reordering Delegation.Reordered resolver.graph other.graph (.toRevoker principal)
    where
  proofs same := same.proofs
  resolve := h
  follow _ _ := rfl
  goal same := by simp [Quest.toRevoker, same.issuer]

theorem tracesToRoot_verdict : (resolver.tracesToRoot limits principal d).verdict =
    (resolver.graph.walk limits (.toRoot principal) d).traversal.verdict
      (limits.describe ++ " while tracing to " ++ principal) := by
  unfold tracesToRoot traceToRoot
  dsimp only
  cases (resolver.graph.walk limits (.toRoot principal) d).traversal <;> rfl

theorem hasStanding_verdict : (resolver.hasStanding limits principal d).verdict =
    (resolver.graph.walk limits (.toRevoker principal) d).traversal.verdict
      (limits.describe ++ " while looking for " ++ principal) := by
  unfold hasStanding
  dsimp only
  cases (resolver.graph.walk limits (.toRevoker principal) d).traversal <;> rfl

/-- Where resolutions do not run out, the order of proofs has no bearing on a yes. It may turn
a no into not knowing, but only if all that lists proofs at the bound on hops is met above the
bound as well. -/
theorem order_matters_only_at_bound (same : resolver.Reordered other) (first : d.Reordered d')
    (limits : Limits) (principal : Principal) :
    ((resolver.graph.search limits (.toRoot principal) d).tooMany = false →
      (other.graph.search limits (.toRoot principal) d').tooMany = false →
      (resolver.tracesToRoot limits principal d).verdict =
          (other.tracesToRoot limits principal d').verdict ∨
        resolver.graph.Revisited limits (.toRoot principal) d ∧
          NoOrUnknown (resolver.tracesToRoot limits principal d).verdict
            (other.tracesToRoot limits principal d').verdict) ∧
    ((resolver.graph.search limits (.toRevoker principal) d).tooMany = false →
      (other.graph.search limits (.toRevoker principal) d').tooMany = false →
      (resolver.hasStanding limits principal d).verdict =
          (other.hasStanding limits principal d').verdict ∨
        resolver.graph.Revisited limits (.toRevoker principal) d ∧
          NoOrUnknown (resolver.hasStanding limits principal d).verdict
            (other.hasStanding limits principal d').verdict) := by
  constructor
  · intro all all'
    rw [tracesToRoot_verdict, tracesToRoot_verdict]
    exact same.toRoot.verdict first all all' _
  · intro all all'
    rw [hasStanding_verdict, hasStanding_verdict]
    exact same.toRevoker.verdict first all all' _

/-- Bob's own proof is met two hops and three hops below the start. What it lists in turn is
three hops below by the short way, and four by the long way. -/
def forked : Resolver := .ofTable
  [(shortProof 1, { issuer := "owner", audience := "alice" }),
   (shortProof 2, { issuer := "alice", audience := "bob", proofs := [shortProof 1] }),
   (shortProof 3, { issuer := "bob", audience := "carol", proofs := [shortProof 2] }),
   (shortProof 4, { issuer := "carol", audience := "dave", proofs := [shortProof 3] }),
   (shortProof 5, { issuer := "bob", audience := "dave", proofs := [shortProof 2] })]

def shortFirst : Delegation where
  issuer := "dave"
  audience := "service"
  proofs := [shortProof 5, shortProof 4]

def longFirst : Delegation :=
  { shortFirst with proofs := [shortProof 4, shortProof 5] }

theorem shortFirst_reordered : shortFirst.Reordered longFirst :=
  ⟨rfl, rfl, .swap _ _ _⟩

theorem forked_resolves_all :
    (forked.graph.search ⟨3, 256⟩ (.toRoot "stranger") shortFirst).tooMany = false ∧
    (forked.graph.search ⟨3, 256⟩ (.toRoot "stranger") longFirst).tooMany = false ∧
    (forked.graph.search ⟨3, 256⟩ (.toRevoker "stranger") shortFirst).tooMany = false ∧
    (forked.graph.search ⟨3, 256⟩ (.toRevoker "stranger") longFirst).tooMany = false := by
  decide

theorem forked_verdicts :
    (forked.tracesToRoot ⟨3, 256⟩ "stranger" shortFirst).verdict = .ok false ∧
    (forked.tracesToRoot ⟨3, 256⟩ "stranger" longFirst).verdict =
      .error (.depthExceeded (Limits.describe ⟨3, 256⟩ ++ " while tracing to " ++ "stranger")) ∧
    (forked.hasStanding ⟨3, 256⟩ "stranger" shortFirst).verdict = .ok false ∧
    (forked.hasStanding ⟨3, 256⟩ "stranger" longFirst).verdict =
      .error (.depthExceeded (Limits.describe ⟨3, 256⟩ ++ " while looking for " ++ "stranger")) :=
  ⟨rfl, rfl, rfl, rfl⟩

/-- The owner is found in either order. That a stranger is not is known in the one order only,
and so what lists proofs at the bound is met above it. -/
theorem forked_order : forked.Reordered forked ∧ shortFirst.Reordered longFirst ∧
    (forked.tracesToRoot ⟨3, 256⟩ "owner" longFirst).verdict = .ok true ∧
    forked.graph.Revisited ⟨3, 256⟩ (.toRoot "stranger") shortFirst ∧
    forked.graph.Revisited ⟨3, 256⟩ (.toRevoker "stranger") shortFirst := by
  obtain ⟨short, long, short', long'⟩ := forked_resolves_all
  obtain ⟨no, unknown, no', unknown'⟩ := forked_verdicts
  have same := Reordered.refl forked
  obtain ⟨owner, _⟩ := order_matters_only_at_bound same shortFirst_reordered ⟨3, 256⟩ "owner"
  obtain ⟨root, revoker⟩ :=
    order_matters_only_at_bound same shortFirst_reordered ⟨3, 256⟩ "stranger"
  refine ⟨same, shortFirst_reordered, ?_, ?_, ?_⟩
  · rcases owner (by decide) (by decide) with alike | ⟨_, apart⟩
    · rw [← alike]
      rfl
    · exact absurd rfl apart.not_yes.1
  · rcases root short long with alike | ⟨revisited, _⟩
    · rw [no, unknown] at alike
      cases alike
    · exact revisited
  · rcases revoker short' long' with alike | ⟨revisited, _⟩
    · rw [no', unknown'] at alike
      cases alike
    · exact revisited

/-- With the long way listed first the verdict is that the bound was exceeded, although no
resolution was refused and every proof there is was looked at. -/
theorem order_turns_no_into_unknown : forked.Reordered forked ∧ shortFirst.Reordered longFirst ∧
    (forked.graph.search ⟨3, 256⟩ (.toRoot "stranger") shortFirst).tooMany = false ∧
    (forked.graph.search ⟨3, 256⟩ (.toRoot "stranger") longFirst).tooMany = false ∧
    (forked.tracesToRoot ⟨3, 256⟩ "stranger" longFirst).resolutions =
      [4, 5, 3, 2, 2, 1].map shortProof ∧
    (forked.tracesToRoot ⟨3, 256⟩ "stranger" shortFirst).verdict ≠
      (forked.tracesToRoot ⟨3, 256⟩ "stranger" longFirst).verdict ∧
    (forked.graph.search ⟨3, 256⟩ (.toRevoker "stranger") shortFirst).tooMany = false ∧
    (forked.graph.search ⟨3, 256⟩ (.toRevoker "stranger") longFirst).tooMany = false ∧
    (forked.hasStanding ⟨3, 256⟩ "stranger" shortFirst).verdict ≠
      (forked.hasStanding ⟨3, 256⟩ "stranger" longFirst).verdict := by
  obtain ⟨short, long, short', long'⟩ := forked_resolves_all
  obtain ⟨no, unknown, no', unknown'⟩ := forked_verdicts
  refine ⟨.refl forked, shortFirst_reordered, short, long, rfl, ?_, short', long', ?_⟩
  · rw [no, unknown]
    exact nofun
  · rw [no', unknown']
    exact nofun

end Resolver

end DelegatedAuthority
