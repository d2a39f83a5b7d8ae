import DelegatedAuthority.Proofs.Authority
import DelegatedAuthority.Proofs.Standing
/-!
What decisions read of a delegation.

A search sees a node through the keys it lists and through what the quest asks of it. If a view
of the nodes keeps that much, the search on the nodes and the search on their views go step by
step together. A chain to a root shows issuers, audiences and proofs, and a way upstream shows
issuers and proofs; whatever else a delegation says has no part in the decision.
-/
namespace DelegatedAuthority

variable {κ α β : Type}

/-- A view of the nodes of a graph that keeps all a search looks at. -/
structure ProofGraph.View (view : α → β) (graph : ProofGraph κ α) (quest : Quest α)
    (graph' : ProofGraph κ β) (quest' : Quest β) : Prop where
  proofs : ∀ node, graph'.proofs (view node) = graph.proofs node
  resolve : ∀ key, graph'.resolve key = (graph.resolve key).map view
  follow : ∀ parent node, quest'.follow (view parent) (view node) = quest.follow parent node
  goal : ∀ node, quest'.goal (view node) = quest.goal node

def Entry.map (view : α → β) (e : Entry κ α) : Entry κ β :=
  ⟨e.key, view e.node, e.depth⟩

namespace Search

def map (view : α → β) (s : Search κ α) : Search κ β where
  stack := s.stack.map (Entry.map view)
  followed := s.followed
  resolutions := s.resolutions
  tooDeep := s.tooDeep
  tooMany := s.tooMany
  reached := s.reached

theorem isOver_map (view : α → β) (s : Search κ α) : (s.map view).isOver = s.isOver := by
  simp [isOver, map]

variable [DecidableEq κ] {graph : ProofGraph κ α} {graph' : ProofGraph κ β} {quest : Quest α}
  {quest' : Quest β} {view : α → β} {limits : Limits} {parent : α} {depth : Nat} {s : Search κ α}

theorem followedWithin_map (key : κ) :
    (s.map view).followedWithin key depth = s.followedWithin key depth := rfl

theorem followedAbove_map (e : Entry κ α) : (s.map view).followedAbove (e.map view).key
    (e.map view).depth = s.followedAbove e.key e.depth := rfl

theorem expand_map (h : graph.View view quest graph' quest') :
    (s.map view).expand graph' limits (view parent) depth =
      ((s.expand graph limits parent depth).1.map (Prod.map id view),
        (s.expand graph limits parent depth).2.map view) := by
  have resolved : ∀ key, (graph'.resolve key).map (fun node => (key, node)) =
      ((graph.resolve key).map fun node => (key, node)).map (Prod.map id view) := by
    intro key
    rw [h.resolve, Option.map_map, Option.map_map]
    rfl
  simp only [expand, h.proofs, followedWithin_map, resolved]
  split
  · rfl
  · split
    · rfl
    · simp [map, List.map_filterMap]

theorem accept_map (h : graph.View view quest graph' quest') (parent : α) (depth : Nat)
    (proofs : List (κ × α)) (s : Search κ α) :
    accept quest' (view parent) depth (proofs.map (Prod.map id view)) (s.map view) =
      ((accept quest parent depth proofs s).1.map (Entry.map view),
        (accept quest parent depth proofs s).2.map view) := by
  fun_induction accept quest parent depth proofs s with
  | case1 s => rfl
  | case2 key node rest s unlinked ih => simpa [accept, h.follow, unlinked] using ih
  | case3 key node rest s linked goal => simp [accept, h.follow, h.goal, linked, goal, map]
  | case4 key node rest s linked noGoal known ih =>
    simpa [accept, h.follow, h.goal, linked, noGoal, followedWithin_map, known] using ih
  | case5 key node rest s linked noGoal fresh entries s' eq ih =>
    -- the same key is noted on both sides before the proofs behind it are tested
    rw [eq] at ih
    have noted : { s.map view with followed := (key, depth) :: (s.map view).followed } =
      ({ s with followed := (key, depth) :: s.followed } : Search κ α).map view := rfl
    simp [accept, h.follow, h.goal, linked, noGoal, followedWithin_map, fresh, noted, ih, Entry.map]

theorem descend_map (h : graph.View view quest graph' quest') :
    (s.map view).descend graph' limits quest' (view parent) depth =
      (s.descend graph limits quest parent depth).map view := by
  rw [descend, expand_map h, descend]
  simp only [accept_map h]
  simp [map]

theorem step_map (h : graph.View view quest graph' quest') :
    (s.map view).step graph' limits quest' = (s.step graph limits quest).map view := by
  cases stack : s.stack with
  | nil => simp [step, map, stack]
  | cons entry rest =>
    have seen : (s.map view).stack = entry.map view :: rest.map (Entry.map view) := by
      simp [map, stack]
    have popped : { s.map view with stack := rest.map (Entry.map view) } =
      ({ s with stack := rest } : Search κ α).map view := rfl
    simp only [step, seen, stack, popped, followedAbove_map]
    split
    · rfl
    · exact descend_map h

theorem run_map (h : graph.View view quest graph' quest') (count : Nat) :
    run graph' limits quest' count (s.map view) = (run graph limits quest count s).map view := by
  induction count generalizing s with
  | zero => rfl
  | succ count ih =>
    rw [run, run, isOver_map, step_map h, ih]
    split <;> rfl

theorem first_map (h : graph.View view quest graph' quest') (start : α) :
    first graph' limits quest' (view start) = (first graph limits quest start).map view := by
  have empty : ({} : Search κ β) = ({} : Search κ α).map view := rfl
  rw [first, first, h.goal, empty, descend_map h]
  split <;> rfl

end Search

/-- A search on the nodes goes as the search on their views does. -/
theorem ProofGraph.View.walk [DecidableEq κ] {graph : ProofGraph κ α} {graph' : ProofGraph κ β}
    {quest : Quest α} {quest' : Quest β} {view : α → β} (h : graph.View view quest graph' quest')
    (limits : Limits) (start : α) :
    graph'.walk limits quest' (view start) = graph.walk limits quest start := by
  simp only [ProofGraph.walk, search, Search.first_map h, Search.run_map h]
  rfl

/-- What a chain of proofs shows of a delegation: who made it to whom, and on what proofs. -/
structure Link where
  issuer : Principal
  audience : Principal
  proofs : List Cid
  deriving DecidableEq

/-- What a way upstream shows of a delegation. -/
structure Origin where
  issuer : Principal
  proofs : List Cid
  deriving DecidableEq

def Delegation.link (d : Delegation) : Link := ⟨d.issuer, d.audience, d.proofs⟩

def Delegation.origin (d : Delegation) : Origin := ⟨d.issuer, d.proofs⟩

namespace Resolver

variable {resolver other : Resolver} {limits : Limits} {root revoker : Principal}

def links (resolver : Resolver) : ProofGraph Cid Link where
  proofs := Link.proofs
  resolve cid := (resolver.resolve cid).map Delegation.link

def origins (resolver : Resolver) : ProofGraph Cid Origin where
  proofs := Origin.proofs
  resolve cid := (resolver.resolve cid).map Delegation.origin

theorem links_view (resolver : Resolver) (root : Principal) :
    resolver.graph.View Delegation.link (.toRoot root) resolver.links
      ⟨fun parent proof => proof.audience == parent.issuer, fun l => l.issuer == root⟩ :=
  ⟨fun _ => rfl, fun _ => rfl, fun _ _ => rfl, fun _ => rfl⟩

theorem origins_view (resolver : Resolver) (revoker : Principal) :
    resolver.graph.View Delegation.origin (.toRevoker revoker) resolver.origins
      ⟨fun _ _ => true, fun o => o.issuer == revoker⟩ :=
  ⟨fun _ => rfl, fun _ => rfl, fun _ _ => rfl, fun _ => rfl⟩

theorem requireRoot_of_link {d d' : Delegation}
    (same : ∀ cid, (other.resolve cid).map Delegation.link =
      (resolver.resolve cid).map Delegation.link)
    (start : d'.link = d.link) :
    other.requireRoot limits root d' = resolver.requireRoot limits root d := by
  have links : other.links = resolver.links := by
    simp only [Resolver.links, same]
  have walk : other.traceToRoot limits root d' = resolver.traceToRoot limits root d := by
    rw [traceToRoot, ← (other.links_view root).walk, links, start, (resolver.links_view root).walk,
      traceToRoot]
  have issuer : d'.issuer = d.issuer := congrArg Link.issuer start
  rw [requireRoot, tracesToRoot, walk, issuer, requireRoot, tracesToRoot]

theorem requireRoot_of_links {d : Delegation}
    (same : ∀ cid, (other.resolve cid).map Delegation.link =
      (resolver.resolve cid).map Delegation.link) :
    other.requireRoot limits root d = resolver.requireRoot limits root d :=
  requireRoot_of_link same rfl

theorem authorizeRevocation_of_origins {target target' : Delegation}
    (same : ∀ cid, (other.resolve cid).map Delegation.origin =
      (resolver.resolve cid).map Delegation.origin)
    (start : target'.origin = target.origin) :
    other.authorizeRevocation limits revoker target' =
      resolver.authorizeRevocation limits revoker target := by
  have origins : other.origins = resolver.origins := by
    simp only [Resolver.origins, same]
  have walk : other.graph.walk limits (.toRevoker revoker) target' =
      resolver.graph.walk limits (.toRevoker revoker) target := by
    rw [← (other.origins_view revoker).walk, origins, start, (resolver.origins_view revoker).walk]
  rw [authorizeRevocation, hasStanding, walk, authorizeRevocation, hasStanding]

/-- Loads another delegation in place of each. -/
def map (f : Delegation → Delegation) (resolver : Resolver) : Resolver where
  load cid := (resolver.load cid).map f

theorem resolve_map (f : Delegation → Delegation) (resolver : Resolver) (cid : Cid) :
    (resolver.map f).resolve cid = (resolver.resolve cid).map f := by
  simp only [resolve, map]
  cases resolver.load cid <;> rfl

end Resolver

namespace Authorizer

/-- Decisions read only links, and those on revocations only origins. Resolvers that resolve the
same identifiers, to delegations between the same principals on the same proofs, lead to the
same decision by the same resolutions, whatever else those delegations say. For a revocation it
does not matter either to whom they were made. -/
theorem decided_by_links (a : Authorizer) (other : Resolver) :
    ((∀ cid, (other.resolve cid).map Delegation.link =
        (a.resolver.resolve cid).map Delegation.link) →
      ∀ request now,
        authorizeAt { a with resolver := other } request now = a.authorizeAt request now) ∧
    ((∀ cid, (other.resolve cid).map Delegation.origin =
        (a.resolver.resolve cid).map Delegation.origin) →
      ∀ revoker target target', target'.origin = target.origin →
        authorizeRevocation { a with resolver := other } revoker target' =
          a.authorizeRevocation revoker target) := by
  constructor
  · intro same request now
    exact authorizeAt_congr fun _ _ => Resolver.requireRoot_of_links same
  · intro same revoker target target' start
    exact Resolver.authorizeRevocation_of_origins same start

/-- A delegation that expired long ago and permits nothing. -/
def lapsed (d : Delegation) : Delegation := { d with expiration := some 0, capabilities := [] }

/-- A delegation made to somebody else. -/
def strayed (d : Delegation) : Delegation := { d with audience := "stranger" }

open Resolver (relay relayed)

def relayService : Authorizer where
  config := { audience := "service" }
  resolver := relay

def relayRequest : Request where
  operation := Operation.append
  resource := "tlog:owner"
  owner := "owner"
  invoker := "bob"
  credential := { relayed with capabilities := [⟨Ability.append, "tlog:owner"⟩] }

/-- A chain of lapsed proofs leads to the owner all the same, and the owner may revoke what rests
on its delegation to whomever that was made. -/
theorem relay_decided_by_links :
    (authorizeAt { relayService with resolver := relay.map lapsed } relayRequest 1000).verdict =
      .ok ⟨Operation.append, Ability.append, "tlog:owner", "bob", false⟩ ∧
    (authorizeRevocation { relayService with resolver := relay.map strayed } "owner"
      (strayed relayed)).verdict = .ok () := by
  have lapses : ∀ cid, ((relay.map lapsed).resolve cid).map Delegation.link =
      (relay.resolve cid).map Delegation.link := by
    intro cid
    rw [Resolver.resolve_map, Option.map_map]
    rfl
  have strays : ∀ cid, ((relay.map strayed).resolve cid).map Delegation.origin =
      (relay.resolve cid).map Delegation.origin := by
    intro cid
    rw [Resolver.resolve_map, Option.map_map]
    rfl
  have granted : (relayService.authorizeAt relayRequest 1000).verdict =
    .ok ⟨Operation.append, Ability.append, "tlog:owner", "bob", false⟩ := by rfl
  have allowed : (relayService.authorizeRevocation "owner" relayed).verdict = .ok () := by rfl
  obtain ⟨requests, _⟩ := decided_by_links relayService (relay.map lapsed)
  obtain ⟨_, revocations⟩ := decided_by_links relayService (relay.map strayed)
  rw [requests lapses relayRequest 1000, revocations strays "owner" relayed (strayed relayed) rfl]
  exact ⟨granted, allowed⟩

end Authorizer

end DelegatedAuthority
