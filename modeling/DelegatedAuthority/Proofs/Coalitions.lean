import DelegatedAuthority.Proofs.Authority
import Mathlib.Data.Set.Insert
/-!
Coalitions: members of a set of principals to whom nobody outside has delegated anything.

They may issue to one another whatever they like. A chain of proofs that starts with one of
them never leaves the set, since each step up it goes to a delegation that is addressed to a
member, and so was issued by one.
-/
namespace DelegatedAuthority

variable {members : Set Principal}

theorem Resolver.Chain.issuer_mem {resolver : Resolver}
    (outside : ∀ cid d, resolver.resolve cid = some d → d.issuer ∉ members →
      d.audience ∉ members) {start d : Delegation} {n : Nat} (chain : resolver.Chain start n d)
    (member : start.issuer ∈ members) : d.issuer ∈ members := by
  induction chain with
  | here => exact member
  | @link n parent cid proof _ _ resolves addressed ih =>
    -- an outsider would have issued it to an outsider, but it is addressed to a member
    apply Classical.byContradiction
    intro outsider
    apply outside cid proof resolves outsider
    rw [addressed]
    exact ih

namespace Authorizer

variable {a : Authorizer} {request : Request} {now : Timestamp} {grant : Grant}

theorem owner_eq_invoker_of_erase (h : (a.authorizeEraseAt request now).verdict = .ok grant) :
    request.owner = request.invoker := by
  obtain ⟨_, invoked, _⟩ := firsthand_of_erase h
  exact invoked

/-- What is granted to a member of a coalition belongs to a member. -/
theorem owner_mem_of_grant
    (outside : ∀ cid d, a.resolver.resolve cid = some d → d.issuer ∉ members →
      d.audience ∉ members) (member : request.invoker ∈ members)
    (h : (a.authorizeAt request now).verdict = .ok grant) : request.owner ∈ members := by
  rcases authorizeAt_ok_iff.mp h with ⟨_, erased⟩ | ⟨_, decided, _⟩
  · rw [owner_eq_invoker_of_erase erased]
    exact member
  · obtain ⟨passed, root⟩ := decideDelegated_ok_iff.mp decided
    obtain ⟨_, _, _, invoker⟩ := checkLocal_ok_iff.mp passed
    obtain ⟨n, _, last, chain, owner⟩ := Resolver.chain_of_requireRoot root
    rw [← owner]
    apply chain.issuer_mem outside
    rw [← invoker]
    exact member

/-- No coalition grants itself authority: where nobody outside has delegated to a member, a
member is refused everything that belongs to somebody outside, whatever it presents. -/
theorem coalition_refused (a : Authorizer) (members : Set Principal)
    (outside : ∀ cid d, a.resolver.resolve cid = some d → d.issuer ∉ members →
      d.audience ∉ members) (request : Request) (owner : request.owner ∉ members)
    (member : request.invoker ∈ members) (now : Timestamp) :
    (∃ e, (a.authorizeAt request now).verdict = .error e) ∧
      ∃ e, (a.authorizeEraseAt request now).verdict = .error e := by
  constructor
  · cases verdict : (a.authorizeAt request now).verdict with
    | error e => exact ⟨e, rfl⟩
    | ok grant =>
      have owned : request.owner ∈ members := owner_mem_of_grant outside member verdict
      contradiction
  · cases verdict : (a.authorizeEraseAt request now).verdict with
    | error e => exact ⟨e, rfl⟩
    | ok grant =>
      rw [owner_eq_invoker_of_erase verdict] at owner
      contradiction

def conspirators : Set Principal := {"mallory", "eve"}

def conspiracyProof (digest : UInt8) : Cid := .v1 Cid.dagCbor ⟨Cid.sha256, [digest], by simp⟩

/-- Two conspirators who rest their authority on each other, and on a delegation that the owner
made to a friend. -/
def conspiracy : List (Cid × Delegation) :=
  [(conspiracyProof 1,
     { issuer := "mallory", audience := "eve", proofs := [conspiracyProof 2] }),
   (conspiracyProof 2,
     { issuer := "eve", audience := "mallory", proofs := [conspiracyProof 1, conspiracyProof 3] }),
   (conspiracyProof 3, { issuer := "alice", audience := "bob" })]

def conspiracyService : Authorizer where
  config := { audience := "service" }
  resolver := .ofTable conspiracy

def conspiracyRequest : Request where
  operation := Operation.append
  resource := "tlog:alice"
  owner := "alice"
  invoker := "mallory"
  credential := {
    issuer := "mallory"
    audience := "service"
    capabilities := [⟨Ability.wildcard, "tlog:alice"⟩]
    proofs := [conspiracyProof 2, conspiracyProof 3] }

theorem conspiracy_outside (cid : Cid) (d : Delegation)
    (resolves : conspiracyService.resolver.resolve cid = some d)
    (outsider : d.issuer ∉ conspirators) : d.audience ∉ conspirators := by
  have listed := Resolver.mem_of_resolve_ofTable resolves
  simp only [conspiracy, List.mem_cons, List.not_mem_nil, or_false, Prod.mk.injEq] at listed
  rcases listed with ⟨_, rfl⟩ | ⟨_, rfl⟩ | ⟨_, rfl⟩
  · simp [conspirators] at outsider
  · simp [conspirators] at outsider
  · simp [conspirators]

theorem conspiracy_refused : "alice" ∉ conspirators ∧ "mallory" ∈ conspirators ∧
    (∃ e, (conspiracyService.authorizeAt conspiracyRequest 0).verdict = .error e) ∧
      ∃ e, (conspiracyService.authorizeEraseAt conspiracyRequest 0).verdict = .error e := by
  have owner : "alice" ∉ conspirators := by simp [conspirators]
  have member : "mallory" ∈ conspirators := by simp [conspirators]
  exact ⟨owner, member, coalition_refused conspiracyService conspirators conspiracy_outside
    conspiracyRequest owner member 0⟩

end Authorizer

end DelegatedAuthority
