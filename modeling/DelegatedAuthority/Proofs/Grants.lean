import DelegatedAuthority.Proofs.Checks
import DelegatedAuthority.Proofs.Occurrences
/-!
What a credential's capabilities say to a required ability, whatever else they list.

The capabilities are gone through once, and a first one that allows the ability elsewhere is kept
in mind. It stands in no later one's way, and no later one takes its place.
-/
namespace DelegatedAuthority

/-- What kind of failure a check ends in, without its particulars; none if it passed. -/
def failure? {α : Type} : Except AuthorizationError α → Option ErrorKind
  | .ok _ => none
  | .error e => some e.kind

namespace Delegation

variable {d : Delegation} {ability : Ability} {resource : Resource}

theorem checkGrant_ok_iff_isFirst {c : Capability} : d.checkGrant ability resource = .ok c ↔
    IsFirst (fun c => c.resource = resource ∧ c.ability.allows ability = true) d.capabilities c := by
  have same : (fun c : Capability => c.resource = resource ∧ c.ability.allows ability = true) =
      fun c => c.allows ability resource = true := by
    funext c
    exact propext Capability.allows_iff.symm
  rw [same, checkGrant_ok_iff, find?_eq_some_iff_isFirst]

/-- Which of its three outcomes the search for a grant has is a matter of what is listed, not of
where or how often. -/
theorem failure?_checkGrant (d : Delegation) (ability : Ability) (resource : Resource) :
    failure? (d.checkGrant ability resource) =
      if ∃ c ∈ d.capabilities, c.allows ability resource = true then none
      else if ∃ c ∈ d.capabilities, c.ability.allows ability = true then some .wrongResource
      else some .missingCapability := by
  cases answer : d.checkGrant ability resource with
  | ok c =>
    rw [if_pos (checkGrant_ok_exists.mp ⟨c, answer⟩)]
    rfl
  | error e =>
    obtain ⟨refused, wrong⟩ := checkGrant_error_iff.mp answer
    rw [if_neg (by simpa using refused)]
    rcases wrong with ⟨c, first, rfl⟩ | ⟨nowhere, rfl⟩
    · have allows := List.find?_some first
      rw [if_pos ⟨c, List.mem_of_find?_eq_some first, allows⟩]
      rfl
    · rw [if_neg (by simpa using nowhere)]
      rfl

/-- A required ability is granted by the first capability over the resource that allows it. Without
one, the first that allows the ability over another resource is what the refusal names, and where
nothing allows the ability it is missing. So the outcome is the same for all credentials that list
the same, in any order and any number of times. -/
theorem checkGrant_classified (d : Delegation) (ability : Ability) (resource : Resource) :
    (∀ c, d.checkGrant ability resource = .ok c ↔
      IsFirst (fun c => c.resource = resource ∧ c.ability.allows ability = true)
        d.capabilities c) ∧
    (∀ e, d.checkGrant ability resource = .error e ↔
      (∀ c ∈ d.capabilities, ¬(c.resource = resource ∧ c.ability.allows ability = true)) ∧
        ((∃ c, IsFirst (fun c => c.ability.allows ability = true) d.capabilities c ∧
            e = .wrongResource ability resource c.resource) ∨
          (∀ c ∈ d.capabilities, c.ability.allows ability = false) ∧
            e = .missingCapability ability)) ∧
    ∀ d' : Delegation, (∀ c, c ∈ d'.capabilities ↔ c ∈ d.capabilities) →
      failure? (d'.checkGrant ability resource) = failure? (d.checkGrant ability resource) := by
  refine ⟨fun c => checkGrant_ok_iff_isFirst, ?_, ?_⟩
  · intro e
    simp only [checkGrant_error_iff, ← Capability.allows_iff, Bool.not_eq_true,
      find?_eq_some_iff_isFirst]
  · intro d' same
    simp only [failure?_checkGrant, same]

/-- Lists broad and narrow, some of it twice, and some that no table would accept. -/
def bazaar : Delegation where
  issuer := "owner"
  audience := "service"
  capabilities := [⟨"", "wall:1"⟩, ⟨"logs/", "wall:1"⟩, ⟨"logs", "wall:3"⟩,
    ⟨Ability.wildcard, "wall:2"⟩, ⟨"logs", "wall:1"⟩, ⟨"logs/read", "wall:1"⟩, ⟨"logs", "wall:3"⟩]

theorem bazaar_classified :
    bazaar.checkGrant "logs/read" "wall:1" = .ok ⟨"logs", "wall:1"⟩ ∧
    bazaar.checkGrant "logs/read" "wall:4" =
      .error (.wrongResource "logs/read" "wall:4" "wall:3") ∧
    failure? ({ bazaar with capabilities := bazaar.capabilities.reverse ++ bazaar.capabilities
      }.checkGrant "logs/read" "wall:4") = some .wrongResource := by
  obtain ⟨granted, _, _⟩ := checkGrant_classified bazaar "logs/read" "wall:1"
  obtain ⟨_, refused, unordered⟩ := checkGrant_classified bazaar "logs/read" "wall:4"
  refine ⟨(granted _).mpr ?_, (refused _).mpr ⟨by decide, .inl ⟨⟨"logs", "wall:3"⟩, ?_, rfl⟩⟩, ?_⟩
  · exact ⟨[⟨"", "wall:1"⟩, ⟨"logs/", "wall:1"⟩, ⟨"logs", "wall:3"⟩, ⟨Ability.wildcard, "wall:2"⟩],
      [⟨"logs/read", "wall:1"⟩, ⟨"logs", "wall:3"⟩], rfl, by decide, by decide⟩
  · exact ⟨[⟨"", "wall:1"⟩, ⟨"logs/", "wall:1"⟩],
      [⟨Ability.wildcard, "wall:2"⟩, ⟨"logs", "wall:1"⟩, ⟨"logs/read", "wall:1"⟩,
        ⟨"logs", "wall:3"⟩], rfl, by decide, by decide⟩
  · rw [unordered]
    · decide
    · intro c
      simp

end Delegation

end DelegatedAuthority
