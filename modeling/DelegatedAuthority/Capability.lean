import DelegatedAuthority.Ability
/-!
Capabilities: an ability over one resource, and what an operation requires of them.
-/
namespace DelegatedAuthority

structure Capability where
  ability : Ability
  resource : Resource
  deriving DecidableEq, Repr

namespace Capability

/-- Whether the capability permits an ability over exactly this resource. -/
def allows (c : Capability) (ability : Ability) (resource : Resource) : Bool :=
  c.resource == resource && c.ability.allows ability

def describe (c : Capability) : String :=
  c.ability ++ " with " ++ c.resource

/-- The order by ability, then by resource, each code point by code point. -/
def le (a b : Capability) : Bool :=
  a.ability < b.ability || (a.ability == b.ability && a.resource ≤ b.resource)

def sort (cs : List Capability) : List Capability :=
  cs.mergeSort le

def countDistinct (cs : List Capability) : Nat :=
  cs.eraseDups.length

end Capability

structure Requirement where
  operation : Operation
  ability : Ability
  resource : Resource
  deriving DecidableEq, Repr

end DelegatedAuthority
