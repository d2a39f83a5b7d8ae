import DelegatedAuthority.Delegation.Block
import DelegatedAuthority.Search
/-!
Resolvers: from identifiers to verified delegations.
-/
namespace DelegatedAuthority

/-- Loads the delegation behind an identifier, or tells why it cannot. -/
structure Resolver where
  load : Cid → Except AuthorizationError Delegation

namespace Resolver

/-- Fetches a block, decodes it and verifies the delegation in it. -/
def ofBlocks (fetch : Cid → Except AuthorizationError Bytes)
    (verify : Delegation → Except AuthorizationError Unit) : Resolver where
  load cid := do
    let d ← Delegation.decode (← fetch cid)
    verify d
    return d

/-- The delegation behind an identifier, if it can be loaded. One that cannot is never
replaced by another; it contributes no authority. -/
def resolve (resolver : Resolver) (cid : Cid) : Option Delegation :=
  (resolver.load cid).toOption

def graph (resolver : Resolver) : ProofGraph Cid Delegation where
  proofs := Delegation.proofs
  resolve := resolver.resolve

end Resolver

end DelegatedAuthority
