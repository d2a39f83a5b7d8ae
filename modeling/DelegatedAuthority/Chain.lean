import DelegatedAuthority.Decision
import DelegatedAuthority.Resolver
/-!
Proof chains: whether the authority of a delegation comes from the root principal.

A delegation that the root issued has its authority on its own. Any other needs a proof that
is addressed to its issuer and has authority itself; a proof addressed to somebody else is
not followed.
-/
namespace DelegatedAuthority

/-- Follow proofs that are addressed to the issuer of what lists them, up to the root. -/
def Quest.toRoot (root : Principal) : Quest Delegation where
  follow parent proof := proof.audience == parent.issuer
  goal candidate := candidate.issuer == root

namespace Resolver

def traceToRoot (resolver : Resolver) (limits : Limits) (root : Principal) (d : Delegation) :
    Walk Cid :=
  resolver.graph.walk limits (.toRoot root) d

/-- Whether a chain of proofs leads to the root. A search that was cut short without finding
one does not know, and that is an error. -/
def tracesToRoot (resolver : Resolver) (limits : Limits) (root : Principal) (d : Delegation) :
    Decision Bool :=
  let walk := resolver.traceToRoot limits root d
  let verdict := match walk.traversal with
    | .reached _ => .ok true
    | .exhausted => .ok false
    | .truncated => .error (.depthExceeded (limits.describe ++ " while tracing to " ++ root))
  ⟨verdict, walk.resolutions⟩

/-- Refuses a delegation that no chain of proofs leads from to the root. -/
def requireRoot (resolver : Resolver) (limits : Limits) (root : Principal) (d : Delegation) :
    Decision Unit :=
  (resolver.tracesToRoot limits root d).andThen fun traces =>
    if traces then .ok () else .error (.noAuthority d.issuer root)

end Resolver

end DelegatedAuthority
