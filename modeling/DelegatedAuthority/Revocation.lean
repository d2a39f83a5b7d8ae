import DelegatedAuthority.Decision
import DelegatedAuthority.Resolver
/-!
Standing to revoke: who issued a delegation or one of its proofs, however remote.

Every proof is followed, linked or not. To be the audience of a delegation gives no standing.
-/
namespace DelegatedAuthority

/-- Follow every proof, up to one that the revoker issued. -/
def Quest.toRevoker (revoker : Principal) : Quest Delegation where
  follow _ _ := true
  goal candidate := candidate.issuer == revoker

namespace Resolver

/-- Whether `revoker` issued the target or one of its proofs, however remote. -/
def hasStanding (resolver : Resolver) (limits : Limits) (revoker : Principal)
    (target : Delegation) : Decision Bool :=
  let walk := resolver.graph.walk limits (.toRevoker revoker) target
  let verdict := match walk.traversal with
    | .reached _ => .ok true
    | .exhausted => .ok false
    | .truncated =>
      .error (.depthExceeded (limits.describe ++ " while looking for " ++ revoker))
  ⟨verdict, walk.resolutions⟩

def authorizeRevocation (resolver : Resolver) (limits : Limits) (revoker : Principal)
    (target : Delegation) : Decision Unit :=
  (resolver.hasStanding limits revoker target).andThen fun standing =>
    if standing then .ok () else .error (.revocationNotAuthorized revoker)

/-- The same for a target known by its identifier only. A target that cannot be loaded is
not revoked. -/
def authorizeRevocationOf (resolver : Resolver) (limits : Limits) (revoker : Principal)
    (target : Cid) : Decision Unit :=
  match resolver.load target with
  | .error e => ⟨.error e, [target]⟩
  | .ok d =>
    let decision := resolver.authorizeRevocation limits revoker d
    ⟨decision.verdict, target :: decision.resolutions⟩

end Resolver

end DelegatedAuthority
