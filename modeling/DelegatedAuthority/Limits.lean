/-!
Bounds on one search through proofs.
-/
namespace DelegatedAuthority

/-- How far a search may go: hops below the presented credential, and resolutions in all. -/
structure Limits where
  maxDepth : UInt64 := 16
  maxVisits : UInt64 := 256
  deriving DecidableEq, Repr

def Limits.describe (limits : Limits) : String :=
  "max depth " ++ toString limits.maxDepth ++ " / max visits " ++ toString limits.maxVisits

end DelegatedAuthority
