import DelegatedAuthority.AuthorizationError
import DelegatedAuthority.Cid
/-!
Decisions: verdicts that tell which identifiers were resolved on the way to them.
-/
namespace DelegatedAuthority

/-- A verdict, and the identifiers that were resolved to reach it, in order. -/
structure Decision (α : Type) where
  verdict : Except AuthorizationError α
  resolutions : List Cid := []

/-- The same resolutions with the verdict carried on. -/
def Decision.andThen {α β : Type} (decision : Decision α)
    (next : α → Except AuthorizationError β) : Decision β :=
  ⟨decision.verdict.bind next, decision.resolutions⟩

end DelegatedAuthority
