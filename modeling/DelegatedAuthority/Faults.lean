import DelegatedAuthority.BlockStore
/-!
Faults between a store and its reader: a source that is down, blocks that cannot be reached,
and issuers whose signatures do not verify.
-/
namespace DelegatedAuthority

structure Faults where
  down : Bool := false
  unreachable : List Cid := []
  forged : List Principal := []

namespace Faults

def fetch (faults : Faults) (store : BlockStore) (cid : Cid) :
    Except AuthorizationError Bytes :=
  if faults.down || faults.unreachable.contains cid then
    .error (.reported .fetchError ("Timed out fetching " ++ cid.toText))
  else store.get cid

/-- Refuses a delegation by an issuer whose signatures are forged. -/
def verify (faults : Faults) (d : Delegation) : Except AuthorizationError Unit :=
  if faults.forged.contains d.issuer then
    .error (.reported .invalidSignature ("Signature by " ++ d.issuer ++ " does not verify"))
  else .ok ()

/-- Reads and verifies delegations from a store, as far as the faults allow. -/
def resolver (faults : Faults) (store : BlockStore) : Resolver :=
  .ofBlocks (faults.fetch store) faults.verify

end Faults

end DelegatedAuthority
