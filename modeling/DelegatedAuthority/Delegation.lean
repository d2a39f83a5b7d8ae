import DelegatedAuthority.Capability
import DelegatedAuthority.Cid
import DelegatedAuthority.Timestamp
/-!
Delegations: the credentials by which an issuer passes capabilities on to an audience.

A delegation is plain data. That its issuer signed it is checked where it is loaded.
-/
namespace DelegatedAuthority

/-- Capabilities passed from an issuer to an audience, until an expiration if there is one,
with references to the delegations that prove the issuer's own authority. -/
structure Delegation where
  issuer : Principal
  audience : Principal
  expiration : Option Timestamp := none
  capabilities : List Capability := []
  proofs : List Cid := []
  deriving DecidableEq

end DelegatedAuthority
