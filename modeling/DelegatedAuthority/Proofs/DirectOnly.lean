import DelegatedAuthority.Proofs.Abilities
import DelegatedAuthority.Proofs.Stability
/-!
Direct-only abilities, which no chain of proofs carries.

What falls under one is direct-only itself, since the order of abilities is transitive. A request
for one is decided on the credential alone: its proofs are not looked at, it may not have any, and
what it lists must be the very ability, not one that allows it.
-/
namespace DelegatedAuthority

theorem Config.isDirectOnly_of_allows {config : Config} {broad narrow : Ability}
    (direct : config.isDirectOnly broad = true) (allows : broad.allows narrow = true) :
    config.isDirectOnly narrow = true := by
  obtain ⟨held, listed, above⟩ := List.any_eq_true.mp direct
  exact List.any_eq_true.mpr ⟨held, listed, Ability.allows_trans above allows⟩

namespace Authorizer

variable {a : Authorizer} {request : Request} {now : Timestamp}

theorem authorizeEraseAt_under (limits : Limits) (resolver : Resolver) :
    (a.under limits resolver).authorizeEraseAt request now = a.authorizeEraseAt request now :=
  rfl

/-- Direct-only abilities are closed under narrowing and never travel through a chain. What a
direct-only ability allows is direct-only. A request for one is decided as an erasure, without
any resolution, and the same whatever could be resolved and however far; it is granted only to
the owner, on a credential of its own that rests on no proofs and lists the ability itself. -/
theorem directOnly_firsthand (a : Authorizer) :
    (∀ o o', a.config.isDirectOnly (a.config.abilities.required o) = true →
      (a.config.abilities.required o).allows (a.config.abilities.required o') = true →
      a.config.isDirectOnly (a.config.abilities.required o') = true) ∧
    ∀ request, a.config.isDirectOnly (a.config.abilities.required request.operation) = true →
      ∀ now, a.authorizeAt request now = a.authorizeEraseAt request now ∧
        (a.authorizeAt request now).resolutions = [] ∧
        (∀ limits resolver,
          (a.under limits resolver).authorizeAt request now = a.authorizeAt request now) ∧
        ∀ grant, (a.authorizeAt request now).verdict = .ok grant →
          request.credential.issuer = request.owner ∧ request.owner = request.invoker ∧
          request.credential.proofs = [] ∧
          ⟨a.config.abilities.required request.operation, request.resource⟩ ∈
            request.credential.capabilities := by
  constructor
  · intro o o' direct allows
    exact Config.isDirectOnly_of_allows direct allows
  · intro request direct now
    have same : a.authorizeAt request now = a.authorizeEraseAt request now :=
      authorizeAt_of_isDirectOnly direct
    refine ⟨same, ?_, ?_, ?_⟩
    · rw [same]
      rfl
    · intro limits resolver
      have elsewhere : (a.under limits resolver).authorizeAt request now =
          (a.under limits resolver).authorizeEraseAt request now :=
        authorizeAt_of_isDirectOnly direct
      rw [elsewhere, same, authorizeEraseAt_under]
    · intro grant granted
      rw [same] at granted
      exact firsthand_of_erase granted

/-- Blobs are direct-only as a whole, and so is what erases one. -/
def vault : Authorizer where
  config := {
    audience := "service"
    abilities := .ofList [("purge", "blob"), (Operation.erase, Ability.blobRemove)]
    directOnly := ["blob"] }
  resolver := .ofTable []

/-- The owner asks to erase, on a credential that lists all but the ability itself. -/
def broadRequest : Request where
  operation := Operation.erase
  resource := "blob:1"
  owner := "owner"
  invoker := "owner"
  credential := {
    issuer := "owner"
    audience := "service"
    capabilities := [⟨Ability.wildcard, "blob:1"⟩, ⟨"blob", "blob:1"⟩] }

theorem vault_firsthand :
    vault.config.isDirectOnly (vault.config.abilities.required "purge") = true ∧
    (vault.config.abilities.required "purge").allows
      (vault.config.abilities.required Operation.erase) = true ∧
    vault.config.isDirectOnly (vault.config.abilities.required Operation.erase) = true ∧
    ∀ limits resolver now grant,
      ((vault.under limits resolver).authorizeAt broadRequest now).verdict ≠ .ok grant := by
  obtain ⟨closed, decided⟩ := directOnly_firsthand vault
  have purge : vault.config.isDirectOnly (vault.config.abilities.required "purge") = true := by
    decide +kernel
  have allows : (vault.config.abilities.required "purge").allows
      (vault.config.abilities.required Operation.erase) = true := by decide +kernel
  have erase : vault.config.isDirectOnly (vault.config.abilities.required Operation.erase) = true :=
    closed "purge" Operation.erase purge allows
  refine ⟨purge, allows, erase, ?_⟩
  intro limits resolver now grant granted
  obtain ⟨_, _, everywhere, firsthand⟩ := decided broadRequest erase now
  rw [everywhere] at granted
  obtain ⟨_, _, _, listed⟩ := firsthand grant granted
  revert listed
  decide +kernel

/-- With the ability itself among them the owner may erase. -/
example : (vault.authorizeAt { broadRequest with credential := { broadRequest.credential with
    capabilities := ⟨Ability.blobRemove, "blob:1"⟩ :: broadRequest.credential.capabilities } }
      0).verdict.toOption =
    some ⟨Operation.erase, Ability.blobRemove, "blob:1", "owner", true⟩ := by
  decide +kernel

end Authorizer

end DelegatedAuthority
