import DelegatedAuthority.Config.Json
import DelegatedAuthority.Proofs.Abilities
import DelegatedAuthority.Proofs.Checks
/-!
What passes validation, and what may be relied on then.

A table that validates requires a well-formed ability of every operation: those that it does not
know require the wildcard, which is well-formed.
-/
namespace DelegatedAuthority

/-- Nothing malformed is found where all abilities are well-formed. -/
theorem find?_malformed_eq_none {α : Type} {ability : α → Ability} {xs : List α} :
    (xs.find? fun x => !(ability x).isWellFormed) = none ↔
      ∀ x ∈ xs, (ability x).isWellFormed = true := by
  simp [List.find?_eq_none]

namespace AbilityTable

variable {table : AbilityTable}

theorem validate_ok_iff :
    table.validate = .ok () ↔ ∀ e ∈ table.entries, e.2.isWellFormed = true := by
  rw [← find?_malformed_eq_none, validate]
  cases table.entries.find? fun e => !e.2.isWellFormed <;> simp

theorem mem_of_get? {operation : Operation} {ability : Ability}
    (h : table.get? operation = some ability) : (operation, ability) ∈ table.entries := by
  obtain ⟨before, after, eq, _⟩ := List.lookup_eq_some_iff.mp h
  rw [eq]
  exact List.mem_append_right before (List.mem_cons_self ..)

theorem isWellFormed_required (valid : table.validate = .ok ()) (operation : Operation) :
    (table.required operation).isWellFormed = true := by
  unfold required
  cases found : table.get? operation with
  | none => exact Ability.isWellFormed_wildcard
  | some ability => exact validate_ok_iff.mp valid _ (mem_of_get? found)

theorem required_ne_empty (valid : table.validate = .ok ()) (operation : Operation) :
    table.required operation ≠ "" :=
  Ability.ne_empty_of_isWellFormed (isWellFormed_required valid operation)

end AbilityTable

namespace Config

variable {config : Config}

theorem validate_ok_iff : config.validate = .ok () ↔
    config.audience ≠ "" ∧ config.abilities.validate = .ok () ∧
      ∀ ability ∈ config.directOnly, ability.isWellFormed = true := by
  rw [← find?_malformed_eq_none, validate]
  split
  · simp [*]
  · cases config.abilities.validate with
    | error pair => simp
    | ok passed => cases config.directOnly.find? fun ability => !ability.isWellFormed <;> simp [*]

theorem validate_of_load {text : String} (h : load text = .ok config) :
    config.validate = .ok () := by
  unfold load ofJson at h
  split at h
  · cases h
  · split at h
    · cases h
    · obtain ⟨valid, same⟩ := check_bind_eq_ok_iff.mp h
      cases same
      exact valid

end Config

end DelegatedAuthority
