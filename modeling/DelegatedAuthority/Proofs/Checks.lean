import DelegatedAuthority.Delegation.Checks
import DelegatedAuthority.Proofs.Abilities
/-!
The delegations that pass each of the local checks.

Every check answers with its first failure, so one that passes has met all conditions. A check
that is made of others is described by theirs.
-/
namespace DelegatedAuthority

theorem bind_eq_ok_iff {ε α β : Type} {x : Except ε α} {next : α → Except ε β} {b : β} :
    (x >>= next) = .ok b ↔ ∃ a, x = .ok a ∧ next a = .ok b := by
  cases x <;> simp [bind, Except.bind]

/-- After a check, which tells nothing but that it passed. -/
theorem check_bind_eq_ok_iff {ε β : Type} {check : Except ε Unit} {next : Unit → Except ε β}
    {b : β} : (check >>= next) = .ok b ↔ check = .ok () ∧ next () = .ok b := by
  rw [bind_eq_ok_iff]
  constructor
  · rintro ⟨⟨⟩, passed, rest⟩
    exact ⟨passed, rest⟩
  · rintro ⟨passed, rest⟩
    exact ⟨(), passed, rest⟩

/-- What comes first fails, or leaves it to what follows. -/
theorem bind_eq_error_iff {ε α β : Type} {x : Except ε α} {next : α → Except ε β} {e : ε} :
    (x >>= next) = .error e ↔ x = .error e ∨ ∃ a, x = .ok a ∧ next a = .error e := by
  cases x <;> simp [bind, Except.bind]

theorem check_bind_eq_error_iff {ε β : Type} {check : Except ε Unit} {next : Unit → Except ε β}
    {e : ε} : (check >>= next) = .error e ↔
      check = .error e ∨ check = .ok () ∧ next () = .error e := by
  cases check <;> simp [bind, Except.bind]

/-- What passed or was only cut short is not refused for any other reason. -/
theorem kind_eq_depthExceeded {α : Type} {x : Except AuthorizationError α} {a : α}
    {e : AuthorizationError} (h : x = .ok a ∨ ∃ limit, x = .error (.depthExceeded limit))
    (refused : x = .error e) : e.kind = .depthExceeded := by
  rcases h with passed | ⟨limit, cut⟩
  · rw [passed] at refused
    cases refused
  · rw [cut] at refused
    cases refused
    rfl

theorem isExpired_eq_false_iff {expiration : Option Timestamp} {now : Timestamp} :
    isExpired expiration now = false ↔ ∀ last, expiration = some last → now ≤ last := by
  cases expiration <;> simp [isExpired]

theorem Capability.allows_iff {c : Capability} {ability : Ability} {resource : Resource} :
    c.allows ability resource = true ↔ c.resource = resource ∧ c.ability.allows ability = true := by
  simp [Capability.allows]

theorem exists_allows_of_listed {cs : List Capability} {ability : Ability} {resource : Resource}
    (nonempty : ability ≠ "") (listed : ⟨ability, resource⟩ ∈ cs) :
    ∃ c ∈ cs, c.allows ability resource = true :=
  ⟨_, listed, Capability.allows_iff.mpr ⟨rfl, Ability.allows_refl nonempty⟩⟩

theorem exists_allows_empty_iff {cs : List Capability} {resource : Resource} :
    (∃ c ∈ cs, c.allows "" resource = true) ↔ ⟨Ability.wildcard, resource⟩ ∈ cs := by
  constructor
  · rintro ⟨⟨ability, _⟩, listed, allows⟩
    obtain ⟨rfl, broad⟩ := Capability.allows_iff.mp allows
    obtain rfl := Ability.allows_empty_iff.mp broad
    exact listed
  · intro listed
    exact ⟨_, listed, Capability.allows_iff.mpr ⟨rfl, Ability.allows_empty_iff.mpr rfl⟩⟩

namespace Delegation

variable {d : Delegation}

theorem checkAudience_ok_iff {expected : Principal} :
    d.checkAudience expected = .ok () ↔ d.audience = expected := by
  unfold checkAudience
  split <;> simp_all

theorem checkAudience_error_iff {expected : Principal} {e : AuthorizationError} :
    d.checkAudience expected = .error e ↔
      d.audience ≠ expected ∧ e = .wrongAudience expected d.audience := by
  unfold checkAudience
  split <;> simp_all [eq_comm]

theorem checkExpiration_ok_iff {now : Timestamp} :
    d.checkExpiration now = .ok () ↔ isExpired d.expiration now = false := by
  unfold checkExpiration
  cases d.expiration with
  | none => simp [isExpired]
  | some last => cases expired : isExpired (some last) now <;> simp [expired]

theorem checkExpiration_error_iff {now : Timestamp} {e : AuthorizationError} :
    d.checkExpiration now = .error e ↔
      ∃ last, d.expiration = some last ∧ last < now ∧ e = .expired last now := by
  unfold checkExpiration
  cases d.expiration with
  | none => simp
  | some last => by_cases late : last < now <;> simp [isExpired, late, eq_comm]

theorem checkInvoker_ok_iff {invoker : Principal} :
    d.checkInvoker invoker = .ok () ↔ invoker = d.issuer := by
  unfold checkInvoker
  split <;> simp_all

theorem checkInvoker_error_iff {invoker : Principal} {e : AuthorizationError} :
    d.checkInvoker invoker = .error e ↔
      invoker ≠ d.issuer ∧ e = .invocationNotAuthorized invoker d.issuer := by
  unfold checkInvoker
  split <;> simp_all [eq_comm]

theorem findGrant_ok_iff {ability : Ability} {resource : Resource} {elsewhere : Option Resource}
    {cs : List Capability} {c : Capability} :
    findGrant ability resource elsewhere cs = .ok c ↔
      cs.find? (fun c => c.allows ability resource) = some c := by
  induction cs generalizing elsewhere with
  | nil => cases elsewhere <;> simp [findGrant]
  | cons first rest ih =>
    rw [findGrant, List.find?_cons]
    cases allowed : first.allows ability resource with
    | true => simp
    | false => simpa using ih

theorem checkGrant_ok_iff {ability : Ability} {resource : Resource} {c : Capability} :
    d.checkGrant ability resource = .ok c ↔
      d.capabilities.find? (fun c => c.allows ability resource) = some c :=
  findGrant_ok_iff

theorem checkGrant_ok_exists {ability : Ability} {resource : Resource} :
    (∃ c, d.checkGrant ability resource = .ok c) ↔
      ∃ c ∈ d.capabilities, c.allows ability resource = true := by
  simp only [checkGrant_ok_iff, ← Option.isSome_iff_exists, List.find?_isSome]

/-- Where no capability will do, the first that would do elsewhere tells what is wrong. -/
theorem findGrant_of_none {ability : Ability} {resource : Resource} {cs : List Capability}
    (refused : ∀ c ∈ cs, c.allows ability resource = false) (elsewhere : Option Resource) :
    findGrant ability resource elsewhere cs =
      match elsewhere.or ((cs.find? fun c => c.ability.allows ability).map (·.resource)) with
      | some other => .error (.wrongResource ability resource other)
      | none => .error (.missingCapability ability) := by
  induction cs generalizing elsewhere with
  | nil => cases elsewhere <;> rfl
  | cons first rest ih =>
    obtain ⟨skipped, others⟩ := List.forall_mem_cons.mp refused
    rw [findGrant, if_neg (by simp [skipped])]
    dsimp only
    rw [ih others, List.find?_cons]
    cases elsewhere <;> cases first.ability.allows ability <;> simp

theorem checkGrant_error_iff {ability : Ability} {resource : Resource} {e : AuthorizationError} :
    d.checkGrant ability resource = .error e ↔
      (∀ c ∈ d.capabilities, c.allows ability resource = false) ∧
        ((∃ c, d.capabilities.find? (fun c => c.ability.allows ability) = some c ∧
            e = .wrongResource ability resource c.resource) ∨
          (∀ c ∈ d.capabilities, c.ability.allows ability = false) ∧
            e = .missingCapability ability) := by
  by_cases refused : ∀ c ∈ d.capabilities, c.allows ability resource = false
  · rw [checkGrant, findGrant_of_none refused, Option.none_or]
    cases found : d.capabilities.find? fun c => c.ability.allows ability with
    | none =>
      have nowhere : ∀ c ∈ d.capabilities, c.ability.allows ability = false := by
        simpa using List.find?_eq_none.mp found
      constructor
      · rintro ⟨⟩
        exact ⟨refused, .inr ⟨nowhere, rfl⟩⟩
      · rintro ⟨_, ⟨c, first, _⟩ | ⟨_, rfl⟩⟩
        · cases first
        · rfl
    | some c =>
      constructor
      · rintro ⟨⟩
        exact ⟨refused, .inl ⟨c, rfl, rfl⟩⟩
      · rintro ⟨_, ⟨_, ⟨⟩, rfl⟩ | ⟨nowhere, _⟩⟩
        · rfl
        · have allows := List.find?_some found
          simp [nowhere c (List.mem_of_find?_eq_some found)] at allows
  · have allowed : ∃ c ∈ d.capabilities, c.allows ability resource = true := by
      simpa using refused
    obtain ⟨c, granted⟩ := checkGrant_ok_exists.mpr allowed
    simp [granted, refused]

theorem checkDirect_ok_iff {owner : Principal} :
    d.checkDirect owner = .ok () ↔ d.issuer = owner ∧ d.proofs = [] := by
  unfold checkDirect
  by_cases issued : d.issuer = owner
  · cases d.proofs <;> simp [issued]
  · simp [issued]

theorem checkListsExactly_ok_iff {ability : Ability} {resource : Resource} :
    d.checkListsExactly ability resource = .ok () ↔ ⟨ability, resource⟩ ∈ d.capabilities := by
  unfold checkListsExactly
  split <;> simp_all

theorem validateErase_ok_iff {audience owner : Principal} {requirement : Requirement}
    {now : Timestamp} : d.validateErase audience owner requirement now = .ok () ↔
      d.audience = audience ∧ isExpired d.expiration now = false ∧
        (d.issuer = owner ∧ d.proofs = []) ∧
        ⟨requirement.ability, requirement.resource⟩ ∈ d.capabilities := by
  simp only [validateErase, check_bind_eq_ok_iff, checkAudience_ok_iff, checkExpiration_ok_iff,
    checkDirect_ok_iff, checkListsExactly_ok_iff]

end Delegation

end DelegatedAuthority
