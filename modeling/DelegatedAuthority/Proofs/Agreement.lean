import DelegatedAuthority.Proofs.Listings
/-!
Where the three scans of a credential's capabilities agree.

One keeps the last resource of an ability, one stops at the first capability that allows it, and
one compares all resources with the first. On credentials that name a single resource they cannot
differ, and on others an exact listing that counts is always also a grant. Only the empty ability
may be listed and yet not granted, as it allows nothing, itself included.
-/
namespace DelegatedAuthority.Delegation

variable {d : Delegation} {audience : Principal} {ability : Ability}
  {first resource other : Resource} {required : List Ability} {cs : List Capability}
  {now : Timestamp}

theorem ListsLast.listed (h : d.ListsLast ability resource) :
    ⟨ability, resource⟩ ∈ d.capabilities :=
  h.mem

theorem validateListed_ok_iff : d.validateListed audience resource required now = .ok () ↔
    d.audience = audience ∧ (∀ last, d.expiration = some last → now ≤ last) ∧
      ∀ ability ∈ required, d.ListsLast ability resource := by
  simp only [validateListed, check_bind_eq_ok_iff, checkAudience_ok_iff, checkExpiration_ok_iff,
    isExpired_eq_false_iff, checkListed_ok_iff, not_lacks_iff]

/-- What is listed last over a resource is granted over it, unless it is the empty ability. -/
theorem ListsLast.granted_iff (h : d.ListsLast ability resource) :
    (∃ c, d.checkGrant ability resource = .ok c) ↔
      ability ≠ "" ∨ ⟨Ability.wildcard, resource⟩ ∈ d.capabilities := by
  rw [checkGrant_ok_exists]
  constructor
  · intro allowed
    by_cases empty : ability = ""
    · right
      rw [empty] at allowed
      exact exists_allows_empty_iff.mp allowed
    · exact .inl empty
  · rintro (nonempty | wildcard)
    · exact exists_allows_of_listed nonempty h.listed
    · exact ⟨_, wildcard, Capability.allows_iff.mpr ⟨rfl, Ability.wildcard_allows ability⟩⟩

theorem sharedResource_ok_iff : sharedResource first cs = .ok resource ↔
    resource = first ∧ ∀ c ∈ cs, c.resource = first := by
  induction cs with
  | nil => simp [sharedResource, eq_comm]
  | cons c rest ih =>
    rw [sharedResource, List.forall_mem_cons]
    by_cases same : c.resource = first
    · rw [if_pos same, ih]
      simp [same]
    · rw [if_neg same]
      simp [same]

theorem sharedResource_error_iff {e : AuthorizationError} : sharedResource first cs = .error e ↔
    ∃ c, IsFirst (fun c => c.resource ≠ first) cs c ∧
      e = .mismatchedResources first c.resource := by
  induction cs with
  | nil => simp [sharedResource, not_isFirst_nil]
  | cons c rest ih =>
    rw [sharedResource]
    by_cases same : c.resource = first
    · rw [if_pos same, ih]
      simp [isFirst_cons_iff, same]
    · rw [if_neg same]
      constructor
      · rintro ⟨⟩
        exact ⟨c, isFirst_cons_iff.mpr (.inl ⟨same, rfl⟩), rfl⟩
      · rintro ⟨other, differs, rfl⟩
        rcases isFirst_cons_iff.mp differs with ⟨_, rfl⟩ | ⟨agrees, _⟩
        · rfl
        · contradiction

theorem commonResource_ok_iff : d.commonResource = .ok resource ↔
    d.capabilities ≠ [] ∧ ∀ c ∈ d.capabilities, c.resource = resource := by
  unfold commonResource
  cases d.capabilities with
  | nil => simp
  | cons c rest =>
    dsimp only
    rw [sharedResource_ok_iff, List.forall_mem_cons]
    constructor
    · rintro ⟨rfl, same⟩
      exact ⟨List.cons_ne_nil c rest, rfl, same⟩
    · rintro ⟨_, rfl, same⟩
      exact ⟨rfl, same⟩

theorem commonResource_error_iff {e : AuthorizationError} : d.commonResource = .error e ↔
    d.capabilities = [] ∧ e = .noCapabilities ∨
      ∃ first rest c, d.capabilities = first :: rest ∧
        IsFirst (fun c => c.resource ≠ first.resource) d.capabilities c ∧
        e = .mismatchedResources first.resource c.resource := by
  unfold commonResource
  cases d.capabilities with
  | nil => simp [eq_comm]
  | cons c rest =>
    dsimp only
    rw [sharedResource_error_iff]
    simp [isFirst_cons_iff]

/-- With a single resource, the last listing of an ability names what all of them name. -/
theorem listsLast_of_common (common : d.commonResource = .ok resource)
    (listed : ∃ c ∈ d.capabilities, c.ability = ability) : d.ListsLast ability resource := by
  obtain ⟨other, last⟩ := exists_listsLast_iff.mpr listed
  obtain ⟨_, single⟩ := commonResource_ok_iff.mp common
  have same : other = resource := single _ last.listed
  rwa [same] at last

theorem validateListed_of_common (common : d.commonResource = .ok resource)
    (current : ∀ last, d.expiration = some last → now ≤ last)
    (listed : ∀ ability ∈ required, ∃ c ∈ d.capabilities, c.ability = ability) :
    d.validateListed d.audience resource required now = .ok () := by
  refine validateListed_ok_iff.mpr ⟨rfl, current, ?_⟩
  intro ability member
  exact listsLast_of_common common (listed ability member)

/-- What counts for one resource is refused for any other, and the refusal names the one. -/
theorem validateListed_elsewhere (current : ∀ last, d.expiration = some last → now ≤ last)
    (last : d.ListsLast ability resource) (differs : other ≠ resource) :
    d.validateListed d.audience other (ability :: required) now =
      .error (.wrongResource ability other resource) := by
  rw [validateListed_of_current rfl current, checkListed_of_listsLast last, if_neg differs.symm]

/-- What allows an ability at all allows it over the single resource. -/
theorem missing_of_common {e : AuthorizationError} (common : d.commonResource = .ok resource)
    (refused : d.checkGrant ability resource = .error e) : e = .missingCapability ability := by
  obtain ⟨_, single⟩ := commonResource_ok_iff.mp common
  obtain ⟨none, ⟨c, first, _⟩ | ⟨_, missing⟩⟩ := checkGrant_error_iff.mp refused
  · have listed := List.mem_of_find?_eq_some first
    have allows := List.find?_some first
    have granted : c.allows ability resource = true :=
      Capability.allows_iff.mpr ⟨single c listed, allows⟩
    rw [none c listed] at granted
    cases granted
  · exact missing

/-- Exact listings that count are grants, but for the empty ability, which takes a wildcard over the
resource. A credential has a single resource if it lists anything and all it lists names the same;
the first that differs from the first of all is what the refusal names. Over the single resource
all that is listed counts and nothing is found elsewhere, and over any other resource nothing
counts. -/
theorem local_checks_agree (d : Delegation) :
    (∀ audience resource required now,
      d.validateListed audience resource required now = .ok () → ∀ ability ∈ required,
        ((∃ c, d.checkGrant ability resource = .ok c) ↔
          ability ≠ "" ∨ ⟨Ability.wildcard, resource⟩ ∈ d.capabilities)) ∧
    (∀ resource, d.commonResource = .ok resource →
      (∀ audience required now, d.audience = audience →
        (∀ last, d.expiration = some last → now ≤ last) →
        (∀ ability ∈ required, ∃ c ∈ d.capabilities, c.ability = ability) →
        d.validateListed audience resource required now = .ok () ∧
        ∀ other ≠ resource, ∀ ability rest, required = ability :: rest →
          d.validateListed audience other required now =
            .error (.wrongResource ability other resource)) ∧
      ∀ ability e, d.checkGrant ability resource = .error e → e = .missingCapability ability) ∧
    (∀ resource, d.commonResource = .ok resource ↔
      d.capabilities ≠ [] ∧ ∀ c ∈ d.capabilities, c.resource = resource) ∧
    (∀ e, d.commonResource = .error e ↔
      d.capabilities = [] ∧ e = .noCapabilities ∨
        ∃ first rest c, d.capabilities = first :: rest ∧
          IsFirst (fun c => c.resource ≠ first.resource) d.capabilities c ∧
          e = .mismatchedResources first.resource c.resource) ∧
    AuthorizationError.noCapabilities.kind = .missingCapability := by
  refine ⟨?_, ?_, fun _ => commonResource_ok_iff, fun _ => commonResource_error_iff, rfl⟩
  · intro audience resource required now valid ability member
    obtain ⟨_, _, listed⟩ := validateListed_ok_iff.mp valid
    exact (listed ability member).granted_iff
  · intro resource common
    constructor
    · rintro _ required now rfl current listed
      refine ⟨validateListed_of_common common current listed, ?_⟩
      rintro other differs ability rest rfl
      have last : d.ListsLast ability resource :=
        listsLast_of_common common (listed ability (List.mem_cons_self ..))
      exact validateListed_elsewhere current last differs
    · intro ability e
      exact missing_of_common common

/-- Lists a single resource, and the empty ability among others. -/
def ward : Delegation where
  issuer := "owner"
  audience := "service"
  expiration := some 10
  capabilities := [⟨"", "wall:1"⟩, ⟨"logs", "wall:1"⟩, ⟨"read/", "wall:1"⟩, ⟨"logs", "wall:1"⟩]

theorem ward_checks_agree :
    ward.commonResource = .ok "wall:1" ∧
    ward.validateListed "service" "wall:1" ["logs", "", "read/"] 10 = .ok () ∧
    (∃ c, ward.checkGrant "read/" "wall:1" = .ok c) ∧
    (¬∃ c, ward.checkGrant "" "wall:1" = .ok c) ∧
    ward.validateListed "service" "wall:2" ["logs", "", "read/"] 10 =
      .error (.wrongResource "logs" "wall:2" "wall:1") ∧
    ward.checkGrant "" "wall:1" = .error (.missingCapability "") := by
  obtain ⟨granted, single, common, _, _⟩ := local_checks_agree ward
  have resource : ward.commonResource = .ok "wall:1" := (common _).mpr (by decide)
  obtain ⟨counts, missing⟩ := single "wall:1" resource
  have current : ∀ last, ward.expiration = some last → (10 : Timestamp) ≤ last :=
    isExpired_eq_false_iff.mp rfl
  obtain ⟨valid, elsewhere⟩ := counts "service" ["logs", "", "read/"] 10 rfl current (by decide)
  refine ⟨resource, valid, ?_, ?_, elsewhere "wall:2" (by decide) "logs" ["", "read/"] rfl, ?_⟩
  · exact (granted "service" "wall:1" _ 10 valid "read/" (by decide)).mpr (.inl (by decide))
  · rw [granted "service" "wall:1" _ 10 valid "" (by decide)]
    decide
  · cases refused : ward.checkGrant "" "wall:1" with
    | ok c => cases refused
    | error e => rw [missing "" e refused]

end DelegatedAuthority.Delegation
