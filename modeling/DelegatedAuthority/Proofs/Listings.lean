import DelegatedAuthority.Proofs.Checks
import DelegatedAuthority.Proofs.Occurrences
/-!
Exact listings, the last of which counts.

A list of required abilities is checked one by one against the resource that each is listed for
last. The first that is lacking is the answer, and those that are required again or listed without
being required have no part in it.
-/
namespace DelegatedAuthority.Delegation

variable {d d' : Delegation} {audience : Principal} {ability : Ability} {resource other : Resource}
  {before after required : List Ability} {now : Timestamp}

/-- The last capability that lists exactly this ability names this resource. -/
def ListsLast (d : Delegation) (ability : Ability) (resource : Resource) : Prop :=
  IsLast (fun c => c.ability = ability) d.capabilities ⟨ability, resource⟩

/-- An ability that is not listed, or listed last for another resource. -/
def Lacks (d : Delegation) (resource : Resource) (ability : Ability) : Prop :=
  (∀ c ∈ d.capabilities, c.ability ≠ ability) ∨ ∃ other ≠ resource, d.ListsLast ability other

theorem exists_listsLast_iff :
    (∃ resource, d.ListsLast ability resource) ↔ ∃ c ∈ d.capabilities, c.ability = ability := by
  rw [← exists_isLast_iff]
  constructor
  · rintro ⟨resource, last⟩
    exact ⟨_, last⟩
  · rintro ⟨⟨_, resource⟩, last⟩
    cases last.holds
    exact ⟨resource, last⟩

/-- What is found is what was written last, as each listing overwrites what an earlier one left. -/
theorem listedResource?_eq_some_iff :
    d.listedResource? ability = some resource ↔ d.ListsLast ability resource := by
  unfold listedResource? ListsLast
  -- from the end, where the step that is taken last decides
  induction d.capabilities using List.reverseRecOn with
  | nil => simp [not_isLast_nil]
  | append_singleton cs c ih =>
    rw [List.foldl_append, List.foldl_cons, List.foldl_nil, isLast_concat_iff]
    by_cases newest : c.ability = ability
    · rw [if_pos newest, Option.some.injEq]
      constructor
      · rintro rfl
        exact .inl ⟨newest, by rw [← newest]⟩
      · rintro (⟨_, same⟩ | ⟨older, _⟩)
        · exact congrArg Capability.resource same.symm
        · contradiction
    · rw [if_neg newest, ih]
      simp [newest]

theorem listedResource?_eq_none_iff :
    d.listedResource? ability = none ↔ ∀ c ∈ d.capabilities, c.ability ≠ ability := by
  have never : (∀ resource, ¬d.ListsLast ability resource) ↔
      ∀ c ∈ d.capabilities, c.ability ≠ ability := by
    rw [← not_exists, exists_listsLast_iff]
    simp
  rw [← never, Option.eq_none_iff_forall_ne_some]
  exact forall_congr' fun _ => not_congr listedResource?_eq_some_iff

theorem lacks_iff : d.Lacks resource ability ↔ d.listedResource? ability ≠ some resource := by
  simp only [Lacks, ← listedResource?_eq_none_iff, ← listedResource?_eq_some_iff]
  cases d.listedResource? ability <;> simp

theorem not_lacks_iff : ¬d.Lacks resource ability ↔ d.ListsLast ability resource := by
  rw [lacks_iff, not_not, listedResource?_eq_some_iff]

theorem checkListed_ok_iff :
    d.checkListed resource required = .ok () ↔ ∀ ability ∈ required, ¬d.Lacks resource ability := by
  induction required with
  | nil => simp [checkListed]
  | cons ability rest ih =>
    rw [checkListed, List.forall_mem_cons, lacks_iff, ← ih]
    cases d.listedResource? ability with
    | none => simp
    | some listed => by_cases same : listed = resource <;> simp [same]

theorem checkListed_append : d.checkListed resource (before ++ after) =
    (d.checkListed resource before >>= fun _ => d.checkListed resource after) := by
  induction before with
  | nil => rfl
  | cons ability rest ih =>
    rw [List.cons_append, checkListed, checkListed]
    cases d.listedResource? ability with
    | none => rfl
    | some listed =>
      dsimp only
      by_cases same : listed = resource
      · rw [if_pos same, if_pos same, ih]
      · rw [if_neg same, if_neg same]
        rfl

theorem checkListed_of_ok (passed : d.checkListed resource before = .ok ()) :
    d.checkListed resource (before ++ after) = d.checkListed resource after := by
  rw [checkListed_append, passed]
  rfl

theorem checkListed_of_listsLast (listed : d.ListsLast ability other) :
    d.checkListed resource (ability :: after) =
      if other = resource then d.checkListed resource after
      else .error (.wrongResource ability resource other) := by
  rw [checkListed, listedResource?_eq_some_iff.mpr listed]

/-- The first ability that is lacking decides, as if nothing were required before it. -/
theorem checkListed_of_isFirst (first : IsFirst (d.Lacks resource) required ability) :
    ∃ after, d.checkListed resource required = d.checkListed resource (ability :: after) := by
  obtain ⟨before, after, rfl, _, passed⟩ := first
  exact ⟨after, checkListed_of_ok (checkListed_ok_iff.mpr passed)⟩

theorem checkListed_of_unlisted (first : IsFirst (d.Lacks resource) required ability)
    (unlisted : ∀ c ∈ d.capabilities, c.ability ≠ ability) :
    d.checkListed resource required = .error (.missingCapability ability) := by
  obtain ⟨after, decided⟩ := checkListed_of_isFirst first
  rw [decided, checkListed, listedResource?_eq_none_iff.mpr unlisted]

theorem checkListed_of_elsewhere (first : IsFirst (d.Lacks resource) required ability)
    (listed : d.ListsLast ability other) :
    d.checkListed resource required = .error (.wrongResource ability resource other) := by
  obtain ⟨after, decided⟩ := checkListed_of_isFirst first
  have differs : other ≠ resource := by
    rintro rfl
    exact not_lacks_iff.mpr listed first.holds
  rw [decided, checkListed_of_listsLast listed, if_neg differs]

/-- What is required once more is lacking only if it was lacking before. -/
theorem checkListed_repeated (again : ability ∈ before) :
    d.checkListed resource (before ++ ability :: after) =
      d.checkListed resource (before ++ after) := by
  rw [checkListed_append, checkListed_append]
  cases passed : d.checkListed resource before with
  | error e => rfl
  | ok =>
    -- all that came before was listed, and so is this
    have listed := not_lacks_iff.mp (checkListed_ok_iff.mp passed ability again)
    show d.checkListed resource (ability :: after) = d.checkListed resource after
    rw [checkListed_of_listsLast listed, if_pos rfl]

/-- To find what lists an ability, it is enough to look at what lists any of the required ones. -/
theorem listedResource?_filter (member : ability ∈ required) : d.listedResource? ability =
    (d.capabilities.filter fun c => c.ability ∈ required).foldl
      (fun found c => if c.ability = ability then some c.resource else found) none := by
  rw [listedResource?, List.foldl_filter]
  congr 1
  funext found c
  by_cases same : c.ability = ability
  · simp [same, member]
  · simp [same]

theorem checkListed_congr
    (same : ∀ ability ∈ required, d'.listedResource? ability = d.listedResource? ability) :
    d'.checkListed resource required = d.checkListed resource required := by
  induction required with
  | nil => rfl
  | cons ability rest ih =>
    obtain ⟨here, later⟩ := List.forall_mem_cons.mp same
    rw [checkListed, checkListed, here, ih later]

/-- What is listed without being required has no part in the answer. -/
theorem checkListed_of_filter
    (listings : (d'.capabilities.filter fun c => c.ability ∈ required) =
      (d.capabilities.filter fun c => c.ability ∈ required)) :
    d'.checkListed resource required = d.checkListed resource required := by
  apply checkListed_congr
  intro ability member
  rw [listedResource?_filter member, listedResource?_filter member, listings]

theorem validateListed_of_misaddressed (misaddressed : d.audience ≠ audience) :
    d.validateListed audience resource required now =
      .error (.wrongAudience audience d.audience) := by
  rw [validateListed, checkAudience_error_iff.mpr ⟨misaddressed, rfl⟩]
  rfl

theorem validateListed_of_late {last : Timestamp} (addressed : d.audience = audience)
    (expires : d.expiration = some last) (late : last < now) :
    d.validateListed audience resource required now = .error (.expired last now) := by
  rw [validateListed, checkAudience_ok_iff.mpr addressed,
    checkExpiration_error_iff.mpr ⟨last, expires, late, rfl⟩]
  rfl

theorem validateListed_of_current (addressed : d.audience = audience)
    (current : ∀ last, d.expiration = some last → now ≤ last) :
    d.validateListed audience resource required now = d.checkListed resource required := by
  rw [validateListed, checkAudience_ok_iff.mpr addressed,
    checkExpiration_ok_iff.mpr (isExpired_eq_false_iff.mpr current)]
  rfl

/-- Of a wrong audience, an expiration that has passed and a required ability that is lacking, the
first is the answer, and of several abilities the first that is lacking. An ability is lacking if
no capability lists it, or if the last that does names another resource; what is listed for
broader abilities, or for any that are not required, makes no difference. Nor does it make one to
require an ability again. -/
theorem validateListed_last_listing (d : Delegation) (audience : Principal) (resource : Resource)
    (required : List Ability) (now : Timestamp) :
    (d.audience ≠ audience → d.validateListed audience resource required now =
      .error (.wrongAudience audience d.audience)) ∧
    (∀ last, d.audience = audience → d.expiration = some last → last < now →
      d.validateListed audience resource required now = .error (.expired last now)) ∧
    (d.audience = audience → (∀ last, d.expiration = some last → now ≤ last) →
      (∀ ability, IsFirst (d.Lacks resource) required ability →
        ((∀ c ∈ d.capabilities, c.ability ≠ ability) →
          d.validateListed audience resource required now = .error (.missingCapability ability)) ∧
        ∀ other, d.ListsLast ability other →
          d.validateListed audience resource required now =
            .error (.wrongResource ability resource other)) ∧
      (d.validateListed audience resource required now = .ok () ↔
        ∀ ability ∈ required, ¬d.Lacks resource ability)) ∧
    (∀ before ability after, ability ∈ before →
      d.validateListed audience resource (before ++ ability :: after) now =
        d.validateListed audience resource (before ++ after) now) ∧
    ∀ d' : Delegation, d'.audience = d.audience → d'.expiration = d.expiration →
      (d'.capabilities.filter fun c => c.ability ∈ required) =
        (d.capabilities.filter fun c => c.ability ∈ required) →
      d'.validateListed audience resource required now =
        d.validateListed audience resource required now := by
  refine ⟨validateListed_of_misaddressed, fun _ => validateListed_of_late, ?_, ?_, ?_⟩
  · intro addressed current
    rw [validateListed_of_current addressed current]
    refine ⟨?_, checkListed_ok_iff⟩
    intro ability first
    exact ⟨checkListed_of_unlisted first, fun other => checkListed_of_elsewhere first⟩
  · intro before ability after again
    simp only [validateListed, checkListed_repeated again]
  · intro d' audience' expiration' listings
    simp only [validateListed, checkAudience, checkExpiration, audience', expiration',
      checkListed_of_filter listings]

/-- Lists two abilities twice, each time for another resource, and the wildcard besides. -/
def revised : Delegation where
  issuer := "owner"
  audience := "service"
  expiration := some 10
  capabilities := [⟨"read", "wall:2"⟩, ⟨"logs", "wall:1"⟩, ⟨"read", "wall:1"⟩, ⟨"logs", "wall:3"⟩,
    ⟨Ability.wildcard, "wall:1"⟩]

/-- Lists one of them as often, and a narrower one elsewhere. -/
def trimmed : Delegation where
  issuer := "agent"
  audience := "service"
  expiration := some 10
  capabilities := [⟨"read", "wall:2"⟩, ⟨"read/old", "wall:3"⟩, ⟨"read", "wall:1"⟩]

theorem revised_last_listing :
    revised.validateListed "hall" "wall:1" ["paint"] 11 =
      .error (.wrongAudience "hall" "service") ∧
    revised.validateListed "service" "wall:1" ["paint"] 11 = .error (.expired 10 11) ∧
    revised.validateListed "service" "wall:1" ["read", "logs", "paint", "logs"] 10 =
      .error (.wrongResource "logs" "wall:1" "wall:3") ∧
    revised.validateListed "service" "wall:1" ["read", "read/old"] 10 =
      .error (.missingCapability "read/old") ∧
    revised.validateListed "service" "wall:1" ["read", "logs", "read"] 10 =
      revised.validateListed "service" "wall:1" ["read", "logs"] 10 ∧
    trimmed.validateListed "service" "wall:1" ["read"] 10 = .ok () := by
  have current : ∀ last, revised.expiration = some last → (10 : Timestamp) ≤ last :=
    isExpired_eq_false_iff.mp rfl
  have read : ∀ ability ∈ ["read"], ¬revised.Lacks "wall:1" ability := by
    simp only [lacks_iff]
    decide
  have elsewhere : IsFirst (revised.Lacks "wall:1") ["read", "logs", "paint", "logs"] "logs" :=
    ⟨["read"], ["paint", "logs"], rfl, lacks_iff.mpr (by decide), read⟩
  have unlisted : IsFirst (revised.Lacks "wall:1") ["read", "read/old"] "read/old" :=
    ⟨["read"], [], rfl, lacks_iff.mpr (by decide), read⟩
  obtain ⟨misaddressed, _⟩ := validateListed_last_listing revised "hall" "wall:1" ["paint"] 11
  obtain ⟨_, late, _⟩ := validateListed_last_listing revised "service" "wall:1" ["paint"] 11
  obtain ⟨_, _, last, repeated, _⟩ :=
    validateListed_last_listing revised "service" "wall:1" ["read", "logs", "paint", "logs"] 10
  obtain ⟨_, _, missing, _⟩ :=
    validateListed_last_listing revised "service" "wall:1" ["read", "read/old"] 10
  obtain ⟨_, _, passed, _, others⟩ :=
    validateListed_last_listing revised "service" "wall:1" ["read"] 10
  refine ⟨misaddressed (by decide), late 10 rfl rfl (by decide), ?_, ?_, ?_, ?_⟩
  · exact ((last rfl current).1 "logs" elsewhere).2 "wall:3" (listedResource?_eq_some_iff.mp rfl)
  · exact ((missing rfl current).1 "read/old" unlisted).1 (by decide)
  · exact repeated ["read", "logs"] "read" [] (by decide)
  · rw [others trimmed rfl rfl (by decide)]
    exact (passed rfl current).2.mpr read

end DelegatedAuthority.Delegation
