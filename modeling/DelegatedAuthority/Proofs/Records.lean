import DelegatedAuthority.Json.Record
import Mathlib.Data.List.Forall2
/-!
What a record gives to the fields it knows.

Only that matters when a record is read. In an object neither the order of its members counts nor
what stands under other names; an array leaves out fields at its end. A known name that stands
twice, a `null` and an element too many give nothing that a field could be read from.
-/
namespace DelegatedAuthority

theorem exists_of_forall₂ {α β : Type} {R : α → β → Prop} {as : List α} {bs : List β} {a : α}
    (h : List.Forall₂ R as bs) (member : a ∈ as) : ∃ b ∈ bs, R a b := by
  induction h with
  | nil => cases member
  | cons first _ ih =>
    rcases List.mem_cons.mp member with rfl | member
    · exact ⟨_, List.mem_cons_self .., first⟩
    · obtain ⟨b, found, related⟩ := ih member
      exact ⟨b, List.mem_cons_of_mem _ found, related⟩

namespace Fields

variable {α : Type} {fields fields' : List (String × α)} {name : String} {a : α} {o : Option α}

theorem values_cons (other : String) (a : α) (fields : List (String × α)) (name : String) :
    values ((other, a) :: fields) name =
      if other = name then a :: values fields name else values fields name := by
  rw [values, List.filterMap_cons]
  split <;> split <;> simp_all [values]

theorem mem_values_iff : a ∈ values fields name ↔ (name, a) ∈ fields := by
  induction fields with
  | nil => simp [values]
  | cons field rest ih =>
    obtain ⟨other, b⟩ := field
    rw [values_cons]
    by_cases same : other = name
    · simp [same, ih]
    · simp [same, ih, Ne.symm same]

theorem values_perm (h : fields.Perm fields') (name : String) :
    (values fields name).Perm (values fields' name) :=
  h.filterMap _

/-- Fields of other names say nothing about a known one. -/
theorem values_filter {names : List String} (known : name ∈ names) (fields : List (String × α)) :
    values (fields.filter fun field => field.1 ∈ names) name = values fields name := by
  rw [values, values, List.filterMap_filter]
  congr 1
  funext field
  by_cases same : field.1 = name <;> simp [same, known]

theorem values_append (before after : List (String × α)) (name : String) :
    values (before ++ after) name = values before name ++ values after name :=
  List.filterMap_append

end Fields

namespace Json

variable {names : List String} {given : List (Option Json)} {value : Json}
  {members : List (String × Json)}

theorem mapM_eq_some_iff {α β : Type} {f : α → Option β} {as : List α} {bs : List β} :
    as.mapM f = some bs ↔ List.Forall₂ (fun a b => f a = some b) as bs := by
  induction as generalizing bs with
  | nil => simp [eq_comm]
  | cons a as ih =>
    rw [List.forall₂_cons_left_iff]
    simp only [List.mapM_cons, Option.bind_eq_bind, Option.bind_eq_some_iff, Option.pure_def,
      Option.some.injEq, ih]
    constructor
    · rintro ⟨b, first, bs, others, rfl⟩
      exact ⟨b, bs, first, others, rfl⟩
    · rintro ⟨b, bs, first, others, rfl⟩
      exact ⟨b, first, bs, others, rfl⟩

theorem fields?_object_eq_some_iff : (object members).fields? names = some given ↔
    List.Forall₂ (fun name o => Fields.values members name = o.toList) names given := by
  simp only [fields?, mapM_eq_some_iff, Fields.single?, Fields.atMostOne?_eq_some_iff]

/-- The members that give values to named fields, in the order of the names. -/
def membersOf (names : List String) (given : List (Option Json)) : List (String × Json) :=
  (names.zip given).filterMap fun (name, o) => o.map (name, ·)

theorem membersOf_cons (name : String) (o : Option Json) (names : List String)
    (given : List (Option Json)) : membersOf (name :: names) (o :: given) =
      (o.map (name, ·)).toList ++ membersOf names given := by
  cases o <;> simp [membersOf]

theorem mem_membersOf (h : (name, value) ∈ membersOf names given) : name ∈ names := by
  obtain ⟨⟨other, o⟩, paired, eq⟩ := List.mem_filterMap.mp h
  obtain ⟨_, _, same⟩ := Option.map_eq_some_iff.mp eq
  cases same
  exact (List.of_mem_zip paired).1

theorem values_membersOf (nodup : names.Nodup) (paired : (name, o) ∈ names.zip given) :
    Fields.values (membersOf names given) name = o.toList := by
  induction names generalizing given with
  | nil => cases paired
  | cons first names ih =>
    obtain ⟨fresh, nodup⟩ := List.nodup_cons.mp nodup
    cases given with
    | nil => cases paired
    | cons o' given =>
      rw [membersOf_cons, Fields.values_append]
      rcases List.mem_cons.mp paired with same | paired
      · cases same
        have others : Fields.values (membersOf names given) name = [] := by
          refine List.eq_nil_iff_forall_not_mem.mpr fun value found => ?_
          exact fresh (mem_membersOf (Fields.mem_values_iff.mp found))
        rw [others, List.append_nil]
        cases o <;> simp [Fields.values]
      · have other : first ≠ name := by
          rintro rfl
          exact fresh (List.of_mem_zip paired).1
        have none : Fields.values (o'.map (first, ·)).toList name = [] := by
          cases o' <;> simp [Fields.values, other]
        rw [none, List.nil_append]
        exact ih nodup paired

/-- A record that gives these values to the named fields: an object with its members in any order
and among others, or an array in the order of the names that leaves out some at the end. -/
inductive IsRecord (names : List String) : Json → List (Option Json) → Prop
  | object {members : List (String × Json)} {given : List (Option Json)} :
      given.length = names.length →
      (members.filter fun member => member.1 ∈ names).Perm (membersOf names given) →
      IsRecord names (.object members) given
  | array {elements : List Json} {omitted : Nat} {given : List (Option Json)} :
      given.length = names.length → given = elements.map some ++ List.replicate omitted none →
      IsRecord names (.array elements) given

theorem IsRecord.fields? (h : IsRecord names value given) (nodup : names.Nodup) :
    value.fields? names = some given := by
  cases h with
  | @object members _ length same =>
    rw [fields?_object_eq_some_iff, List.forall₂_iff_zip]
    refine ⟨length.symm, ?_⟩
    intro name o paired
    have known : name ∈ names := (List.of_mem_zip paired).1
    have perm := Fields.values_perm same name
    rw [Fields.values_filter known, values_membersOf nodup paired] at perm
    cases o with
    | none => exact List.perm_nil.mp perm
    | some value => exact List.perm_singleton.mp perm
  | @array elements omitted _ length same =>
    subst same
    rw [List.length_append, List.length_map, List.length_replicate] at length
    have fits : elements.length ≤ names.length := by omega
    have rest : names.length - elements.length = omitted := by omega
    rw [Json.fields?, if_pos fits, rest]

/-- What cannot be read as a record, whatever its fields are: a known name is given twice or has
no value, or there are more elements than fields. -/
inductive Misgiven (names : List String) : Json → Prop
  | repeated {before between after : List (String × Json)} {name : String} {first second : Json} :
      name ∈ names →
      Misgiven names (.object (before ++ (name, first) :: between ++ (name, second) :: after))
  | nullMember {members : List (String × Json)} {name : String} :
      name ∈ names → (name, .null) ∈ members → Misgiven names (.object members)
  | nullElement {elements : List Json} : .null ∈ elements → Misgiven names (.array elements)
  | tooMany {elements : List Json} :
      names.length < elements.length → Misgiven names (.array elements)

/-- No more is found in it than a `null`. -/
theorem Misgiven.null_of_fields? (h : Misgiven names value)
    (found : value.fields? names = some given) : some .null ∈ given := by
  cases h with
  | repeated known =>
    obtain ⟨o, _, values⟩ := exists_of_forall₂ (fields?_object_eq_some_iff.mp found) known
    have two := congrArg List.length values
    have one : o.toList.length ≤ 1 := by cases o <;> simp
    simp only [Fields.values_append, Fields.values_cons, if_true, List.length_append,
      List.length_cons] at two
    omega
  | nullMember known member =>
    obtain ⟨o, here, values⟩ := exists_of_forall₂ (fields?_object_eq_some_iff.mp found) known
    have null : .null ∈ o.toList := values ▸ Fields.mem_values_iff.mpr member
    cases Option.mem_toList.mp null
    exact here
  | nullElement member =>
    rw [Json.fields?] at found
    split at found
    · cases found
      exact List.mem_append_left _ (List.mem_map_of_mem member)
    · cases found
  | tooMany more =>
    rw [Json.fields?, if_neg (Nat.not_le.mpr more)] at found
    cases found

end Json

end DelegatedAuthority
