import DelegatedAuthority.Proofs.JsonWriting
import DelegatedAuthority.Proofs.Updates
import Mathlib.Data.List.Sort
/-!
The tables that JSON texts give.

An object gives the table that maps each of its names to the last text under it. No two tables map
every operation alike, so there is only one such table.
-/
namespace DelegatedAuthority.AbilityTable

variable {table other : AbilityTable} {operation : Operation} {ability : Ability} {value : Json}

theorem get?_of_mem (h : (operation, ability) ∈ table.entries) :
    table.get? operation = some ability := by
  obtain ⟨before, after, split⟩ := List.append_of_mem h
  have ordered := table.increasing
  rw [split, List.pairwise_append] at ordered
  refine List.lookup_eq_some_iff.mpr ⟨before, after, split, fun e earlier => ?_⟩
  have lt : e.1 < operation := ordered.2.2 e earlier _ (List.mem_cons_self ..)
  exact bne_iff_ne.mpr (Std.ne_of_lt lt).symm

theorem get?_eq_some_iff : table.get? operation = some ability ↔
    (operation, ability) ∈ table.entries :=
  ⟨mem_of_get?, get?_of_mem⟩

/-- A table is what it maps operations to. -/
theorem ext_get? (h : ∀ operation, table.get? operation = other.get? operation) :
    table = other := by
  have same : table.entries = other.entries := by
    have antisymm : Std.Antisymm fun a b : Operation × Ability => a.1 < b.1 :=
      ⟨fun _ _ lt gt => absurd (String.lt_trans lt gt) (String.lt_irrefl _)⟩
    have irrefl : Std.Irrefl fun a b : Operation × Ability => a.1 < b.1 :=
      ⟨fun _ => String.lt_irrefl _⟩
    refine table.increasing.eq_of_mem_iff other.increasing fun (operation, ability) => ?_
    rw [← get?_eq_some_iff, ← get?_eq_some_iff, h operation]
  cases table
  cases other
  cases same
  rfl

/-- An object that gives a table, by texts some of which may be replaced by later ones. -/
def GivenBy (table : AbilityTable) (value : Json) : Prop :=
  ∃ pairs : List (Operation × Ability),
    value = .object (pairs.map fun p => (p.1, .string p.2)) ∧
    ∀ operation ability, table.get? operation = some ability ↔
      IsLast (fun p => p.1 = operation) pairs (operation, ability)

theorem ofJson?_texts (pairs : List (Operation × Ability)) :
    ofJson? (.object (pairs.map fun p => (p.1, .string p.2))) = some (ofList pairs) := by
  have read : ((pairs.map fun p => (p.1, Json.string p.2)).mapM
      fun (operation, ability) => do return (operation, ← ability.text?)) = some pairs := by
    rw [List.mapM_map]
    exact List.mapM_pure.trans (congrArg some (List.map_id pairs))
  rw [ofJson?, Json.members?, Option.bind_eq_bind, Option.bind_some, read]
  rfl

theorem GivenBy.ofJson? (h : table.GivenBy value) : AbilityTable.ofJson? value = some table := by
  obtain ⟨pairs, rfl, lasts⟩ := h
  have same : ofList pairs = table := by
    refine ext_get? fun operation => Option.ext fun ability => ?_
    show (empty.setAll pairs).get? operation = some ability ↔ _
    rw [get?_setAll_eq_some_iff, lasts]
    simp [empty, get?]
  rw [ofJson?_texts, same]

theorem givenBy_toJson (table : AbilityTable) : table.GivenBy table.toJson := by
  refine ⟨table.entries, rfl, fun operation ability => ?_⟩
  rw [get?_eq_some_iff]
  constructor
  · intro member
    obtain ⟨before, after, split⟩ := List.append_of_mem member
    have ordered := table.increasing
    rw [split, List.pairwise_append, List.pairwise_cons] at ordered
    refine ⟨before, after, split, rfl, fun e later => ?_⟩
    exact (Std.ne_of_lt (ordered.2.1.1 e later)).symm
  · exact IsLast.mem

/-- Whatever text gives a table loads as that table, unless an ability of it is malformed. -/
theorem load_of_givenBy {text : String} (isText : Json.IsText text value)
    (given : table.GivenBy value) :
    load text = (table.validate.mapError .malformedAbility).map fun _ => table := by
  have parsed : parse? text = some table := by
    simp [parse?, isText.parse?, given.ofJson?]
  simp only [load, parsed]
  cases table.validate <;> rfl

end DelegatedAuthority.AbilityTable
