import DelegatedAuthority.Capability
/-!
Ability tables: which ability an operation requires.

A table lists each operation once, in the order of their names; unknown operations require
the wildcard. `insert`, `adding` and `extend` take well-formed abilities only, `set` takes any.
-/
namespace DelegatedAuthority

namespace Operation

def append : Operation := "append"
def read : Operation := "read"
def revoke : Operation := "revoke"
def configure : Operation := "configure"
def upload : Operation := "upload"
def erase : Operation := "erase"

def builtin : List Operation :=
  [append, read, revoke, configure, upload, erase]

end Operation

/-- A pair that a table refuses, because its ability is not well-formed. -/
structure MalformedAbility where
  operation : Operation
  ability : Ability
  deriving DecidableEq, Repr

def MalformedAbility.message (pair : MalformedAbility) : String :=
  "Operation '" ++ pair.operation ++ "' maps to malformed ability '" ++ pair.ability ++ "'"

/-- The abilities of known operations, in the order of the operations' names. -/
structure AbilityTable where
  entries : List (Operation × Ability)
  increasing : entries.Pairwise fun a b => a.1 < b.1
  deriving DecidableEq

namespace AbilityTable

/-- Puts a pair in its place in an ordered list, instead of the one it replaces. -/
def setEntry (operation : Operation) (ability : Ability) :
    List (Operation × Ability) → List (Operation × Ability)
  | [] => [(operation, ability)]
  | (o, a) :: rest =>
    if operation < o then (operation, ability) :: (o, a) :: rest
    else if operation = o then (operation, ability) :: rest
    else (o, a) :: setEntry operation ability rest

theorem mem_setEntry {operation : Operation} {ability : Ability}
    {entries : List (Operation × Ability)} {e : Operation × Ability}
    (h : e ∈ setEntry operation ability entries) : e = (operation, ability) ∨ e ∈ entries := by
  induction entries with
  | nil => exact .inl (List.mem_singleton.1 h)
  | cons first rest ih =>
    rw [setEntry] at h
    split at h
    · exact List.mem_cons.1 h
    · split at h
      · exact (List.mem_cons.1 h).imp_right (List.mem_cons_of_mem _)
      · rcases List.mem_cons.1 h with rfl | h
        · exact .inr (List.mem_cons_self ..)
        · exact (ih h).imp_right (List.mem_cons_of_mem _)

theorem pairwise_setEntry {operation : Operation} {ability : Ability}
    {entries : List (Operation × Ability)} (h : entries.Pairwise fun a b => a.1 < b.1) :
    (setEntry operation ability entries).Pairwise fun a b => a.1 < b.1 := by
  induction entries with
  | nil => exact List.pairwise_singleton ..
  | cons first rest ih =>
    obtain ⟨below, ordered⟩ := List.pairwise_cons.1 h
    rw [setEntry]
    split
    · rename_i before
      refine List.pairwise_cons.2 ⟨fun e he => ?_, h⟩
      rcases List.mem_cons.1 he with rfl | he
      · exact before
      · exact String.lt_trans before (below e he)
    · rename_i notBefore
      split
      · rename_i same
        exact List.pairwise_cons.2 ⟨fun e he => same ▸ below e he, ordered⟩
      · rename_i notSame
        refine List.pairwise_cons.2 ⟨fun e he => ?_, ih ordered⟩
        rcases mem_setEntry he with rfl | he
        · rcases Std.lt_trichotomy operation first.1 with before | same | after
          · exact absurd before notBefore
          · exact absurd same notSame
          · exact after
        · exact below e he

theorem lookup_setEntry (operation other : Operation) (ability : Ability)
    (entries : List (Operation × Ability)) :
    (setEntry operation ability entries).lookup other =
      if other = operation then some ability else entries.lookup other := by
  induction entries with
  | nil => simp [setEntry, List.lookup_cons]; split <;> simp_all
  | cons first rest ih =>
    obtain ⟨o, a⟩ := first
    rw [setEntry]
    by_cases same : other = operation
    · subst same
      split
      · simp
      · split
        · simp
        · rename_i notFirst
          simp [List.lookup_cons, ih, beq_eq_false_iff_ne.2 notFirst]
    · have missed : (other == operation) = false := beq_eq_false_iff_ne.2 same
      rw [if_neg same]
      split
      · rw [List.lookup_cons, missed]
      · split
        · rename_i replaced
          rw [List.lookup_cons, List.lookup_cons, ← replaced, missed]
        · rw [List.lookup_cons, List.lookup_cons, ih, if_neg same]

def empty : AbilityTable := ⟨[], .nil⟩

/-- Maps an operation to an ability, whatever the ability. -/
def set (table : AbilityTable) (operation : Operation) (ability : Ability) : AbilityTable :=
  ⟨setEntry operation ability table.entries, pairwise_setEntry table.increasing⟩

/-- The table of a list of pairs; of several for one operation the last counts. -/
def ofList (pairs : List (Operation × Ability)) : AbilityTable :=
  pairs.foldl (fun table pair => table.set pair.1 pair.2) empty

def standard : AbilityTable :=
  ofList [(Operation.append, Ability.append), (Operation.read, Ability.read),
    (Operation.revoke, Ability.revoke), (Operation.configure, Ability.configure),
    (Operation.upload, Ability.blobAdd), (Operation.erase, Ability.blobRemove)]

def get? (table : AbilityTable) (operation : Operation) : Option Ability :=
  table.entries.lookup operation

theorem get?_set (table : AbilityTable) (operation other : Operation) (ability : Ability) :
    (table.set operation ability).get? other =
      if other = operation then some ability else table.get? other :=
  lookup_setEntry operation other ability table.entries

def required (table : AbilityTable) (operation : Operation) : Ability :=
  (table.get? operation).getD Ability.wildcard

def requirement (table : AbilityTable) (operation : Operation) (resource : Resource) :
    Requirement :=
  ⟨operation, table.required operation, resource⟩

def size (table : AbilityTable) : Nat :=
  table.entries.length

def isEmpty (table : AbilityTable) : Bool :=
  table.entries.isEmpty

/-- Refuses the first pair, in the table's order, whose ability is malformed. -/
def validate (table : AbilityTable) : Except MalformedAbility Unit :=
  match table.entries.find? fun e => !e.2.isWellFormed with
  | some (operation, ability) => .error ⟨operation, ability⟩
  | none => .ok ()

/-- Maps an operation to a well-formed ability, and tells the one it replaces. The ability is
looked at before the table is changed. -/
def insert (table : AbilityTable) (operation : Operation) (ability : Ability) :
    AbilityTable × Except MalformedAbility (Option Ability) :=
  if ability.isWellFormed then (table.set operation ability, .ok (table.get? operation))
  else (table, .error ⟨operation, ability⟩)

/-- A table with one more pair, made by inserting it. -/
def adding (table : AbilityTable) (operation : Operation) (ability : Ability) :
    Except MalformedAbility AbilityTable :=
  match table.insert operation ability with
  | (next, .ok _) => .ok next
  | (_, .error e) => .error e

/-- Inserts pairs up to the first malformed one. Those before it stay. -/
def extend (table : AbilityTable) :
    List (Operation × Ability) → AbilityTable × Except MalformedAbility Unit
  | [] => (table, .ok ())
  | (operation, ability) :: rest =>
    match table.insert operation ability with
    | (next, .ok _) => next.extend rest
    | (next, .error e) => (next, .error e)

end AbilityTable

end DelegatedAuthority
