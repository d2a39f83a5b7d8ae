import DelegatedAuthority.AbilityTable.Json
import DelegatedAuthority.Proofs.ByteOrder
import DelegatedAuthority.Proofs.Occurrences
import DelegatedAuthority.Proofs.Validation
import Mathlib.Data.List.TakeWhile
/-!
Runs of updates to an ability table.

An update sets the pairs it is given up to the first malformed one, so that what a run leaves in a
table is told by the pairs it accepted. The last of these for an operation counts, and none of
them can make a valid table invalid.
-/
namespace DelegatedAuthority.AbilityTable

variable {table : AbilityTable} {operation : Operation} {ability : Ability}
  {pair : Operation × Ability} {pairs before after : List (Operation × Ability)}

/-- Whether a table takes a pair. -/
def takes (pair : Operation × Ability) : Bool :=
  pair.2.isWellFormed

/-- Sets pairs one after the other, whatever their abilities. -/
def setAll (table : AbilityTable) (pairs : List (Operation × Ability)) : AbilityTable :=
  pairs.foldl (fun table pair => table.set pair.1 pair.2) table

theorem setAll_append (table : AbilityTable) (before after : List (Operation × Ability)) :
    table.setAll (before ++ after) = (table.setAll before).setAll after :=
  List.foldl_append

/-- Of the pairs set for an operation the last is found, and what was there before if there are
none. -/
theorem get?_setAll_eq_some_iff : (table.setAll pairs).get? operation = some ability ↔
    IsLast (fun p => p.1 = operation) pairs (operation, ability) ∨
      (∀ p ∈ pairs, p.1 ≠ operation) ∧ table.get? operation = some ability := by
  -- from the end, where the pair that is set last decides
  induction pairs using List.reverseRecOn with
  | nil => simp [setAll, not_isLast_nil]
  | append_singleton pairs newest ih =>
    obtain ⟨o, a⟩ := newest
    rw [setAll_append, isLast_concat_iff]
    show ((table.setAll pairs).set o a).get? operation = some ability ↔ _
    rw [get?_set]
    by_cases same : operation = o
    · subst same
      have touched : ¬∀ p ∈ pairs ++ [(operation, a)], p.1 ≠ operation :=
        fun never => never _ (List.mem_append_right _ (List.mem_singleton_self _)) rfl
      simp only [touched, false_and, or_false, if_pos, not_true, Option.some.injEq, Prod.mk.injEq,
        true_and, eq_comm]
    · have other : o ≠ operation := Ne.symm same
      simp [same, other, ih, or_imp, forall_and]

theorem get?_setAll_of_isLast
    (last : IsLast (fun p => p.1 = operation) pairs (operation, ability)) :
    (table.setAll pairs).get? operation = some ability :=
  get?_setAll_eq_some_iff.mpr (.inl last)

theorem get?_setAll_of_untouched (untouched : ∀ p ∈ pairs, p.1 ≠ operation) :
    (table.setAll pairs).get? operation = table.get? operation := by
  ext ability
  rw [get?_setAll_eq_some_iff]
  constructor
  · rintro (last | ⟨_, old⟩)
    · exact absurd rfl (untouched _ last.mem)
    · exact old
  · intro old
    exact .inr ⟨untouched, old⟩

theorem validate_set (valid : table.validate = .ok ()) (wellFormed : ability.isWellFormed = true) :
    (table.set operation ability).validate = .ok () := by
  rw [validate_ok_iff] at valid ⊢
  intro e member
  rcases mem_setEntry member with rfl | old
  · exact wellFormed
  · exact valid e old

theorem validate_setAll (valid : table.validate = .ok ()) (accepted : ∀ p ∈ pairs, takes p = true) :
    (table.setAll pairs).validate = .ok () := by
  induction pairs generalizing table with
  | nil => exact valid
  | cons pair rest ih =>
    obtain ⟨first, others⟩ := List.forall_mem_cons.mp accepted
    exact ih (validate_set valid first) others

theorem insert_of_takes (table : AbilityTable) (h : takes pair = true) :
    table.insert pair.1 pair.2 = (table.set pair.1 pair.2, .ok (table.get? pair.1)) :=
  if_pos h

theorem insert_of_not_takes (table : AbilityTable) (h : takes pair = false) :
    table.insert pair.1 pair.2 = (table, .error ⟨pair.1, pair.2⟩) :=
  if_neg (Bool.not_eq_true _ ▸ h)

/-- Pairs that are taken are set before those behind them are looked at. -/
theorem extend_append (table : AbilityTable) (taken : ∀ p ∈ before, takes p = true)
    (after : List (Operation × Ability)) :
    table.extend (before ++ after) = (table.setAll before).extend after := by
  induction before generalizing table with
  | nil => rfl
  | cons pair rest ih =>
    obtain ⟨first, others⟩ := List.forall_mem_cons.mp taken
    rw [List.cons_append, extend, insert_of_takes table first]
    exact ih (table.set pair.1 pair.2) others

theorem extend_of_takes (table : AbilityTable) (taken : ∀ p ∈ pairs, takes p = true) :
    table.extend pairs = (table.setAll pairs, .ok ()) := by
  have all := extend_append table taken []
  rwa [List.append_nil] at all

theorem extend_of_not_takes (table : AbilityTable) (taken : ∀ p ∈ before, takes p = true)
    (malformed : takes pair = false) (after : List (Operation × Ability)) :
    table.extend (before ++ pair :: after) = (table.setAll before, .error ⟨pair.1, pair.2⟩) := by
  rw [extend_append table taken, extend, insert_of_not_takes _ malformed]

theorem fst_extend (table : AbilityTable) (pairs : List (Operation × Ability)) :
    (table.extend pairs).1 = table.setAll (pairs.takeWhile takes) := by
  induction pairs generalizing table with
  | nil => rfl
  | cons pair rest ih =>
    cases taken : takes pair with
    | true =>
      rw [extend, insert_of_takes table taken, List.takeWhile_cons, taken, if_pos rfl]
      exact ih (table.set pair.1 pair.2)
    | false =>
      rw [extend, insert_of_not_takes table taken, List.takeWhile_cons, taken]
      rfl

/-- A call that is to change a table. -/
inductive Update where
  | insert (operation : Operation) (ability : Ability)
  | adding (operation : Operation) (ability : Ability)
  | extend (pairs : List (Operation × Ability))

namespace Update

/-- The pairs that a call is given. -/
def offered : Update → List (Operation × Ability)
  | insert operation ability => [(operation, ability)]
  | adding operation ability => [(operation, ability)]
  | extend pairs => pairs

/-- The pairs that a call is given before the first malformed one. -/
def accepted (u : Update) : List (Operation × Ability) :=
  u.offered.takeWhile takes

end Update

/-- The table after a call, whether it fails or not. Where `adding` makes no new table, its caller
goes on with the old one. -/
def update (table : AbilityTable) : Update → AbilityTable
  | .insert operation ability => (table.insert operation ability).1
  | .adding operation ability =>
    match table.adding operation ability with
    | .ok next => next
    | .error _ => table
  | .extend pairs => (table.extend pairs).1

/-- The table after calls one after the other, whether they fail or not. -/
def run (table : AbilityTable) (updates : List Update) : AbilityTable :=
  updates.foldl update table

theorem update_insert (table : AbilityTable) (pair : Operation × Ability) :
    table.update (.insert pair.1 pair.2) = table.setAll ([pair].takeWhile takes) := by
  cases taken : takes pair with
  | true => simp [update, insert_of_takes table taken, taken, setAll]
  | false => simp [update, insert_of_not_takes table taken, taken, setAll]

theorem update_adding (table : AbilityTable) (operation : Operation) (ability : Ability) :
    table.update (.adding operation ability) = table.update (.insert operation ability) := by
  cases taken : takes (operation, ability) with
  | true => simp [update, adding, insert_of_takes table taken]
  | false => simp [update, adding, insert_of_not_takes table taken]

/-- Every call does to a table what setting its accepted pairs does. -/
theorem update_eq_setAll (table : AbilityTable) (u : Update) :
    table.update u = table.setAll u.accepted := by
  cases u with
  | insert operation ability => exact update_insert table (operation, ability)
  | adding operation ability =>
    rw [update_adding]
    exact update_insert table (operation, ability)
  | extend pairs => exact fst_extend table pairs

theorem run_eq_setAll (table : AbilityTable) (updates : List Update) :
    table.run updates = table.setAll (updates.flatMap Update.accepted) := by
  induction updates generalizing table with
  | nil => rfl
  | cons u rest ih =>
    rw [List.flatMap_cons, setAll_append, ← update_eq_setAll]
    exact ih (table.update u)

theorem run_inserts (table : AbilityTable) (taken : ∀ p ∈ pairs, takes p = true) :
    table.run (pairs.map fun p => .insert p.1 p.2) = table.setAll pairs := by
  induction pairs generalizing table with
  | nil => rfl
  | cons pair rest ih =>
    obtain ⟨first, others⟩ := List.forall_mem_cons.mp taken
    have inserted : table.update (.insert pair.1 pair.2) = table.set pair.1 pair.2 := by
      simp [update, insert_of_takes table first]
    rw [List.map_cons, run, List.foldl_cons, inserted]
    exact ih (table.set pair.1 pair.2) others

/-- A valid table stays valid under every call. -/
theorem validate_update (valid : table.validate = .ok ()) (u : Update) :
    (table.update u).validate = .ok () := by
  rw [update_eq_setAll]
  exact validate_setAll valid fun p member => List.mem_takeWhile_imp member

theorem validate_run (valid : table.validate = .ok ()) (updates : List Update) :
    (table.run updates).validate = .ok () := by
  induction updates generalizing table with
  | nil => exact valid
  | cons u rest ih => exact ih (validate_update valid u)

theorem validate_of_load {text : String} (h : load text = .ok table) :
    table.validate = .ok () := by
  unfold load at h
  split at h
  · cases h
  · rename_i loaded _
    cases verdict : loaded.validate with
    | error pair => simp [verdict, Except.mapError, bind, Except.bind] at h
    | ok passed =>
      simp [verdict, Except.mapError, bind, Except.bind] at h
      cases h
      exact verdict

/-- The tables that a run can begin with. -/
inductive Initial : AbilityTable → Prop
  | standard : Initial standard
  | empty : Initial empty
  | loaded {text : String} {table : AbilityTable} : load text = .ok table → Initial table

theorem Initial.validate (initial : Initial table) : table.validate = .ok () := by
  cases initial with
  | standard => decide
  | empty => rfl
  | loaded h => exact validate_of_load h

/-- The bytes of the operations increase from entry to entry. -/
theorem increasing_bytes (table : AbilityTable) :
    table.entries.Pairwise fun a b => Bytes.ofText a.1 < Bytes.ofText b.1 :=
  table.increasing.imp Bytes.ofText_lt

theorem required_of_get? (found : table.get? operation = some ability) :
    table.required operation = ability := by
  rw [required, found, Option.getD_some]

theorem required_of_unknown (unknown : table.get? operation = none) :
    table.required operation = Ability.wildcard := by
  rw [required, unknown, Option.getD_none]

/-- After a run an operation requires what was accepted for it last. -/
theorem required_run_of_isLast {updates : List Update}
    (last : IsLast (fun p => p.1 = operation) (updates.flatMap Update.accepted)
      (operation, ability)) :
    (table.run updates).required operation = ability := by
  apply required_of_get?
  rw [run_eq_setAll]
  exact get?_setAll_of_isLast last

theorem get?_run_of_untouched {updates : List Update}
    (untouched : ∀ p ∈ updates.flatMap Update.accepted, p.1 ≠ operation) :
    (table.run updates).get? operation = table.get? operation := by
  rw [run_eq_setAll]
  exact get?_setAll_of_untouched untouched

theorem adding_of_takes (table : AbilityTable) (h : takes pair = true) :
    table.adding pair.1 pair.2 = .ok (table.set pair.1 pair.2) := by
  rw [adding, insert_of_takes table h]

theorem adding_of_not_takes (table : AbilityTable) (h : takes pair = false) :
    table.adding pair.1 pair.2 = .error ⟨pair.1, pair.2⟩ := by
  rw [adding, insert_of_not_takes table h]

theorem update_of_not_takes (table : AbilityTable) (h : takes pair = false) :
    table.update (.insert pair.1 pair.2) = table := by
  rw [update_insert, List.takeWhile_cons, h]
  rfl

/-- However a table is changed by calls that may fail, it stays valid and in the order of its
operations' bytes, and requires of each operation what was accepted for it last; failing that,
what it required before the run, and the wildcard of an operation that was never known. A
malformed pair is named in the error and changes nothing, nor does any behind it in an
extension, while the pairs before it stay. -/
theorem run_history (initial : Initial table) (updates : List Update) :
    let current := table.run updates
    let accepted := updates.flatMap Update.accepted
    current.validate = .ok () ∧
    (current.entries.Pairwise fun a b => Bytes.ofText a.1 < Bytes.ofText b.1) ∧
    (∀ operation, (current.required operation).isWellFormed = true ∧
      (∀ ability, IsLast (fun p => p.1 = operation) accepted (operation, ability) →
        current.required operation = ability) ∧
      ((∀ p ∈ accepted, p.1 ≠ operation) →
        (∀ ability, table.get? operation = some ability → current.required operation = ability) ∧
        (table.get? operation = none → current.required operation = Ability.wildcard))) ∧
    (∀ operation ability, ability.isWellFormed = true → ∃ next : AbilityTable,
      current.insert operation ability = (next, .ok (current.get? operation)) ∧
      current.adding operation ability = .ok next ∧
      ∀ other, next.get? other = if other = operation then some ability else current.get? other) ∧
    (∀ operation ability, ability.isWellFormed = false →
      current.insert operation ability = (current, .error ⟨operation, ability⟩) ∧
      current.adding operation ability = .error ⟨operation, ability⟩ ∧
      current.update (.insert operation ability) = current ∧
      current.update (.adding operation ability) = current) ∧
    ∀ before : List (Operation × Ability), (∀ p ∈ before, p.2.isWellFormed = true) →
      let inserted := current.run (before.map fun p => .insert p.1 p.2)
      current.extend before = (inserted, .ok ()) ∧
      ∀ operation ability after, ability.isWellFormed = false →
        current.extend (before ++ (operation, ability) :: after) =
          (inserted, .error ⟨operation, ability⟩) := by
  intro current accepted
  have valid : current.validate = .ok () := validate_run initial.validate updates
  refine ⟨valid, increasing_bytes current, ?_, ?_, ?_, ?_⟩
  · intro operation
    refine ⟨isWellFormed_required valid operation, fun _ => required_run_of_isLast, ?_⟩
    intro untouched
    have kept : current.get? operation = table.get? operation := get?_run_of_untouched untouched
    constructor
    · intro ability before
      exact required_of_get? (kept.trans before)
    · intro unknown
      exact required_of_unknown (kept.trans unknown)
  · intro operation ability wellFormed
    have taken : takes (operation, ability) = true := wellFormed
    exact ⟨current.set operation ability, insert_of_takes current taken,
      adding_of_takes current taken, fun other => get?_set current operation other ability⟩
  · intro operation ability malformed
    have refused : takes (operation, ability) = false := malformed
    refine ⟨insert_of_not_takes current refused, adding_of_not_takes current refused,
      update_of_not_takes current refused, ?_⟩
    rw [update_adding]
    exact update_of_not_takes current refused
  · intro before wellFormed inserted
    have same : inserted = current.setAll before := run_inserts current wellFormed
    rw [same]
    refine ⟨extend_of_takes current wellFormed, ?_⟩
    intro operation ability after malformed
    have refused : takes (operation, ability) = false := malformed
    exact extend_of_not_takes current wellFormed refused after

/-- Two calls that succeed, one that fails, and one that fails half way. -/
def revisions : List Update :=
  [.insert "append" "tlog/log", .adding "read" "tlog//read",
    .extend [("read", "tlog"), ("erase", ""), ("append", "tlog")], .adding "append" "tlog/all"]

theorem revisions_history : Initial standard ∧
    (standard.run revisions).validate = .ok () ∧
    (standard.run revisions).required "append" = "tlog/all" ∧
    (standard.run revisions).required "read" = "tlog" ∧
    (standard.run revisions).required "erase" = "blob/remove" ∧
    (standard.run revisions).required "paint" = "*" ∧
    (standard.run revisions).insert "read" "/" = (standard.run revisions, .error ⟨"read", "/"⟩) ∧
    ((standard.run revisions).extend [("read", "a"), ("erase", "b/"), ("read", "c")]).2 =
      .error ⟨"erase", "b/"⟩ := by
  have accepted : revisions.flatMap Update.accepted =
    [("append", "tlog/log"), ("read", "tlog"), ("append", "tlog/all")] := by decide
  obtain ⟨valid, _, required, _, refused, extended⟩ := run_history .standard revisions
  rw [accepted] at required
  refine ⟨.standard, valid, ?_, ?_, ?_, ?_, ?_, ?_⟩
  · exact (required "append").2.1 "tlog/all"
      ⟨[("append", "tlog/log"), ("read", "tlog")], [], rfl, rfl, List.forall_mem_nil _⟩
  · exact (required "read").2.1 "tlog"
      ⟨[("append", "tlog/log")], [("append", "tlog/all")], rfl, rfl, by decide⟩
  · exact ((required "erase").2.2 (by decide)).1 "blob/remove" (by decide)
  · exact ((required "paint").2.2 (by decide)).2 (by decide)
  · exact (refused "read" "/" (by decide)).1
  · have stopped := (extended [("read", "a")] (by decide)).2 "erase" "b/" [("read", "c")] (by decide)
    exact congrArg Prod.snd stopped

end DelegatedAuthority.AbilityTable
