/-!
Named fields as a list of pairs, in the order and with the repetitions they were written.

A reader asks for the fields it knows; all others are passed over, however often they occur.
-/
namespace DelegatedAuthority.Fields

def values {α : Type} (fields : List (String × α)) (name : String) : List α :=
  fields.filterMap fun field => if field.1 = name then some field.2 else none

/-- What a list holds that may hold one thing. Two are an error. -/
def atMostOne? {α : Type} : List α → Option (Option α)
  | [] => some none
  | [a] => some (some a)
  | _ => none

/-- What a list holds that has to hold one thing. -/
def exactlyOne? {α : Type} : List α → Option α
  | [a] => some a
  | _ => none

theorem atMostOne?_eq_some_iff {α : Type} {list : List α} {o : Option α} :
    atMostOne? list = some o ↔ list = o.toList := by
  match list with
  | [] => cases o <;> simp [atMostOne?]
  | [a] => cases o <;> simp [atMostOne?]
  | _ :: _ :: _ => cases o <;> simp [atMostOne?]

theorem exactlyOne?_eq_some_iff {α : Type} {list : List α} {a : α} :
    exactlyOne? list = some a ↔ list = [a] := by
  match list with
  | [] => simp [exactlyOne?]
  | [_] => simp [exactlyOne?]
  | _ :: _ :: _ => simp [exactlyOne?]

/-- The value of a known field, if there is one. To give it twice is an error. -/
def single? {α : Type} (fields : List (String × α)) (name : String) : Option (Option α) :=
  atMostOne? (values fields name)

/-- The value of a known field that has to be given, exactly once. -/
def required? {α : Type} (fields : List (String × α)) (name : String) : Option α :=
  exactlyOne? (values fields name)

theorem mem_of_required? {α : Type} {fields : List (String × α)} {name : String} {a : α}
    (h : required? fields name = some a) : (name, a) ∈ fields := by
  have only : values fields name = [a] := exactlyOne?_eq_some_iff.mp h
  have found : a ∈ values fields name := by rw [only]; exact List.mem_singleton_self a
  obtain ⟨field, member, eq⟩ := List.mem_filterMap.mp found
  split at eq
  · rename_i same
    cases eq
    cases same
    exact member
  · cases eq

end DelegatedAuthority.Fields
