import DelegatedAuthority.Fields
import DelegatedAuthority.Json.Value
/-!
Records in JSON: an object that gives each known field at most once and may carry others, or
an array of the fields in the order of their declaration with some left out at the end.
-/
namespace DelegatedAuthority.Json

/-- The values given to the named fields, in the order of `names`; `none` for a field that is
left out. -/
def fields? (names : List String) : Json → Option (List (Option Json))
  | .object members => names.mapM (Fields.single? members)
  | .array elements =>
    if elements.length ≤ names.length then
      some (elements.map some ++ List.replicate (names.length - elements.length) none)
    else none
  | _ => none

/-- Reads a field that may be left out. A value that does not fit is an error, and so is
`null`. -/
def orDefault {α : Type} (read : Json → Option α) (default : α) : Option Json → Option α
  | none => some default
  | some value => read value

end DelegatedAuthority.Json
