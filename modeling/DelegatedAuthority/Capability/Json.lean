import DelegatedAuthority.Capability
import DelegatedAuthority.Json.Reader
import DelegatedAuthority.Json.Record
import DelegatedAuthority.Json.Writer
/-!
Capabilities and requirements as JSON records.
-/
namespace DelegatedAuthority

namespace Capability

def fieldNames : List String := ["can", "with"]

def toJson (c : Capability) : Json :=
  .object [("can", .string c.ability), ("with", .string c.resource)]

def ofJson? (value : Json) : Option Capability := do
  match ← value.fields? fieldNames with
  | [some ability, some resource] => return ⟨← ability.text?, ← resource.text?⟩
  | _ => none

def parse? (text : String) : Option Capability := do
  ofJson? (← Json.parse? text)

end Capability

namespace Requirement

def fieldNames : List String := ["operation", "ability", "resource"]

def toJson (r : Requirement) : Json :=
  .object [("operation", .string r.operation), ("ability", .string r.ability),
    ("resource", .string r.resource)]

def ofJson? (value : Json) : Option Requirement := do
  match ← value.fields? fieldNames with
  | [some operation, some ability, some resource] =>
    return ⟨← operation.text?, ← ability.text?, ← resource.text?⟩
  | _ => none

def parse? (text : String) : Option Requirement := do
  ofJson? (← Json.parse? text)

end Requirement

end DelegatedAuthority
