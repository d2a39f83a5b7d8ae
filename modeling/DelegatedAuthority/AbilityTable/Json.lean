import DelegatedAuthority.Config
import DelegatedAuthority.Json.Reader
import DelegatedAuthority.Json.Writer
/-!
Ability tables as JSON objects that map operations to abilities. The last of several members
for one operation counts.
-/
namespace DelegatedAuthority.AbilityTable

def toJson (table : AbilityTable) : Json :=
  .object (table.entries.map fun (operation, ability) => (operation, .string ability))

/-- The text of a table: compact, in the order of the operations. -/
def render (table : AbilityTable) : String :=
  table.toJson.render

/-- The table that an object of texts gives, with abilities of any form. -/
def ofJson? (value : Json) : Option AbilityTable := do
  let pairs ← (← value.members?).mapM fun (operation, ability) => do
    return (operation, ← ability.text?)
  return ofList pairs

/-- The table that a JSON text gives, with abilities of any form. -/
def parse? (text : String) : Option AbilityTable := do
  ofJson? (← Json.parse? text)

/-- The table that a JSON text gives, if all its abilities are well-formed. -/
def load (text : String) : Except ConfigError AbilityTable :=
  match parse? text with
  | none => .error .unreadable
  | some table => do
    table.validate.mapError .malformedAbility
    return table

end DelegatedAuthority.AbilityTable
