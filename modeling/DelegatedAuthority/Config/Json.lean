import DelegatedAuthority.AbilityTable.Json
import DelegatedAuthority.Json.Record
/-!
Configurations as JSON records. Every field but the audience may be left out; to be loaded a
configuration has to be valid.
-/
namespace DelegatedAuthority

namespace Limits

def fieldNames : List String := ["max_depth", "max_visits"]

def toJson (limits : Limits) : Json :=
  .object [("max_depth", .word limits.maxDepth), ("max_visits", .word limits.maxVisits)]

def ofJson? (value : Json) : Option Limits := do
  match ← value.fields? fieldNames with
  | [depth, visits] =>
    let default : Limits := {}
    return ⟨← Json.orDefault Json.word? default.maxDepth depth,
      ← Json.orDefault Json.word? default.maxVisits visits⟩
  | _ => none

end Limits

namespace Config

def fieldNames : List String := ["audience", "abilities", "limits", "direct_only"]

def toJson (config : Config) : Json :=
  .object [("audience", .string config.audience), ("abilities", config.abilities.toJson),
    ("limits", config.limits.toJson), ("direct_only", .array (config.directOnly.map .string))]

/-- The configuration that a record gives, valid or not. -/
def ofJson? (value : Json) : Option Config := do
  match ← value.fields? fieldNames with
  | [some audience, abilities, limits, directOnly] =>
    let default : Config := { audience := ← audience.text? }
    return {
      audience := default.audience
      abilities := ← Json.orDefault AbilityTable.ofJson? default.abilities abilities
      limits := ← Json.orDefault Limits.ofJson? default.limits limits
      directOnly := ← Json.orDefault Json.texts? default.directOnly directOnly }
  | _ => none

def ofJson (value : Json) : Except ConfigError Config :=
  match ofJson? value with
  | none => .error .unreadable
  | some config => do
    config.validate
    return config

def render (config : Config) : String :=
  config.toJson.render

/-- The configuration that a JSON text gives, if it is valid. -/
def load (text : String) : Except ConfigError Config :=
  match Json.parse? text with
  | none => .error .unreadable
  | some value => ofJson value

end Config

end DelegatedAuthority
