import DelegatedAuthority.AbilityTable
import DelegatedAuthority.Limits
/-!
Configurations: whom the service is addressed as, which ability each operation requires, how
far proofs are searched, and which abilities never travel through a delegation.
-/
namespace DelegatedAuthority

inductive ConfigError where
  | unreadable
  | malformedAbility (pair : MalformedAbility)
  | malformedDirectOnly (ability : Ability)
  | missingAudience
  deriving DecidableEq, Repr

namespace ConfigError

def name : ConfigError → String
  | unreadable => "Json"
  | malformedAbility _ => "InvalidAbility"
  | malformedDirectOnly _ => "InvalidDirectOnly"
  | missingAudience => "MissingAudience"

/-- What is wrong, unless the text could not be read at all. -/
def message? : ConfigError → Option String
  | unreadable => none
  | malformedAbility pair => some pair.message
  | malformedDirectOnly ability => some ("Invalid direct-only ability '" ++ ability ++ "'")
  | missingAudience => some "Configuration has no audience"

end ConfigError

structure Config where
  audience : Principal
  abilities : AbilityTable := .standard
  limits : Limits := {}
  directOnly : List Ability := [Ability.blobRemove]
  deriving DecidableEq

namespace Config

/-- Refuses a configuration without audience, then a malformed entry of its table, then a
malformed direct-only ability. -/
def validate (config : Config) : Except ConfigError Unit :=
  if config.audience = "" then .error .missingAudience
  else match config.abilities.validate with
    | .error pair => .error (.malformedAbility pair)
    | .ok () =>
      match config.directOnly.find? fun ability => !ability.isWellFormed with
      | some ability => .error (.malformedDirectOnly ability)
      | none => .ok ()

/-- Whether an ability may only be used with a credential that the owner issued itself: some
direct-only ability allows it. -/
def isDirectOnly (config : Config) (ability : Ability) : Bool :=
  config.directOnly.any fun held => held.allows ability

end Config

end DelegatedAuthority
