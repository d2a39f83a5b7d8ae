/-!
Abilities: slash-separated paths, ordered by extension, under a wildcard.

A held ability allows itself and every path below it. Nothing is said here about
resources; a `Capability` pairs an ability with one.
-/
namespace DelegatedAuthority

/-- A path such as `tlog/admin/revoke`, or the wildcard. Credentials may carry any text. -/
abbrev Ability := String

/-- The name of something a client asks the service to do. -/
abbrev Operation := String

/-- The identifier of a protected thing, compared as text. -/
abbrev Resource := String

/-- The identifier of a party that issues, receives or uses credentials, compared as text. -/
abbrev Principal := String

namespace Ability

def wildcard : Ability := "*"

def separator : Char := '/'

def append : Ability := "tlog/append"
def read : Ability := "tlog/read"
def admin : Ability := "tlog/admin"
def revoke : Ability := "tlog/admin/revoke"
def configure : Ability := "tlog/admin/configure"
def blobAdd : Ability := "blob/add"
def blobRemove : Ability := "blob/remove"

def builtin : List Ability :=
  [append, read, admin, revoke, configure, blobAdd, blobRemove]

def isWildcard (ability : Ability) : Bool :=
  ability == wildcard

/-- Whether a remainder continues a path: a separator and at least one more character. -/
def isDescent : List Char → Bool
  | c :: _ :: _ => c == separator
  | _ => false

/-- Whether holding `held` permits `required`: it is the wildcard, the same ability, or a
path that `required` continues. The empty ability permits nothing. -/
def allows (held required : Ability) : Bool :=
  held != "" &&
    (held.isWildcard || held == required ||
      match held.toList.isPrefixOf? required.toList with
      | some rest => isDescent rest
      | none => false)

/-- The pieces of a text between separators, in order; there is always at least one. -/
def segmentsOf : List Char → List (List Char)
  | [] => [[]]
  | c :: rest =>
    if c == separator then [] :: segmentsOf rest
    else match segmentsOf rest with
      | [] => [[c]]
      | segment :: others => (c :: segment) :: others

def segments (ability : Ability) : List (List Char) :=
  segmentsOf ability.toList

/-- Whether an ability may stand in a configuration: the wildcard, or a path of segments
none of which is empty or the wildcard. -/
def isWellFormed (ability : Ability) : Bool :=
  ability.isWildcard ||
    ability.segments.all fun segment => !segment.isEmpty && segment != wildcard.toList

end Ability

end DelegatedAuthority
