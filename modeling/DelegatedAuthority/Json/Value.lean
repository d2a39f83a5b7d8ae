/-!
JSON values. Objects keep their members in the order and with the repetitions they were
written.

JSON text can spell a string that is no text, by an escape for one surrogate without the
other. Such a string may stand where a value is passed over, and nowhere else.
-/
namespace DelegatedAuthority

inductive Json where
  | null
  | bool (value : Bool)
  /-- A number written as digits only. -/
  | natural (value : Nat)
  /-- A number written with a sign, a fraction or an exponent: `digits` times a power of ten. -/
  | decimal (negative : Bool) (digits : Nat) (exponent : Int)
  | string (text : String)
  | array (elements : List Json)
  | object (members : List (String × Json))
  /-- A string with an unpaired surrogate, or an object with such a name. -/
  | illFormed

namespace Json

def text? : Json → Option String
  | .string text => some text
  | _ => none

def natural? : Json → Option Nat
  | .natural value => some value
  | _ => none

def word? : Json → Option UInt64
  | .natural value => if value < UInt64.size then some (UInt64.ofNat value) else none
  | _ => none

def elements? : Json → Option (List Json)
  | .array elements => some elements
  | _ => none

def members? : Json → Option (List (String × Json))
  | .object members => some members
  | _ => none

def texts? (value : Json) : Option (List String) := do
  (← value.elements?).mapM text?

def word (n : UInt64) : Json :=
  .natural n.toNat

/-- The value of a string literal, which may spell no text. -/
def ofSpelled : Option String → Json
  | some text => .string text
  | none => .illFormed

/-- The value of an object literal, whose names may spell no texts. -/
def ofSpelledMembers (members : List (Option String × Json)) : Json :=
  match members.mapM fun (name, value) => do return (← name, value) with
  | some members => .object members
  | none => .illFormed

end Json

end DelegatedAuthority
