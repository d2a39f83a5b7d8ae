import DelegatedAuthority.Json.Value
/-!
The compact text of a JSON value: no blanks, members in the order they are held, and
escapes for the quote, the backslash and the control characters only.
-/
namespace DelegatedAuthority.Json

def escape (c : Char) : List Char :=
  if c = '"' then ['\\', '"']
  else if c = '\\' then ['\\', '\\']
  else if c = '\x08' then ['\\', 'b']
  else if c = '\t' then ['\\', 't']
  else if c = '\n' then ['\\', 'n']
  else if c = '\x0c' then ['\\', 'f']
  else if c = '\r' then ['\\', 'r']
  else if c.toNat < 32 then
    ['\\', 'u', '0', '0', Nat.digitChar (c.toNat / 16), Nat.digitChar (c.toNat % 16)]
  else [c]

def writeText (text : String) : List Char :=
  '"' :: (text.toList.flatMap escape ++ ['"'])

def writeInt : Int → List Char
  | .ofNat n => Nat.toDigits 10 n
  | .negSucc n => '-' :: Nat.toDigits 10 (n + 1)

/-- A number in exponent form, so that it cannot be taken for a natural one. -/
def writeDecimal (negative : Bool) (digits : Nat) (exponent : Int) : List Char :=
  (if negative then ['-'] else []) ++ Nat.toDigits 10 digits ++ 'e' :: writeInt exponent

mutual

/-- The text of a value. One unpaired surrogate stands for all that is ill-formed. -/
def write : Json → List Char
  | .null => "null".toList
  | .bool true => "true".toList
  | .bool false => "false".toList
  | .natural n => Nat.toDigits 10 n
  | .decimal negative digits exponent => writeDecimal negative digits exponent
  | .string text => writeText text
  | .array [] => ['[', ']']
  | .array (first :: rest) => '[' :: (write first ++ writeElements rest)
  | .object [] => ['\x7b', '\x7d']
  | .object ((name, value) :: rest) =>
    '\x7b' :: (writeText name ++ ':' :: (write value ++ writeMembers rest))
  | .illFormed => ['"', '\\', 'u', 'd', '8', '0', '0', '"']

def writeElements : List Json → List Char
  | [] => [']']
  | element :: rest => ',' :: (write element ++ writeElements rest)

def writeMembers : List (String × Json) → List Char
  | [] => ['\x7d']
  | (name, value) :: rest =>
    ',' :: (writeText name ++ ':' :: (write value ++ writeMembers rest))

end

def render (value : Json) : String :=
  String.ofList value.write

end DelegatedAuthority.Json
