import DelegatedAuthority.Json.Value
/-!
Strict reading of JSON text: blanks are space, tab, line feed and carriage return; no
comments, no trailing commas, no raw control characters, and nothing behind the value but
blanks. Nesting is not bounded.

A string is read in two steps. The first follows its spelling, the second joins surrogates to
characters; where that fails, the string is ill-formed, and reading goes on behind it.
-/
namespace DelegatedAuthority.Json

def isBlank (c : Char) : Bool :=
  c = ' ' || c = '\t' || c = '\n' || c = '\r'

def skipBlanks (cs : List Char) : List Char :=
  cs.dropWhile isBlank

def hexValue? (c : Char) : Option Nat :=
  if '0' ≤ c ∧ c ≤ '9' then some (c.toNat - '0'.toNat)
  else if 'a' ≤ c ∧ c ≤ 'f' then some (c.toNat - 'a'.toNat + 10)
  else if 'A' ≤ c ∧ c ≤ 'F' then some (c.toNat - 'A'.toNat + 10)
  else none

def unit? (a b c d : Char) : Option Nat := do
  return ((← hexValue? a) * 16 + (← hexValue? b)) * 256 + (← hexValue? c) * 16 + (← hexValue? d)

/-- What a character or an escape of a string stands for. -/
inductive Piece where
  | char (c : Char)
  /-- One half of a character, as a sixteen-bit unit. -/
  | surrogate (unit : Nat)
  deriving DecidableEq, Repr

namespace Piece

def ofUnit (unit : Nat) : Piece :=
  if 0xD800 ≤ unit ∧ unit ≤ 0xDFFF then .surrogate unit else .char (Char.ofNat unit)

/-- The character that two surrogates denote, if the first is a high and the second a low
one. -/
def pair? (high low : Nat) : Option Char :=
  if high < 0xDC00 ∧ 0xDC00 ≤ low then
    some (Char.ofNat (0x10000 + (high - 0xD800) * 0x400 + (low - 0xDC00)))
  else none

/-- The characters that pieces make up, if each surrogate is one of a pair. -/
def join? : List Piece → Option (List Char)
  | [] => some []
  | .char c :: rest => do return c :: (← join? rest)
  | .surrogate high :: .surrogate low :: rest => do return (← pair? high low) :: (← join? rest)
  | .surrogate _ :: _ => none

end Piece

def unescape? (c : Char) : Option Char :=
  if c = '"' then some '"'
  else if c = '\\' then some '\\'
  else if c = '/' then some '/'
  else if c = 'b' then some '\x08'
  else if c = 'f' then some '\x0c'
  else if c = 'n' then some '\n'
  else if c = 'r' then some '\r'
  else if c = 't' then some '\t'
  else none

def readPieces : List Char → Option (List Piece × List Char)
  | [] => none
  | c :: rest =>
    if c = '"' then some ([], rest)
    else if c = '\\' then
      match rest with
      | [] => none
      | letter :: rest =>
        if letter = 'u' then
          match rest with
          | a :: b :: c :: d :: rest => do
            let unit ← unit? a b c d
            let (pieces, rest) ← readPieces rest
            return (.ofUnit unit :: pieces, rest)
          | _ => none
        else do
          let char ← unescape? letter
          let (pieces, rest) ← readPieces rest
          return (.char char :: pieces, rest)
    else if c.toNat < 32 then none
    else do
      let (pieces, rest) ← readPieces rest
      return (.char c :: pieces, rest)

/-- The text of a string up to its closing quote, if it spells one. -/
def readText (cs : List Char) : Option (Option String × List Char) := do
  let (pieces, rest) ← readPieces cs
  return ((Piece.join? pieces).map String.ofList, rest)

def readDigits (cs : List Char) : Option (List Char × List Char) :=
  match cs.takeWhile Char.isDigit with
  | [] => none
  | digits => some (digits, cs.dropWhile Char.isDigit)

/-- Digits without a needless zero in front. -/
def readWhole (cs : List Char) : Option (List Char × List Char) := do
  let (digits, rest) ← readDigits cs
  match digits with
  | '0' :: _ :: _ => none
  | digits => some (digits, rest)

/-- The digits behind a point, or none. -/
def readFraction : List Char → Option (List Char × List Char)
  | '.' :: rest => readDigits rest
  | rest => some ([], rest)

def readInt : List Char → Option (Int × List Char)
  | '-' :: rest => do
    let (digits, rest) ← readDigits rest
    return (-(Nat.ofDigitChars 10 digits 0 : Int), rest)
  | '+' :: rest => do
    let (digits, rest) ← readDigits rest
    return ((Nat.ofDigitChars 10 digits 0 : Int), rest)
  | rest => do
    let (digits, rest) ← readDigits rest
    return ((Nat.ofDigitChars 10 digits 0 : Int), rest)

/-- The exponent behind the letter `e` in either case, if there is one. -/
def readExponent : List Char → Option (Option Int × List Char)
  | [] => some (none, [])
  | c :: rest =>
    if c = 'e' ∨ c = 'E' then do
      let (exponent, rest) ← readInt rest
      return (some exponent, rest)
    else some (none, c :: rest)

def readMagnitude (negative : Bool) (cs : List Char) : Option (Json × List Char) := do
  let (whole, rest) ← readWhole cs
  let (fraction, rest) ← readFraction rest
  let (exponent, rest) ← readExponent rest
  let digits := Nat.ofDigitChars 10 (whole ++ fraction) 0
  if !negative && fraction.isEmpty && exponent.isNone then return (.natural digits, rest)
  else return (.decimal negative digits (exponent.getD 0 - fraction.length), rest)

def readNumber : List Char → Option (Json × List Char)
  | '-' :: rest => readMagnitude true rest
  | cs => readMagnitude false cs

/-- A word such as `null`, given by its letters behind the first. -/
def readLiteral (letters : List Char) (value : Json) (cs : List Char) :
    Option (Json × List Char) :=
  (letters.isPrefixOf? cs).map fun rest => (value, rest)

mutual

/-- Reads a value and hands back what follows it. The first argument bounds the number of
nested steps. -/
def readValue : Nat → List Char → Option (Json × List Char)
  | 0, _ => none
  | fuel + 1, cs =>
    match skipBlanks cs with
    | [] => none
    | c :: rest =>
      if c = '\x7b' then
        match skipBlanks rest with
        | '\x7d' :: rest => some (.object [], rest)
        | rest => do
          let (members, rest) ← readMembers fuel rest
          return (ofSpelledMembers members, rest)
      else if c = '[' then
        match skipBlanks rest with
        | ']' :: rest => some (.array [], rest)
        | rest => do
          let (elements, rest) ← readElements fuel rest
          return (.array elements, rest)
      else if c = '"' then do
        let (text, rest) ← readText rest
        return (ofSpelled text, rest)
      else if c = 'n' then readLiteral ['u', 'l', 'l'] .null rest
      else if c = 't' then readLiteral ['r', 'u', 'e'] (.bool true) rest
      else if c = 'f' then readLiteral ['a', 'l', 's', 'e'] (.bool false) rest
      else readNumber (c :: rest)

def readElements : Nat → List Char → Option (List Json × List Char)
  | 0, _ => none
  | fuel + 1, cs => do
    let (element, rest) ← readValue fuel cs
    match skipBlanks rest with
    | ',' :: rest => do
      let (elements, rest) ← readElements fuel rest
      return (element :: elements, rest)
    | ']' :: rest => return ([element], rest)
    | _ => none

def readMembers : Nat → List Char → Option (List (Option String × Json) × List Char)
  | 0, _ => none
  | fuel + 1, cs =>
    match skipBlanks cs with
    | '"' :: rest => do
      let (name, rest) ← readText rest
      match skipBlanks rest with
      | ':' :: rest => do
        let (value, rest) ← readValue fuel rest
        match skipBlanks rest with
        | ',' :: rest => do
          let (members, rest) ← readMembers fuel rest
          return ((name, value) :: members, rest)
        | '\x7d' :: rest => return ([(name, value)], rest)
        | _ => none
      | _ => none
    | _ => none

end

/-- The value that a text denotes. Two nested steps a character are enough. -/
def parse? (text : String) : Option Json := do
  let (value, rest) ← readValue (2 * text.toList.length + 2) text.toList
  if (skipBlanks rest).isEmpty then some value else none

end DelegatedAuthority.Json
