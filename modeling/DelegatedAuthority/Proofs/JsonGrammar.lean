import DelegatedAuthority.Json.Value
import DelegatedAuthority.Json.Reader
/-!
The grammar of JSON texts: which stretches of characters denote a value.

A value may be spelt in many ways. Blanks may stand around it and around every mark inside,
characters may be escaped, and the members of an object may come in any order and more than once.
-/
namespace DelegatedAuthority.Json

/-- A stretch of blanks. -/
def Blank (cs : List Char) : Prop :=
  ∀ c ∈ cs, c ∈ [' ', '\t', '\n', '\r']

/-- The letters that stand for a character behind a backslash. -/
def shortEscapes : List (Char × Char) :=
  [('"', '"'), ('\\', '\\'), ('/', '/'), ('b', '\x08'), ('f', '\x0c'), ('n', '\n'), ('r', '\r'),
    ('t', '\t')]

/-- A hexadecimal digit, in either case, and what it counts. -/
def IsHexDigit (c : Char) (n : Nat) : Prop :=
  n < 16 ∧ (c = n.digitChar ∨ c = n.digitChar.toUpper)

/-- What stands between quotes spells these pieces. -/
inductive SpellsPieces : List Char → List Piece → Prop
  | nil : SpellsPieces [] []
  | plain {c : Char} {cs : List Char} {pieces : List Piece} : c ≠ '"' → c ≠ '\\' → 0x20 ≤ c.toNat →
      SpellsPieces cs pieces → SpellsPieces (c :: cs) (.char c :: pieces)
  | short {letter c : Char} {cs : List Char} {pieces : List Piece} : (letter, c) ∈ shortEscapes →
      SpellsPieces cs pieces → SpellsPieces ('\\' :: letter :: cs) (.char c :: pieces)
  | unit {a b c d : Char} {i j k l : Nat} {cs : List Char} {pieces : List Piece} :
      IsHexDigit a i → IsHexDigit b j → IsHexDigit c k → IsHexDigit d l → SpellsPieces cs pieces →
      SpellsPieces ('\\' :: 'u' :: a :: b :: c :: d :: cs)
        (.ofUnit (0x1000 * i + 0x100 * j + 0x10 * k + l) :: pieces)

/-- Pieces make up these characters: a high surrogate and a low one behind it are one
character. -/
inductive Joins : List Piece → List Char → Prop
  | nil : Joins [] []
  | char {c : Char} {pieces : List Piece} {cs : List Char} :
      Joins pieces cs → Joins (.char c :: pieces) (c :: cs)
  | pair {high low : Nat} {pieces : List Piece} {cs : List Char} : high < 0xDC00 → 0xDC00 ≤ low →
      Joins pieces cs → Joins (.surrogate high :: .surrogate low :: pieces)
        (Char.ofNat (0x10000 + (high - 0xD800) * 0x400 + (low - 0xDC00)) :: cs)

/-- What stands between quotes spells a text, or none where a surrogate has no other half. -/
def SpellsText (cs : List Char) (text : Option String) : Prop :=
  ∃ pieces, SpellsPieces cs pieces ∧ ∀ t, text = some t ↔ Joins pieces t.toList

/-- Digits, at least one. -/
def IsDigits (cs : List Char) : Prop :=
  cs ≠ [] ∧ ∀ c ∈ cs, c.isDigit = true

/-- Digits that begin with a zero only if it is the one digit. -/
def IsWhole (cs : List Char) : Prop :=
  IsDigits cs ∧ ∀ rest, cs = '0' :: rest → rest = []

/-- A point and digits, or nothing. -/
inductive IsFraction : List Char → List Char → Prop
  | absent : IsFraction [] []
  | present {digits : List Char} : IsDigits digits → IsFraction ('.' :: digits) digits

/-- The letter of an exponent with a sign and digits, or nothing. -/
inductive IsExponent : List Char → Option Int → Prop
  | absent : IsExponent [] none
  | unsigned {e : Char} {digits : List Char} : e = 'e' ∨ e = 'E' → IsDigits digits →
      IsExponent (e :: digits) (some (Nat.ofDigitChars 10 digits 0))
  | positive {e : Char} {digits : List Char} : e = 'e' ∨ e = 'E' → IsDigits digits →
      IsExponent (e :: '+' :: digits) (some (Nat.ofDigitChars 10 digits 0))
  | negative {e : Char} {digits : List Char} : e = 'e' ∨ e = 'E' → IsDigits digits →
      IsExponent (e :: '-' :: digits) (some (-(Nat.ofDigitChars 10 digits 0)))

inductive IsNumber : List Char → Json → Prop
  | natural {digits : List Char} :
      IsWhole digits → IsNumber digits (.natural (Nat.ofDigitChars 10 digits 0))
  | positive {whole point fraction letter : List Char} {exponent : Option Int} : IsWhole whole →
      IsFraction point fraction → IsExponent letter exponent → point ≠ [] ∨ letter ≠ [] →
      IsNumber (whole ++ point ++ letter) (.decimal false
        (Nat.ofDigitChars 10 (whole ++ fraction) 0) (exponent.getD 0 - fraction.length))
  | negative {whole point fraction letter : List Char} {exponent : Option Int} : IsWhole whole →
      IsFraction point fraction → IsExponent letter exponent →
      IsNumber ('-' :: (whole ++ point ++ letter)) (.decimal true
        (Nat.ofDigitChars 10 (whole ++ fraction) 0) (exponent.getD 0 - fraction.length))

/-- What a stretch of a text can be read as. -/
inductive Phrase where
  | value (v : Json)
  /-- A value with blanks around it. -/
  | padded (v : Json)
  /-- The inside of an array. -/
  | elements (vs : List Json)
  | member (name : Option String) (v : Json)
  /-- The inside of an object. -/
  | members (ms : List (Option String × Json))

inductive Denotes : List Char → Phrase → Prop
  | nullWord : Denotes ['n', 'u', 'l', 'l'] (.value .null)
  | trueWord : Denotes ['t', 'r', 'u', 'e'] (.value (.bool true))
  | falseWord : Denotes ['f', 'a', 'l', 's', 'e'] (.value (.bool false))
  | number {cs : List Char} {v : Json} : IsNumber cs v → Denotes cs (.value v)
  | string {cs : List Char} {text : Option String} :
      SpellsText cs text → Denotes ('"' :: (cs ++ ['"'])) (.value (ofSpelled text))
  | emptyArray {blanks : List Char} :
      Blank blanks → Denotes ('[' :: (blanks ++ [']'])) (.value (.array []))
  | array {cs : List Char} {vs : List Json} :
      Denotes cs (.elements vs) → Denotes ('[' :: (cs ++ [']'])) (.value (.array vs))
  | emptyObject {blanks : List Char} :
      Blank blanks → Denotes ('\x7b' :: (blanks ++ ['\x7d'])) (.value (.object []))
  | object {cs : List Char} {ms : List (Option String × Json)} : Denotes cs (.members ms) →
      Denotes ('\x7b' :: (cs ++ ['\x7d'])) (.value (ofSpelledMembers ms))
  | padded {before cs after : List Char} {v : Json} : Blank before → Denotes cs (.value v) →
      Blank after → Denotes (before ++ cs ++ after) (.padded v)
  | lastElement {cs : List Char} {v : Json} : Denotes cs (.padded v) → Denotes cs (.elements [v])
  | moreElements {cs rest : List Char} {v : Json} {vs : List Json} : Denotes cs (.padded v) →
      Denotes rest (.elements vs) → Denotes (cs ++ ',' :: rest) (.elements (v :: vs))
  | member {before cs after value : List Char} {name : Option String} {v : Json} :
      Blank before → SpellsText cs name → Blank after → Denotes value (.padded v) →
      Denotes (before ++ '"' :: (cs ++ '"' :: (after ++ ':' :: value))) (.member name v)
  | lastMember {cs : List Char} {name : Option String} {v : Json} :
      Denotes cs (.member name v) → Denotes cs (.members [(name, v)])
  | moreMembers {cs rest : List Char} {name : Option String} {v : Json}
      {ms : List (Option String × Json)} : Denotes cs (.member name v) →
      Denotes rest (.members ms) → Denotes (cs ++ ',' :: rest) (.members ((name, v) :: ms))

/-- A text that is a value, with blanks around it. -/
def IsText (text : String) (v : Json) : Prop :=
  Denotes text.toList (.padded v)

end DelegatedAuthority.Json
