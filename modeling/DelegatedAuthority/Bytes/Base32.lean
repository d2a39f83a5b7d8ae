import DelegatedAuthority.Bytes
/-!
Base 32 in lower case without padding: the bits of the bytes in groups of five, the last
group filled up with zero bits.
-/
namespace DelegatedAuthority.Base32

def alphabet : List Char :=
  "abcdefghijklmnopqrstuvwxyz234567".toList

/-- The number of digits that hold `size` bytes. -/
def digitCount (size : Nat) : Nat :=
  (8 * size + 4) / 5

def encode (bytes : Bytes) : List Char :=
  let width := digitCount bytes.length
  let fill := 5 * width - 8 * bytes.length
  (toDigits 32 width (bytes.toNat * Nat.pow 2 fill)).map (alphabet.getD · 'a')

/-- Reads digits back. The number of digits must be one that whole bytes need, and the
bits that fill up the last group must be zero. -/
def decode? (digits : List Char) : Option Bytes := do
  let values ← digits.mapM alphabet.idxOf?
  let size := 5 * values.length / 8
  let fill := 5 * values.length - 8 * size
  let n := ofDigits 32 values
  if digitCount size = values.length ∧ n % Nat.pow 2 fill = 0 then
    some (Bytes.ofNat size (n / Nat.pow 2 fill))
  else none

end DelegatedAuthority.Base32
