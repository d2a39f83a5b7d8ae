import DelegatedAuthority.Bytes
/-!
Base 58 in the alphabet that leaves out `0`, `O`, `I` and `l`: the bytes as one number,
and one digit `1` for each zero byte in front of it.
-/
namespace DelegatedAuthority.Base58

def alphabet : List Char :=
  "123456789ABCDEFGHJKLMNPQRSTUVWXYZabcdefghijkmnopqrstuvwxyz".toList

/-- The digits of a byte string, as characters. Two digits are enough for a byte. -/
def encode (bytes : Bytes) : List Char :=
  let zeros := (bytes.takeWhile (· == 0)).length
  let digits := (toDigits 58 (2 * bytes.length) bytes.toNat).dropWhile (· == 0)
  (List.replicate zeros 0 ++ digits).map (alphabet.getD · '1')

/-- Reads digits back. One byte is enough for a digit. -/
def decode? (digits : List Char) : Option Bytes := do
  let values ← digits.mapM alphabet.idxOf?
  let zeros := (values.takeWhile (· == 0)).length
  let bytes := (Bytes.ofNat values.length (ofDigits 58 values)).dropWhile (· == 0)
  return List.replicate zeros 0 ++ bytes

end DelegatedAuthority.Base58
