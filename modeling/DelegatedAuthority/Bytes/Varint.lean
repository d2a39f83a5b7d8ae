import DelegatedAuthority.Bytes
/-!
Unsigned varints: seven bits a byte, least significant group first, the high bit set on
every byte but the last. At most ten bytes are read, and only minimal spellings.
-/
namespace DelegatedAuthority.Varint

/-- The minimal spelling of a number. -/
def writeNat (n : Nat) : Bytes :=
  if n < 128 then [UInt8.ofNat n] else UInt8.ofNat (n % 128 + 128) :: writeNat (n / 128)
termination_by n
decreasing_by omega

def write (n : UInt64) : Bytes :=
  writeNat n.toNat

/-- Reads a spelling of at most `limit` bytes. A last group of zero behind another group could
have been left out, so it is refused. -/
def readNat : Nat → Bytes → Option (Nat × Bytes)
  | 0, _ => none
  | _, [] => none
  | limit + 1, b :: rest =>
    if b.toNat < 128 then some (b.toNat, rest)
    else do
      let (high, rest) ← readNat limit rest
      if high = 0 then none else some (b.toNat % 128 + 128 * high, rest)

/-- Reads a word. Of a ten-byte spelling the bits that do not fit are dropped. -/
def read (bytes : Bytes) : Option (UInt64 × Bytes) := do
  let (n, rest) ← readNat 10 bytes
  return (UInt64.ofNat n, rest)

end DelegatedAuthority.Varint
