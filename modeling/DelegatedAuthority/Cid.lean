import DelegatedAuthority.Bytes.Base32
import DelegatedAuthority.Bytes.Base58
import DelegatedAuthority.Bytes.Sha256
import DelegatedAuthority.Bytes.Varint
/-!
Content identifiers: their two versions, their bytes, their text, and the identifier of a
block of DAG-CBOR.

Reading accepts any codec and any hash function; it does not tell whether an identifier
addresses some block.
-/
namespace DelegatedAuthority

structure Multihash where
  code : UInt64
  digest : Bytes
  size_le : digest.length ≤ 64
  deriving DecidableEq

/-- A content identifier. Version 0 is a bare SHA-256 digest, version 1 also names the codec
of the content. -/
inductive Cid where
  | v0 (digest : Bytes) (size_eq : digest.length = 32)
  | v1 (codec : UInt64) (hash : Multihash)
  deriving DecidableEq

namespace Cid

def dagCbor : UInt64 := 0x71

def sha256 : UInt64 := 0x12

/-- The identifier of a block of DAG-CBOR. -/
def ofBlock (block : Bytes) : Cid :=
  .v1 dagCbor ⟨sha256, Sha256.digest block, by rw [Sha256.length_digest]; decide⟩

def codec : Cid → UInt64
  | .v0 .. => 0x70
  | .v1 codec _ => codec

def hashCode : Cid → UInt64
  | .v0 .. => sha256
  | .v1 _ hash => hash.code

def toBytes : Cid → Bytes
  | .v0 digest _ => 0x12 :: 0x20 :: digest
  | .v1 codec hash =>
    Varint.write 1 ++ Varint.write codec ++ Varint.write hash.code ++
      Varint.write (UInt64.ofNat hash.digest.length) ++ hash.digest

def readMultihash (bytes : Bytes) : Option (Multihash × Bytes) := do
  let (code, bytes) ← Varint.read bytes
  let (size, bytes) ← Varint.read bytes
  let (digest, bytes) ← Bytes.take? size.toNat bytes
  if h : digest.length ≤ 64 then some (⟨code, digest, h⟩, bytes) else none

def readDigest (bytes : Bytes) : Option (Cid × Bytes) := do
  let (digest, bytes) ← Bytes.take? 32 bytes
  if h : digest.length = 32 then some (.v0 digest h, bytes) else none

/-- Reads an identifier of either version. The first two numbers tell them apart: they are a
version and a codec, or the code and the size of a SHA-256 digest. -/
def read (bytes : Bytes) : Option (Cid × Bytes) := do
  let (version, bytes) ← Varint.read bytes
  let (codec, bytes) ← Varint.read bytes
  if version = sha256 ∧ codec = 32 then readDigest bytes
  else if version = 1 then do
    let (hash, bytes) ← readMultihash bytes
    return (.v1 codec hash, bytes)
  else none

/-- The identifier at the front of the bytes. What stands behind it is passed over. -/
def ofBytes? (bytes : Bytes) : Option Cid := do
  let (cid, _) ← read bytes
  return cid

/-- Base 58 for version 0; the letter `b` and base 32 for version 1. -/
def toText (cid : Cid) : String :=
  match cid with
  | .v0 .. => String.ofList (Base58.encode cid.toBytes)
  | .v1 .. => String.ofList ('b' :: Base32.encode cid.toBytes)

def ofText? (text : String) : Option Cid :=
  match text.toList with
  | 'b' :: digits => do ofBytes? (← Base32.decode? digits)
  | digits => do ofBytes? (← Base58.decode? digits)

end Cid

end DelegatedAuthority
