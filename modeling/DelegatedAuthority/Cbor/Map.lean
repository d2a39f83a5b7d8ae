import DelegatedAuthority.Cbor.Reader
/-!
Maps of which a reader knows some keys and passes over the others.

A value that is passed over can be any item that nests within the bound. Its structure is
followed, its content is not looked at: texts need not be UTF-8, and the chunks of a stream
may be items of any kind.
-/
namespace DelegatedAuthority.Cbor

def readPair {α β : Type} (readFst : Read α) (readSnd : Read β) : Read (α × β) :=
  fun bytes => do
    let (fst, bytes) ← readFst bytes
    let (snd, bytes) ← readSnd bytes
    return ((fst, snd), bytes)

def discard {α : Type} (read : Read α) : Read Unit :=
  fun bytes => do
    let (_, bytes) ← read bytes
    return ((), bytes)

/-- The number of bytes behind the first one of a simple value or a floating-point number.
The simple values are the truth values, null and undefined. -/
def simpleSize? (b : UInt8) : Option Nat :=
  if 0xf4 ≤ b ∧ b ≤ 0xf7 then some 0
  else if b = 0xf9 then some 2
  else if b = 0xfa then some 4
  else if b = 0xfb then some 8
  else none

/-- Passes over an item. Each item, down to the last leaf, is a level of its own. -/
def skip : NestedRead Unit
  | 0, _ => none
  | _, [] => none
  | depth + 1, b :: rest =>
    let major := Major.ofByte b
    if b = streamByte major then
      match major with
      | .bytes | .text | .array => discard (readStream (skip depth)) rest
      | .map => discard (readStream (readPair (skip depth) (skip depth))) rest
      | _ => none
    else if major = .simple then do
      discard (Bytes.take? (← simpleSize? b)) rest
    else do
      let (n, bytes) ← readHead major (b :: rest)
      match major with
      | .bytes | .text => discard (Bytes.take? n) bytes
      | .array => discard (readMany (skip depth) n) bytes
      | .map => discard (readMany (readPair (skip depth) (skip depth)) n) bytes
      | .tag => skip depth bytes
      | _ => some ((), bytes)

/-- Reads an entry of a map, as `known` says for its key, or passes over its value. -/
def readEntry {α : Type} (known : String → Option (NestedRead α)) : NestedRead (Option α) :=
  fun depth bytes => do
    let (key, bytes) ← readText depth bytes
    match known key with
    | some read =>
      let (a, bytes) ← read depth bytes
      return (some a, bytes)
    | none =>
      let ((), bytes) ← skip depth bytes
      return (none, bytes)

/-- Reads the known entries of a map of definite length, which is a level of its own. -/
def readMap {α : Type} (known : String → Option (NestedRead α)) : NestedRead (List α)
  | 0, _ => none
  | depth + 1, bytes => do
    let (n, bytes) ← readHead .map bytes
    let (entries, bytes) ← readMany (readEntry known depth) n bytes
    return (entries.filterMap id, bytes)

end DelegatedAuthority.Cbor
