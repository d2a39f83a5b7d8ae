import DelegatedAuthority.Cbor.Head
/-!
Readers of data items, down to a bound on nesting.

What is wanted decides how bytes are read: a text may be given in chunks, while lists and
maps have to say their lengths, and heads stand in for each other as `readHead` allows.
-/
namespace DelegatedAuthority.Cbor

/-- A reader takes what it reads off the front of the bytes and hands back the rest. -/
abbrev Read (α : Type) := Bytes → Option (α × Bytes)

/-- A reader of what nests at most so many levels. -/
abbrev NestedRead (α : Type) := Nat → Read α

def readMany {α : Type} (read : Read α) : Nat → Read (List α)
  | 0, bytes => some ([], bytes)
  | count + 1, bytes => do
    let (first, bytes) ← read bytes
    let (others, bytes) ← readMany read count bytes
    return (first :: others, bytes)

/-- Reads things up to a stop byte; the first argument bounds their number. -/
def readUntilStop {α : Type} (read : Read α) : Nat → Read (List α)
  | 0, _ => none
  | _, [] => none
  | limit + 1, b :: rest =>
    if b = stopByte then some ([], rest)
    else do
      let (first, bytes) ← read (b :: rest)
      let (others, bytes) ← readUntilStop read limit bytes
      return (first :: others, bytes)

/-- Reads a stream: things up to a stop byte, as many as there may be. -/
def readStream {α : Type} (read : Read α) : Read (List α) :=
  fun bytes => readUntilStop read bytes.length bytes

def readUnsigned : Read UInt64 :=
  fun bytes => do
    let (n, bytes) ← readHead .unsigned bytes
    return (UInt64.ofNat n, bytes)

def readNullable {α : Type} (read : Read α) : Read (Option α)
  | [] => none
  | b :: rest =>
    if b = nullByte then some (none, rest)
    else do
      let (a, bytes) ← read (b :: rest)
      return (some a, bytes)

def readChunk (major : Major) : Read Bytes :=
  fun bytes => do
    let (n, bytes) ← readHead major bytes
    Bytes.take? n bytes

/-- Reads a string: one chunk, or a stream of the strings that `read` reads. -/
def readChunks (major : Major) (read : Read Bytes) : Read Bytes
  | [] => none
  | b :: rest =>
    if b = streamByte major then do
      let (chunks, bytes) ← readStream read rest
      return (chunks.flatten, bytes)
    else readChunk major (b :: rest)

/-- Reads a string. The strings inside a stream are one level below it, so that on the last
level only a stream of none is read. -/
def readString (major : Major) : NestedRead Bytes
  | 0 => readChunks major fun _ => none
  | depth + 1 => readChunks major (readString major depth)

/-- Reads a string whose first head is of the major type itself. The heads of the strings
inside a stream may still be others that stand in for it. -/
def readOwnString (major : Major) : NestedRead Bytes
  | _, [] => none
  | depth, b :: rest =>
    if Major.ofByte b = major then readString major depth (b :: rest) else none

/-- Reads a text. Its chunks need not be valid UTF-8 one by one, but all together. -/
def readText : NestedRead String :=
  fun depth bytes => do
    let (content, bytes) ← readString .text depth bytes
    return (← Bytes.toText? content, bytes)

/-- Reads a list of definite length, which is a level of its own. -/
def readArray {α : Type} (read : NestedRead α) : NestedRead (List α)
  | 0, _ => none
  | depth + 1, bytes => do
    let (n, bytes) ← readHead .array bytes
    readMany (read depth) n bytes

end DelegatedAuthority.Cbor
