import DelegatedAuthority.Cbor.Head
/-!
The bytes of data items, with heads in their shortest form and all lengths definite.
-/
namespace DelegatedAuthority.Cbor

def writeUnsigned (n : UInt64) : Bytes :=
  writeHead .unsigned n.toNat

def writeString (major : Major) (content : Bytes) : Bytes :=
  writeHead major content.length ++ content

def writeText (text : String) : Bytes :=
  writeString .text (Bytes.ofText text)

def writeArray {α : Type} (write : α → Bytes) (elements : List α) : Bytes :=
  writeHead .array elements.length ++ elements.flatMap write

/-- A map of keys to values that are already written. -/
def writeMap (entries : List (String × Bytes)) : Bytes :=
  writeHead .map entries.length ++ entries.flatMap fun (key, value) => writeText key ++ value

end DelegatedAuthority.Cbor
