import DelegatedAuthority.AuthorizationError
import DelegatedAuthority.Cbor.Map
import DelegatedAuthority.Cbor.Writer
import DelegatedAuthority.Delegation
import DelegatedAuthority.Fields
/-!
Delegations as blocks of DAG-CBOR.

A block is written in one way: a map of five entries in the order `att`, `aud`, `exp`, `iss`,
`prf`. It is read from any definite-length map that gives each known field at most once and
may hold others.
-/
namespace DelegatedAuthority

open Cbor

namespace Cid

def linkTag : Nat := 42

/-- A tagged byte string: a zero byte and the bytes of the identifier. -/
def writeLink (cid : Cid) : Bytes :=
  writeHead .tag linkTag ++ writeString .bytes (0 :: cid.toBytes)

def readLink : NestedRead Cid :=
  fun depth bytes => do
    let (tag, bytes) ← readHead .tag bytes
    if tag = linkTag then
      let (content, bytes) ← readOwnString .bytes depth bytes
      match content with
      | 0 :: content => return (← ofBytes? content, bytes)
      | _ => none
    else none

end Cid

namespace Capability

def write (c : Capability) : Bytes :=
  writeMap [("can", writeText c.ability), ("with", writeText c.resource)]

/-- Reads the text of a known field together with the name of the field. -/
def fieldReader? (key : String) : Option (NestedRead (String × String)) :=
  if key = "can" ∨ key = "with" then
    some fun depth bytes => do
      let (text, bytes) ← readText depth bytes
      return ((key, text), bytes)
  else none

def read : NestedRead Capability :=
  fun depth bytes => do
    let (fields, bytes) ← readMap fieldReader? depth bytes
    return (⟨← Fields.required? fields "can", ← Fields.required? fields "with"⟩, bytes)

end Capability

namespace Delegation

inductive Entry where
  | issuer (principal : Principal)
  | audience (principal : Principal)
  | expiration (last : Option Timestamp)
  | capabilities (list : List Capability)
  | proofs (list : List Cid)
  deriving DecidableEq

namespace Entry

def key : Entry → String
  | issuer _ => "iss"
  | audience _ => "aud"
  | expiration _ => "exp"
  | capabilities _ => "att"
  | proofs _ => "prf"

def writeValue : Entry → Bytes
  | issuer principal => writeText principal
  | audience principal => writeText principal
  | expiration none => [nullByte]
  | expiration (some last) => writeUnsigned last
  | capabilities list => writeArray Capability.write list
  | proofs list => writeArray Cid.writeLink list

/-- Reads a value and makes an entry of it. -/
def reading {α : Type} (entry : α → Entry) (read : NestedRead α) : Option (NestedRead Entry) :=
  some fun depth bytes => do
    let (a, bytes) ← read depth bytes
    return (entry a, bytes)

def reader? : String → Option (NestedRead Entry)
  | "iss" => reading issuer readText
  | "aud" => reading audience readText
  | "exp" => reading expiration fun _ => readNullable readUnsigned
  | "att" => reading capabilities (readArray Capability.read)
  | "prf" => reading proofs (readArray Cid.readLink)
  | _ => none

def issuer? : Entry → Option Principal
  | issuer principal => some principal
  | _ => none

def audience? : Entry → Option Principal
  | audience principal => some principal
  | _ => none

def expiration? : Entry → Option (Option Timestamp)
  | expiration last => some last
  | _ => none

def capabilities? : Entry → Option (List Capability)
  | capabilities list => some list
  | _ => none

def proofs? : Entry → Option (List Cid)
  | proofs list => some list
  | _ => none

variable {e : Entry}

@[simp] theorem issuer?_eq_some_iff {principal : Principal} :
    e.issuer? = some principal ↔ e = issuer principal := by
  cases e <;> simp [issuer?]

@[simp] theorem audience?_eq_some_iff {principal : Principal} :
    e.audience? = some principal ↔ e = audience principal := by
  cases e <;> simp [audience?]

@[simp] theorem expiration?_eq_some_iff {last : Option Timestamp} :
    e.expiration? = some last ↔ e = expiration last := by
  cases e <;> simp [expiration?]

@[simp] theorem capabilities?_eq_some_iff {list : List Capability} :
    e.capabilities? = some list ↔ e = capabilities list := by
  cases e <;> simp [capabilities?]

@[simp] theorem proofs?_eq_some_iff {list : List Cid} :
    e.proofs? = some list ↔ e = proofs list := by
  cases e <;> simp [proofs?]

end Entry

/-- The entries of a block, in the order they are written. -/
def entries (d : Delegation) : List Entry :=
  [.capabilities d.capabilities, .audience d.audience, .expiration d.expiration,
    .issuer d.issuer, .proofs d.proofs]

/-- The delegation that entries give in any order, none of them twice. Only the issuer and the
audience cannot be left out. -/
def ofEntries? (entries : List Entry) : Option Delegation := do
  let issuer ← Fields.exactlyOne? (entries.filterMap Entry.issuer?)
  let audience ← Fields.exactlyOne? (entries.filterMap Entry.audience?)
  let expiration ← Fields.atMostOne? (entries.filterMap Entry.expiration?)
  let capabilities ← Fields.atMostOne? (entries.filterMap Entry.capabilities?)
  let proofs ← Fields.atMostOne? (entries.filterMap Entry.proofs?)
  return ⟨issuer, audience, expiration.getD none, capabilities.getD [], proofs.getD []⟩

def encode (d : Delegation) : Bytes :=
  writeMap (d.entries.map fun entry => (entry.key, entry.writeValue))

def nestingLimit : Nat := 256

/-- The delegation that a block holds, if it holds one and nothing behind it. -/
def decode? (block : Bytes) : Option Delegation := do
  match ← readMap Entry.reader? nestingLimit block with
  | (entries, []) => ofEntries? entries
  | _ => none

def decode (block : Bytes) : Except AuthorizationError Delegation :=
  match decode? block with
  | some d => .ok d
  | none => .error .undecodable

def cid (d : Delegation) : Cid :=
  Cid.ofBlock d.encode

end Delegation

end DelegatedAuthority
