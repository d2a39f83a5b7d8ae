import DelegatedAuthority.Delegation.Block
import DelegatedAuthority.Proofs.Items
import Mathlib.Data.List.Perm.Subperm
/-!
The grammar of blocks: which bytes hold a delegation.

A delegation is written in one way only, but it may be given in many: its entries in any order and
among others, without those that say nothing, and with any heads that are wide enough. What it is
written to is one of these blocks.
-/
namespace DelegatedAuthority

open Cbor

variable {α : Type} {content : Bytes}

namespace Cbor

/-- A string in one piece, or in a stream of pieces. -/
inductive IsString (major : Major) : Bytes → Bytes → Prop
  | chunk {part content : Bytes} : IsChunk major part content → IsString major part content
  | stream {parts contents : List Bytes} : List.Forall₂ (IsChunk major) parts contents →
      IsString major (streamByte major :: (parts.flatten ++ [stopByte])) contents.flatten

def IsText (part : Bytes) (text : String) : Prop :=
  IsString .text part (Bytes.ofText text)

/-- A list or a map of definite length, by what its parts stand for. -/
def IsList (major : Major) (element : Bytes → α → Prop) (part : Bytes) (list : List α) : Prop :=
  ∃ head parts, IsHead major list.length head ∧ List.Forall₂ element parts list ∧
    part = head ++ parts.flatten

/-- How deep an item may nest that is passed over. Above it there may be a map in a list in a
block. -/
def foreignLevels : Nat := 253

/-- A member of a map, and what it gives: a value under its own key, which is a known one, or
nothing under another key, where any item may stand that does not nest too deep. -/
inductive IsMember (simple : Bytes → Prop) (names : List String) (key : α → String)
    (value : Bytes → α → Prop) : Bytes → Option α → Prop
  | known {front back : Bytes} {a : α} : IsText front (key a) → key a ∈ names → value back a →
      IsMember simple names key value (front ++ back) (some a)
  | unknown {front back : Bytes} {name : String} {levels : Nat} : IsText front name →
      name ∉ names → levels ≤ foreignLevels → Item simple levels back →
      IsMember simple names key value (front ++ back) none

theorem isHead_writeHead (major : Major) {n : Nat} (h : n < Width.eight.bound) :
    IsHead major n (writeHead major n) :=
  ⟨Width.shortest n, Width.lt_bound_shortest h, rfl⟩

theorem isString_writeString (major : Major) (h : content.length < Width.eight.bound) :
    IsString major (writeString major content) content :=
  .chunk ⟨writeHead major content.length, isHead_writeHead major h, rfl⟩

theorem isText_writeText {text : String} (h : text.utf8ByteSize < Width.eight.bound) :
    IsText (writeText text) text :=
  isString_writeString .text h

theorem isList_flatMap (major : Major) {β : Type} {element : Bytes → α → Prop}
    {write : β → Bytes} {value : β → α} {list : List β} (h : list.length < Width.eight.bound)
    (each : ∀ b ∈ list, element (write b) (value b)) :
    IsList major element (writeHead major list.length ++ list.flatMap write) (list.map value) := by
  refine ⟨writeHead major list.length, list.map write, ?_, ?_, ?_⟩
  · rw [List.length_map]
    exact isHead_writeHead major h
  · rw [List.forall₂_map_left_iff, List.forall₂_map_right_iff, List.forall₂_same]
    exact each
  · rw [List.flatMap_def]

end Cbor

namespace Capability

/-- Heads can tell the lengths of both texts. -/
structure Encodable (c : Capability) : Prop where
  ability : c.ability.utf8ByteSize < Width.eight.bound
  resource : c.resource.utf8ByteSize < Width.eight.bound

def keys : List String := ["can", "with"]

/-- The fields of a capability, in the order they are written. -/
def fields (c : Capability) : List (String × String) :=
  [("can", c.ability), ("with", c.resource)]

/-- A map that gives the fields of a capability in any order and among others. -/
def IsSpelt (simple : Bytes → Prop) (part : Bytes) (c : Capability) : Prop :=
  ∃ members, IsList .map
      (IsMember simple keys Prod.fst fun back field => IsText back field.2) part members ∧
    (members.filterMap id).Perm c.fields

theorem isSpelt_write (simple : Bytes → Prop) {c : Capability} (h : c.Encodable) :
    IsSpelt simple c.write c := by
  have each : ∀ field ∈ c.fields, IsMember simple keys Prod.fst
      (fun back field => IsText back field.2) (writeText field.1 ++ writeText field.2)
      (some field) := by
    simp only [fields, List.forall_mem_cons]
    refine ⟨?_, ?_, List.forall_mem_nil _⟩
    · exact .known (isText_writeText (by decide)) (by simp [keys]) (isText_writeText h.ability)
    · exact .known (isText_writeText (by decide)) (by simp [keys]) (isText_writeText h.resource)
  have fits : c.fields.length < Width.eight.bound := (by decide : 2 < Width.eight.bound)
  refine ⟨c.fields.map some, isList_flatMap .map fits each, ?_⟩
  rw [List.filterMap_map]
  simp

end Capability

/-- A tag in any width on a string with the bytes of an identifier. -/
def Cid.IsLink (part : Bytes) (cid : Cid) : Prop :=
  ∃ head string, IsHead .tag linkTag head ∧ IsString .bytes string (0 :: cid.toBytes) ∧
    part = head ++ string

theorem Cid.isLink_writeLink (cid : Cid) : IsLink cid.writeLink cid := by
  have fits : (0 :: cid.toBytes).length < Width.eight.bound :=
    Nat.lt_of_le_of_lt (Nat.succ_le_succ cid.length_toBytes_le) (by decide)
  exact ⟨_, _, isHead_writeHead .tag (by decide), isString_writeString .bytes fits, rfl⟩

namespace Delegation

namespace Entry

/-- Heads can tell the lengths of all texts and lists in an entry. -/
def Encodable : Entry → Prop
  | issuer principal => principal.utf8ByteSize < Width.eight.bound
  | audience principal => principal.utf8ByteSize < Width.eight.bound
  | expiration _ => True
  | capabilities list => list.length < Width.eight.bound ∧ ∀ c ∈ list, c.Encodable
  | proofs list => list.length < Width.eight.bound

theorem length_key_lt (e : Entry) : e.key.utf8ByteSize < Width.eight.bound := by
  cases e <;> exact Nat.lt_trans (Nat.lt_succ_self 3) (by decide)

/-- The keys of all entries. -/
def keys : List String := ["iss", "aud", "exp", "att", "prf"]

theorem key_mem (e : Entry) : e.key ∈ keys := by
  cases e <;> simp [key, keys]

/-- The values of entries. -/
inductive IsSpelt (simple : Bytes → Prop) : Bytes → Entry → Prop
  | issuer {part : Bytes} {principal : Principal} :
      IsText part principal → IsSpelt simple part (.issuer principal)
  | audience {part : Bytes} {principal : Principal} :
      IsText part principal → IsSpelt simple part (.audience principal)
  | noExpiration : IsSpelt simple [nullByte] (.expiration none)
  | expiration {part : Bytes} {last : Timestamp} :
      IsHead .unsigned last.toNat part → IsSpelt simple part (.expiration (some last))
  | capabilities {part : Bytes} {list : List Capability} :
      IsList .array (Capability.IsSpelt simple) part list →
      IsSpelt simple part (.capabilities list)
  | proofs {part : Bytes} {list : List Cid} :
      IsList .array Cid.IsLink part list → IsSpelt simple part (.proofs list)

/-- Whether an entry says no more than if it were left out. -/
def IsOptional (e : Entry) : Prop :=
  e = .expiration none ∨ e = .capabilities [] ∨ e = .proofs []

theorem isSpelt_writeValue (simple : Bytes → Prop) {e : Entry} (h : e.Encodable) :
    IsSpelt simple e.writeValue e := by
  cases e with
  | issuer principal => exact .issuer (isText_writeText h)
  | audience principal => exact .audience (isText_writeText h)
  | expiration last =>
    cases last with
    | none => exact .noExpiration
    | some last => exact .expiration (isHead_writeHead .unsigned last.toNat_lt)
  | capabilities list =>
    have isList := isList_flatMap .array h.1 fun c member => c.isSpelt_write simple (h.2 c member)
    rw [List.map_id'] at isList
    exact .capabilities isList
  | proofs list =>
    have isList := isList_flatMap .array h fun cid _ => cid.isLink_writeLink
    rw [List.map_id'] at isList
    exact .proofs isList

end Entry

/-- Heads can tell the lengths of all texts and lists in a delegation. -/
structure Encodable (d : Delegation) : Prop where
  issuer : d.issuer.utf8ByteSize < Width.eight.bound
  audience : d.audience.utf8ByteSize < Width.eight.bound
  capabilities : d.capabilities.length < Width.eight.bound
  each : ∀ c ∈ d.capabilities, c.Encodable
  proofs : d.proofs.length < Width.eight.bound

theorem Encodable.entries {d : Delegation} (h : d.Encodable) :
    ∀ e ∈ d.entries, e.Encodable := by
  have capabilities : (Entry.capabilities d.capabilities).Encodable := ⟨h.capabilities, h.each⟩
  have expiration : (Entry.expiration d.expiration).Encodable := True.intro
  simp only [Delegation.entries, List.forall_mem_cons]
  exact ⟨capabilities, h.audience, expiration, h.issuer, h.proofs, List.forall_mem_nil _⟩

/-- Entries of a delegation in any order, of which only those are missing that may be. -/
def CarriedBy (d : Delegation) (entries : List Entry) : Prop :=
  entries.Subperm d.entries ∧ ∀ e ∈ d.entries, e ∈ entries ∨ e.IsOptional

/-- A map of definite length that gives the entries of a delegation in any order and among
others. -/
def IsBlock (simple : Bytes → Prop) (block : Bytes) (d : Delegation) : Prop :=
  ∃ members, IsList .map
      (IsMember simple Entry.keys Entry.key (Entry.IsSpelt simple)) block members ∧
    d.CarriedBy (members.filterMap id)

theorem carriedBy_entries (d : Delegation) : d.CarriedBy d.entries :=
  ⟨.refl _, fun _ member => .inl member⟩

/-- What is written is one of the blocks that hold a delegation. -/
theorem isBlock_encode (simple : Bytes → Prop) {d : Delegation} (h : d.Encodable) :
    IsBlock simple d.encode d := by
  have each : ∀ e ∈ d.entries, IsMember simple Entry.keys Entry.key (Entry.IsSpelt simple)
      (writeText e.key ++ e.writeValue) (some e) := by
    intro e member
    exact .known (isText_writeText e.length_key_lt) e.key_mem
      (Entry.isSpelt_writeValue simple (h.entries e member))
  have fits : d.entries.length < Width.eight.bound := (by decide : 5 < Width.eight.bound)
  refine ⟨d.entries.map some, ?_, ?_⟩
  · rw [encode, writeMap, List.length_map, List.flatMap_map]
    exact isList_flatMap .map fits each
  · rw [List.filterMap_map]
    simpa using d.carriedBy_entries

end Delegation

end DelegatedAuthority
