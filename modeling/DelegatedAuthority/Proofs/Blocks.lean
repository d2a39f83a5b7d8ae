import DelegatedAuthority.Proofs.BlockReading
import DelegatedAuthority.Proofs.Readings
/-!
Blocks: writing a delegation is undone by reading, and what was read from a block, however that
was written, can be written again.

What is written is one of the blocks that hold a delegation, and for each part of a delegation there
is a lemma that whatever is read is no larger than the bytes it was read from.
-/
namespace DelegatedAuthority

open Cbor

namespace Capability

def fieldSize (field : String × String) : Nat :=
  field.2.utf8ByteSize + 1

/-- The length of the longer text, and one. -/
def size (c : Capability) : Nat :=
  max c.ability.utf8ByteSize c.resource.utf8ByteSize + 1

theorem takes_field {key : String} {read : NestedRead (String × String)} (depth : Nat)
    (known : fieldReader? key = some read) : Takes fieldSize (read depth) := by
  rw [fieldReader?] at known
  split at known
  · cases known
    exact Takes.bind (takes_text depth) fun text => Takes.pure (Nat.sub_self _)
  · cases known

theorem takes_read (depth : Nat) : Takes size (read depth) := by
  refine Takes.bind (takes_map (fun _ _ depth known => takes_field depth known) depth) ?_
  intro fields
  dsimp only
  cases ability : Fields.required? fields "can" with
  | none => exact Takes.nothing
  | some can =>
    cases resource : Fields.required? fields "with" with
    | none => exact Takes.nothing
    | some whole =>
      apply Takes.pure
      have le : fieldSize ("can", can) ≤ (fields.map fieldSize).sum :=
        size_le_sum (Fields.mem_of_required? ability)
      have le' : fieldSize ("with", whole) ≤ (fields.map fieldSize).sum :=
        size_le_sum (Fields.mem_of_required? resource)
      dsimp only [size, fieldSize] at le le' ⊢
      omega

end Capability

namespace Cid

theorem takes_link (depth : Nat) : Takes (fun _ => 1) (readLink depth) := by
  refine Takes.bind (takes_head .tag) fun tag => ?_
  by_cases known : tag = linkTag
  · simp only [if_pos known]
    refine Takes.bind (takes_ownString .bytes depth) fun content => ?_
    dsimp only
    split
    · exact Takes.lift fun _ _ => (by simp)
    · exact Takes.nothing
  · simp only [if_neg known]
    exact Takes.nothing

end Cid

namespace Delegation

namespace Entry

/-- As many bytes as the texts and lists in an entry are long, and one. -/
def size : Entry → Nat
  | issuer principal => principal.utf8ByteSize + 1
  | audience principal => principal.utf8ByteSize + 1
  | expiration _ => 1
  | capabilities list => (list.map Capability.size).sum + 1
  | proofs list => list.length + 1

theorem takes_reading {α : Type} {size' : α → Nat} {entry : α → Entry} {read : NestedRead α}
    {depth : Nat} (h : Takes size' (read depth)) (le : ∀ a, (entry a).size ≤ size' a)
    {reader : NestedRead Entry} (eq : reading entry read = some reader) :
    Takes size (reader depth) := by
  cases eq
  exact Takes.bind h fun a => Takes.pure (Nat.sub_eq_zero_of_le (le a))

theorem takes_reader {key : String} {read : NestedRead Entry} (depth : Nat)
    (known : reader? key = some read) : Takes size (read depth) := by
  unfold reader? at known
  split at known
  · exact takes_reading (takes_text depth) (fun _ => Nat.le_refl _) known
  · exact takes_reading (takes_text depth) (fun _ => Nat.le_refl _) known
  · exact takes_reading (takes_nullable takes_unsigned) (fun _ => Nat.le_refl _) known
  · exact takes_reading (takes_array Capability.takes_read depth) (fun _ => Nat.le_refl _) known
  · exact takes_reading (takes_array Cid.takes_link depth) (by simp [size]) known
  · cases known

theorem encodable_of_size_lt {e : Entry} (h : e.size < Width.eight.bound) : e.Encodable := by
  cases e with
  | issuer principal => exact Nat.lt_of_succ_lt h
  | audience principal => exact Nat.lt_of_succ_lt h
  | expiration last => exact True.intro
  | capabilities list =>
    have total : (list.map Capability.size).sum < Width.eight.bound := Nat.lt_of_succ_lt h
    have fewer : list.length ≤ (list.map Capability.size).sum :=
      length_le_sum (fun _ => Nat.succ_pos _) list
    refine ⟨Nat.lt_of_le_of_lt fewer total, ?_⟩
    intro c member
    have le : c.size ≤ (list.map Capability.size).sum := size_le_sum member
    rw [Capability.size] at le
    constructor <;> omega
  | proofs list => exact Nat.lt_of_succ_lt h

end Entry

/-- Entries that give a delegation: one of its issuer and one of its audience, and of the rest what
there is. -/
theorem lists_of_ofEntries? {entries : List Entry} {d : Delegation}
    (h : ofEntries? entries = some d) :
    entries.filterMap Entry.issuer? = [d.issuer] ∧ entries.filterMap Entry.audience? = [d.audience] ∧
      ∃ expiration capabilities proofs, entries.filterMap Entry.expiration? = Option.toList expiration ∧
        entries.filterMap Entry.capabilities? = Option.toList capabilities ∧
        entries.filterMap Entry.proofs? = Option.toList proofs ∧
        d.capabilities = capabilities.getD [] ∧ d.proofs = proofs.getD [] := by
  simp only [ofEntries?, Option.bind_eq_bind, Option.bind_eq_some_iff,
    Fields.exactlyOne?_eq_some_iff, Fields.atMostOne?_eq_some_iff] at h
  obtain ⟨issuer, issuers, audience, audiences, expiration, expirations, capabilities, lists, proofs,
    links, eq⟩ := h
  cases eq
  exact ⟨issuers, audiences, expiration, capabilities, proofs, expirations, lists, links, rfl, rfl⟩

theorem mem_of_ofEntries? {entries : List Entry} {d : Delegation}
    (h : ofEntries? entries = some d) : .issuer d.issuer ∈ entries ∧
      .audience d.audience ∈ entries ∧
      (d.capabilities = [] ∨ .capabilities d.capabilities ∈ entries) ∧
      (d.proofs = [] ∨ .proofs d.proofs ∈ entries) := by
  obtain ⟨issuers, audiences, _, capabilities, proofs, _, lists, links, listed, linked⟩ :=
    lists_of_ofEntries? h
  have issued : d.issuer ∈ entries.filterMap Entry.issuer? := by simp [issuers]
  have addressed : d.audience ∈ entries.filterMap Entry.audience? := by simp [audiences]
  refine ⟨by simpa [List.mem_filterMap] using issued,
    by simpa [List.mem_filterMap] using addressed, ?_, ?_⟩
  · cases capabilities with
    | none => exact .inl listed
    | some list =>
      have given : list ∈ entries.filterMap Entry.capabilities? := by simp [lists]
      right
      rw [listed]
      simpa [List.mem_filterMap] using given
  · cases proofs with
    | none => exact .inl linked
    | some list =>
      have given : list ∈ entries.filterMap Entry.proofs? := by simp [links]
      right
      rw [linked]
      simpa [List.mem_filterMap] using given

/-- A block that holds a delegation is a map and nothing more. -/
theorem entries_of_decode {block : Bytes} {d : Delegation} (h : decode block = .ok d) :
    ∃ entries, readMap Entry.reader? nestingLimit block = some (entries, []) ∧
      ofEntries? entries = some d := by
  obtain ⟨⟨entries, rest⟩, map, eq⟩ := Option.bind_eq_some_iff.mp (decode_ok_iff.mp h)
  cases rest with
  | nil => exact ⟨entries, map, eq⟩
  | cons b rest => cases eq

theorem decode_encode {d : Delegation} (h : d.Encodable) : decode d.encode = .ok d :=
  (isBlock_encode IsNamed h).decode

/-- Nothing in a delegation is longer than the block that holds it. -/
theorem encodable_of_decode {block : Bytes} {d : Delegation} (h : decode block = .ok d)
    (fits : block.length < Width.eight.bound) : d.Encodable := by
  obtain ⟨entries, map, eq⟩ := entries_of_decode h
  have taken := (takes_map (fun _ _ depth known => Entry.takes_reader depth known)
    nestingLimit).length_le map
  have each : ∀ e ∈ entries, e.Encodable := by
    intro e member
    have le : e.size ≤ (entries.map Entry.size).sum := size_le_sum member
    apply Entry.encodable_of_size_lt
    omega
  obtain ⟨issuer, audience, capabilities, proofs⟩ := mem_of_ofEntries? eq
  have listed : (Entry.capabilities d.capabilities).Encodable := by
    rcases capabilities with empty | given
    · rw [empty]
      exact ⟨by decide, List.forall_mem_nil _⟩
    · exact each _ given
  refine ⟨each _ issuer, each _ audience, listed.1, listed.2, ?_⟩
  rcases proofs with empty | given
  · rw [empty]
    decide
  · exact each _ given

/-- Writing a delegation is undone by reading, so that no two are written alike. What is read
from a block that heads can measure, however it was written, can be written again, and reads as
the same delegation then. -/
theorem encode_canonical : (∀ d, Encodable d → decode d.encode = .ok d) ∧
    (∀ d d', Encodable d → Encodable d' → d.encode = d'.encode → d = d') ∧
    ∀ block d, block.length < Width.eight.bound → decode block = .ok d →
      d.Encodable ∧ decode d.encode = .ok d := by
  refine ⟨fun d h => decode_encode h, ?_, ?_⟩
  · intro d d' h h' same
    have read := decode_encode h
    rw [same, decode_encode h'] at read
    cases read
    rfl
  · intro block d fits read
    have h := encodable_of_decode read fits
    exact ⟨h, decode_encode h⟩

/-- A delegation with proofs of both versions, and the last expiration there is. -/
def charter : Delegation where
  issuer := "did:key:zOwner"
  audience := "did:key:zДом"
  expiration := some 0xffffffffffffffff
  capabilities := [⟨"*", "did:key:zSpace"⟩, ⟨"tlog/append", ""⟩]
  proofs := [.v0 (List.replicate 32 7) rfl,
    .v1 0xffffffffffffffff ⟨0, [1, 2, 3], Nat.le_add_left 3 61⟩]

/-- Three entries, one of them unknown, with heads that are wider than they need to be. -/
def looseBlock : Bytes :=
  [0xb9, 0x00, 0x03, 0x63, 0x69, 0x73, 0x73, 0x61, 0x61, 0x61, 0x78, 0x81, 0x01,
    0x78, 0x03, 0x61, 0x75, 0x64, 0x61, 0x62]

theorem charter_canonical : charter.Encodable ∧ decode charter.encode = .ok charter ∧
    (∀ d, d.Encodable → charter.encode = d.encode → charter = d) ∧
    decode looseBlock = .ok slip ∧ slip.encode ≠ looseBlock ∧ decode slip.encode = .ok slip := by
  obtain ⟨reads, injective, canonical⟩ := encode_canonical
  have fits : charter.Encodable := by
    refine ⟨by decide, by decide, by decide, ?_, by decide⟩
    simp only [charter, List.forall_mem_cons]
    exact ⟨⟨by decide, by decide⟩, ⟨by decide, by decide⟩, List.forall_mem_nil _⟩
  have read : decode looseBlock = .ok slip := by decide +kernel
  have other : slip.encode ≠ looseBlock := by decide +kernel
  exact ⟨fits, reads charter fits, fun d h => injective charter d fits h, read, other,
    (canonical looseBlock slip (by decide) read).2⟩

end Delegation

end DelegatedAuthority
