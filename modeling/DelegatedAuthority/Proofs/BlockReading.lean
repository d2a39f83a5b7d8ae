import DelegatedAuthority.Proofs.BlockGrammar
import DelegatedAuthority.Proofs.Records
/-!
Reading follows the grammar of blocks: a delegation is read from every block that holds it.

Each part of a block spells what it stands for. Of the entries it does not matter where they are
found, for a delegation has one of each kind.
-/
namespace DelegatedAuthority

open Cbor

variable {α : Type} {part content : Bytes} {depth : Nat}

namespace Cbor

variable {major wanted : Major}

/-- A string of another major type in one piece is read like one that is wanted, if its head is
read at all. -/
theorem IsHead.readString_of_admits {n : Nat} {head : Bytes} (isHead : IsHead major n head)
    (admitted : wanted.admits major = true) (depth : Nat) (rest : Bytes) :
    readString wanted depth (head ++ rest) = Bytes.take? n rest := by
  have read : ∀ others, readChunks wanted others (head ++ rest) = Bytes.take? n rest := by
    intro others
    have first := isHead.spells_of_admits admitted rest
    obtain ⟨b, more, rfl, _, definite⟩ := isHead.cons
    rw [List.cons_append] at first ⊢
    rw [readChunks, if_neg (ne_streamByte definite wanted), readChunk, first]
    rfl
  cases depth with
  | zero => exact read _
  | succ depth => exact read _

theorem IsChunk.spells_of_admits (h : IsChunk major part content)
    (admitted : wanted.admits major = true) (depth : Nat) :
    Spells (readString wanted depth) part content := by
  obtain ⟨head, isHead, rfl⟩ := h
  intro rest
  rw [List.append_assoc, isHead.readString_of_admits admitted]
  exact spells_take content rest

theorem IsChunk.spells (h : IsChunk major part content) (depth : Nat) :
    Spells (readString major depth) part content :=
  h.spells_of_admits major.admits_self depth

theorem IsString.spells (h : IsString major part content) (pos : 0 < depth) :
    Spells (readString major depth) part content := by
  obtain ⟨below, rfl⟩ := Nat.exists_eq_succ_of_ne_zero (Nat.ne_zero_of_lt pos)
  cases h with
  | chunk isChunk => exact isChunk.spells (below + 1)
  | @stream parts contents chunks =>
    have proper : List.Forall₂ (SpellsProper (readString major below)) parts contents :=
      chunks.imp fun _ _ isChunk => ⟨isChunk.begins, isChunk.spells below⟩
    intro rest
    rw [List.cons_append, readString, readChunks, if_pos rfl, spells_stream proper rest]
    rfl

theorem IsString.cons (h : IsString major part content) :
    ∃ b others, part = b :: others ∧ Major.ofByte b = major := by
  cases h with
  | chunk isChunk =>
    obtain ⟨head, isHead, rfl⟩ := isChunk
    obtain ⟨b, others, rfl, own, _⟩ := isHead.cons
    exact ⟨b, _, rfl, own⟩
  | stream => exact ⟨_, _, rfl, ofByte_streamByte major⟩

theorem IsString.spells_own (h : IsString major part content) (pos : 0 < depth) :
    Spells (readOwnString major depth) part content := by
  intro rest
  have read := h.spells pos rest
  obtain ⟨b, others, rfl, own⟩ := h.cons
  rw [List.cons_append] at read ⊢
  rw [readOwnString, if_pos own, read]

theorem IsText.spells {text : String} (h : IsText part text) (pos : 0 < depth) :
    Spells (readText depth) part text := by
  intro rest
  simp [readText, IsString.spells h pos rest]

theorem foreignLevels_pos : 0 < foreignLevels := by
  decide

theorem IsMember.spells {names : List String} {key : α → String} {value : Bytes → α → Prop}
    {known : String → Option (NestedRead α)} {o : Option α} (enough : foreignLevels ≤ depth)
    (h : IsMember IsNamed names key value part o)
    (others : ∀ name, name ∉ names → known name = none)
    (each : ∀ back a, key a ∈ names → value back a →
      ∃ read, known (key a) = some read ∧ Spells (read depth) back a) :
    Spells (readEntry known depth) part o := by
  have pos : 0 < depth := Nat.lt_of_lt_of_le foreignLevels_pos enough
  intro rest
  cases h with
  | known isText own isValue =>
    obtain ⟨read, reader, spelt⟩ := each _ _ own isValue
    simp [readEntry, List.append_assoc, isText.spells pos _, reader, spelt rest]
  | unknown isText unknown levels item =>
    have passed := item.spells_skip (Nat.le_trans levels enough) rest
    simp [readEntry, List.append_assoc, isText.spells pos _, others _ unknown, passed]

theorem IsList.spells_array {element : Bytes → α → Prop} {read : NestedRead α} {list : List α}
    (h : IsList .array element part list)
    (each : ∀ part a, element part a → Spells (read depth) part a) :
    Spells (readArray read (depth + 1)) part list := by
  obtain ⟨head, parts, isHead, elements, rfl⟩ := h
  intro rest
  simp [readArray, List.append_assoc, isHead.spells _, Spells.many (elements.imp each) rest]

theorem IsList.spells_map {names : List String} {key : α → String} {value : Bytes → α → Prop}
    {known : String → Option (NestedRead α)} {members : List (Option α)} (enough : foreignLevels ≤ depth)
    (h : IsList .map (IsMember IsNamed names key value) part members)
    (others : ∀ name, name ∉ names → known name = none)
    (each : ∀ back a, key a ∈ names → value back a →
      ∃ read, known (key a) = some read ∧ Spells (read depth) back a) :
    Spells (readMap known (depth + 1)) part (members.filterMap id) := by
  obtain ⟨head, parts, isHead, elements, rfl⟩ := h
  have spelt := Spells.many (elements.imp fun _ _ isMember => isMember.spells enough others each)
  intro rest
  simp [readMap, List.append_assoc, isHead.spells _, spelt rest]

theorem spells_nullable_null (read : Read α) : Spells (readNullable read) [nullByte] none := by
  intro rest
  rw [List.singleton_append, readNullable, if_pos rfl]

theorem IsHead.spells_nullable {n : UInt64} (h : IsHead .unsigned n.toNat part) :
    Spells (readNullable readUnsigned) part (some n) := by
  intro rest
  have read := h.spells rest
  obtain ⟨b, others, rfl, own, _⟩ := h.cons
  have present : b ≠ nullByte := by
    rintro rfl
    cases own
  rw [List.cons_append] at read ⊢
  simp [readNullable, present, readUnsigned, read]

end Cbor

theorem Capability.IsSpelt.spells {c : Capability} (h : c.IsSpelt IsNamed part) :
    Spells (read (foreignLevels + 1)) part c := by
  obtain ⟨members, isList, same⟩ := h
  have others : ∀ name, name ∉ keys → fieldReader? name = none := by
    intro name unknown
    exact if_neg (by simpa [keys] using unknown)
  have each : ∀ back (field : String × String), field.1 ∈ keys → IsText back field.2 →
      ∃ read, fieldReader? field.1 = some read ∧ Spells (read foreignLevels) back field := by
    intro back field known isText
    refine ⟨_, if_pos (by simpa [keys] using known), ?_⟩
    intro rest
    simp [isText.spells foreignLevels_pos rest]
  have map := isList.spells_map (Nat.le_refl _) others each
  have ability : Fields.required? (members.filterMap id) "can" = some c.ability :=
    Fields.exactlyOne?_eq_some_iff.mpr (List.perm_singleton.mp (Fields.values_perm same "can"))
  have resource : Fields.required? (members.filterMap id) "with" = some c.resource :=
    Fields.exactlyOne?_eq_some_iff.mpr (List.perm_singleton.mp (Fields.values_perm same "with"))
  intro rest
  simp only [read, map rest, Option.bind_eq_bind, Option.bind_some, ability, resource,
    Option.pure_def]

theorem Cid.IsLink.spells {cid : Cid} (h : Cid.IsLink part cid) (depth : Nat) :
    Spells (readLink (depth + 1)) part cid := by
  obtain ⟨head, string, isHead, isString, rfl⟩ := h
  intro rest
  simp [readLink, List.append_assoc, isHead.spells _, isString.spells_own (Nat.succ_pos depth) rest,
    ofBytes?_toBytes]

namespace Delegation

namespace Entry

theorem spells_reading {α : Type} {entry : α → Entry} {read : NestedRead α} {depth : Nat}
    {value : Bytes} {a : α} (h : Spells (read depth) value a) :
    ∃ reader, reading entry read = some reader ∧ Spells (reader depth) value (entry a) := by
  refine ⟨_, rfl, ?_⟩
  intro rest
  simp [h rest]

theorem IsSpelt.spells {e : Entry} (h : IsSpelt IsNamed part e) :
    ∃ read, reader? e.key = some read ∧ Spells (read (foreignLevels + 2)) part e := by
  cases h with
  | issuer isText => exact spells_reading (isText.spells (Nat.succ_pos _))
  | audience isText => exact spells_reading (isText.spells (Nat.succ_pos _))
  | noExpiration => exact spells_reading (spells_nullable_null readUnsigned)
  | expiration isHead => exact spells_reading isHead.spells_nullable
  | capabilities isList =>
    exact spells_reading (isList.spells_array fun _ _ isSpelt => isSpelt.spells)
  | proofs isList =>
    exact spells_reading (isList.spells_array fun _ _ isLink => isLink.spells _)

theorem reader?_of_unknown {name : String} (h : name ∉ keys) :
    reader? name = none := by
  unfold reader?
  split <;> simp_all [keys]

end Entry

variable {d : Delegation} {block : Bytes} {entries : List Entry}

/-- Of what a delegation has one of, entries give that, or nothing if its entry may be missing. -/
theorem CarriedBy.filterMap (h : d.CarriedBy entries) {β : Type} {f : Entry → Option β} {e : Entry}
    {b : β} (only : d.entries.filterMap f = [b]) (own : f e = some b) (known : e ∈ d.entries) :
    entries.filterMap f = [b] ∨ entries.filterMap f = [] ∧ e.IsOptional := by
  obtain ⟨⟨kept, perm, fewer⟩, missing⟩ := h
  have atMost : (entries.filterMap f).Subperm [b] :=
    ⟨kept.filterMap f, perm.filterMap f, only ▸ fewer.filterMap f⟩
  rcases List.subperm_singleton_iff.mp atMost with none | one
  · rcases missing e known with here | optional
    · have found : b ∈ entries.filterMap f := List.mem_filterMap.mpr ⟨e, here, own⟩
      rw [none] at found
      cases found
    · exact .inr ⟨none, optional⟩
  · exact .inl one

theorem CarriedBy.exactlyOne (h : d.CarriedBy entries) {β : Type} {f : Entry → Option β} {e : Entry}
    {b : β} (only : d.entries.filterMap f = [b]) (own : f e = some b) (known : e ∈ d.entries)
    (needed : ¬e.IsOptional) : Fields.exactlyOne? (entries.filterMap f) = some b := by
  rcases h.filterMap only own known with one | ⟨_, optional⟩
  · rw [one]
    rfl
  · contradiction

theorem CarriedBy.atMostOne (h : d.CarriedBy entries) {β : Type} {f : Entry → Option β} {e : Entry}
    {b default : β} (only : d.entries.filterMap f = [b]) (own : f e = some b)
    (known : e ∈ d.entries) (omitted : e.IsOptional → b = default) :
    ∃ o, Fields.atMostOne? (entries.filterMap f) = some o ∧ o.getD default = b := by
  rcases h.filterMap only own known with one | ⟨none, optional⟩
  · exact ⟨some b, Fields.atMostOne?_eq_some_iff.mpr one, rfl⟩
  · exact ⟨.none, Fields.atMostOne?_eq_some_iff.mpr none, (omitted optional).symm⟩

theorem CarriedBy.ofEntries? (h : d.CarriedBy entries) : ofEntries? entries = some d := by
  have issuer : Fields.exactlyOne? (entries.filterMap Entry.issuer?) = some d.issuer :=
    h.exactlyOne (e := .issuer d.issuer) rfl rfl (by simp [Delegation.entries])
      (by simp [Entry.IsOptional])
  have audience : Fields.exactlyOne? (entries.filterMap Entry.audience?) = some d.audience :=
    h.exactlyOne (e := .audience d.audience) rfl rfl (by simp [Delegation.entries])
      (by simp [Entry.IsOptional])
  have expiration : ∃ o, Fields.atMostOne? (entries.filterMap Entry.expiration?) = some o ∧
      o.getD none = d.expiration :=
    h.atMostOne (e := .expiration d.expiration) rfl rfl (by simp [Delegation.entries])
      (by simp [Entry.IsOptional])
  have capabilities : ∃ o, Fields.atMostOne? (entries.filterMap Entry.capabilities?) = some o ∧
      o.getD [] = d.capabilities :=
    h.atMostOne (e := .capabilities d.capabilities) rfl rfl (by simp [Delegation.entries])
      (by simp [Entry.IsOptional])
  have proofs : ∃ o, Fields.atMostOne? (entries.filterMap Entry.proofs?) = some o ∧
      o.getD [] = d.proofs :=
    h.atMostOne (e := .proofs d.proofs) rfl rfl (by simp [Delegation.entries])
      (by simp [Entry.IsOptional])
  obtain ⟨last, isLast, eq⟩ := expiration
  obtain ⟨listed, areListed, eq'⟩ := capabilities
  obtain ⟨links, areLinks, eq''⟩ := proofs
  simp [Delegation.ofEntries?, issuer, audience, isLast, areListed, areLinks, eq, eq', eq'']

theorem decode_ok_iff {block : Bytes} {d : Delegation} :
    decode block = .ok d ↔ decode? block = some d := by
  unfold decode
  cases decode? block <;> simp

theorem IsBlock.decode (h : IsBlock IsNamed block d) : Delegation.decode block = .ok d := by
  obtain ⟨members, isList, carried⟩ := h
  have read := isList.spells_map (Nat.le_add_right foreignLevels 2)
    (fun _ => Entry.reader?_of_unknown) (fun _ _ _ isSpelt => isSpelt.spells) []
  have limit : nestingLimit = foreignLevels + 3 := rfl
  rw [List.append_nil] at read
  rw [decode_ok_iff, decode?, limit, read]
  exact carried.ofEntries?

/-- A delegation is read from every map of definite length that gives its entries, in whatever order
and among whatever others, and with heads of any width. What it is written to is one of these. -/
theorem decode_every_block (d : Delegation) (h : d.Encodable) :
    IsBlock IsNamed d.encode d ∧
      ∀ block, IsBlock IsNamed block d → decode block = .ok d := by
  constructor
  · exact isBlock_encode IsNamed h
  · intro block isBlock
    exact isBlock.decode

theorem isText_short {text : String} (h : text.utf8ByteSize < 24) : IsText (writeText text) text :=
  isText_writeText (Nat.lt_trans h (by decide))

/-- A delegation of all abilities. -/
def pass : Delegation where
  issuer := "a"
  audience := "b"
  capabilities := [⟨"*", "r"⟩]

/-- A map with its key behind the other one. -/
def passList : Bytes :=
  writeHead .array 1 ++ [writeHead .map 2 ++
    [writeText "with" ++ writeText "r", writeText "can" ++ writeText "*"].flatten].flatten

/-- One unknown key twice, with a stream and a floating-point number, no expiration and no proofs,
and heads that are wider than they need to be. -/
def passBlock : Bytes :=
  writeHeadIn .two .map 5 ++ [
    writeText "x" ++ (streamByte .array :: ([writeHead .negative 0].flatten ++ [stopByte])),
    writeText "aud" ++ (writeHeadIn .four .text 1 ++ Bytes.ofText "b"),
    writeText "x" ++ writeHeadIn .two .simple 7,
    writeText "att" ++ passList,
    writeText "iss" ++ writeText "a"].flatten

theorem passList_isList (simple : Bytes → Prop) :
    IsList .array (Capability.IsSpelt simple) passList pass.capabilities := by
  refine ⟨_, _, isHead_writeHead .array (by decide), .cons ?_ .nil, rfl⟩
  refine ⟨[some ("with", "r"), some ("can", "*")], ⟨_, _, isHead_writeHead .map (by decide),
    .cons ?_ (.cons ?_ .nil), rfl⟩, List.Perm.swap ..⟩
  · exact .known (isText_short (by decide)) (by simp [Capability.keys]) (isText_short (by decide))
  · exact .known (isText_short (by decide)) (by simp [Capability.keys]) (isText_short (by decide))

theorem passBlock_decode : pass.Encodable ∧ IsBlock IsNamed passBlock pass ∧
    decode passBlock = .ok pass := by
  have encodable : pass.Encodable := by
    refine ⟨by decide, by decide, by decide, ?_, by decide⟩
    exact List.forall_mem_singleton.mpr ⟨by decide, by decide⟩
  have isBlock : IsBlock IsNamed passBlock pass := by
    refine ⟨[none, some (.audience "b"), none, some (.capabilities pass.capabilities),
      some (.issuer "a")], ⟨_, _, ⟨.two, by decide, rfl⟩,
      .cons ?_ (.cons ?_ (.cons ?_ (.cons ?_ (.cons ?_ .nil)))), rfl⟩, ?_, ?_⟩
    · refine .unknown (isText_short (by decide)) (by decide) (by decide : 2 ≤ foreignLevels)
        (.arrayStream (List.forall_mem_singleton.mpr ?_))
      exact .integer (.inr rfl) (isHead_writeHead .negative (by decide))
    · exact .known (isText_short (by decide)) (Entry.key_mem _)
        (.audience (.chunk ⟨_, ⟨.four, by decide, rfl⟩, rfl⟩))
    · exact .unknown (isText_short (by decide)) (by decide) (by decide : 1 ≤ foreignLevels)
        (.simple ⟨.two, 7, by decide, nofun, by decide, rfl⟩)
    · exact .known (isText_short (by decide)) (Entry.key_mem _)
        (.capabilities (passList_isList IsNamed))
    · exact .known (isText_short (by decide)) (Entry.key_mem _)
        (.issuer (isText_short (by decide)))
    · exact List.subperm_of_subset (by decide) (by simp [Delegation.entries, pass])
    · simp [Delegation.entries, pass, Entry.IsOptional]
  exact ⟨encodable, isBlock, (decode_every_block pass encodable).2 passBlock isBlock⟩

/-- A delegation of nothing. -/
def slip : Delegation where
  issuer := "a"
  audience := "b"

/-- An unknown entry with the simple value 0, which has no name. -/
def unnamedBlock : Bytes :=
  writeHead .map 3 ++ [writeText "iss" ++ writeText "a", writeText "aud" ++ writeText "b",
    writeText "zzz" ++ writeHeadIn .inline .simple 0].flatten

/-- Not every simple value is passed over. -/
theorem unnamed_not_read :
    ¬∀ (d : Delegation) (block : Bytes), d.Encodable → IsBlock IsSimple block d →
      decode block = .ok d := by
  intro all
  have isBlock : IsBlock IsSimple unnamedBlock slip := by
    refine ⟨[some (.issuer "a"), some (.audience "b"), none], ⟨writeHead .map 3, _,
      isHead_writeHead .map (by decide), ?_, rfl⟩, ?_⟩
    · refine .cons ?_ (.cons ?_ (.cons ?_ .nil))
      · exact .known (isText_short (by decide)) (Entry.key_mem _)
          (.issuer (isText_short (by decide)))
      · exact .known (isText_short (by decide)) (Entry.key_mem _)
          (.audience (isText_short (by decide)))
      · exact .unknown (isText_short (by decide)) (by decide) (by decide : 1 ≤ foreignLevels)
          (.simple ⟨.inline, 0, by decide, nofun, rfl⟩)
    · refine ⟨List.subperm_of_subset (by decide) (by simp [Delegation.entries, slip]), ?_⟩
      simp [Delegation.entries, slip, Entry.IsOptional]
  have encodable : slip.Encodable :=
    ⟨by decide, by decide, by decide, List.forall_mem_nil _, by decide⟩
  have read := all slip unnamedBlock encodable isBlock
  have refused : decode unnamedBlock = .error .undecodable := by decide +kernel
  rw [refused] at read
  cases read

end Delegation

end DelegatedAuthority
