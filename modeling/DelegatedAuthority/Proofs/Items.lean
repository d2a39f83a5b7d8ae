import DelegatedAuthority.Proofs.Spellings
/-!
Well-formed items, and how they are passed over.

A head may stand in any width that holds its argument, a string may be cut into chunks, and lists
and maps may be streams up to a stop byte. Which simple values there are is left open: some have a
name, and all others are of no known use.
-/
namespace DelegatedAuthority

open Cbor

variable {α β : Type} {read : Read α} {parts : List Bytes} {list : List α} {major wanted : Major}
  {n : Nat} {head content rest part : Bytes} {depth levels : Nat}

namespace Cbor

/-- A head in any width that holds its argument. -/
def IsHead (major : Major) (n : Nat) (head : Bytes) : Prop :=
  ∃ width : Width, n < width.bound ∧ head = writeHeadIn width major n

/-- A string in one piece. -/
def IsChunk (major : Major) (part content : Bytes) : Prop :=
  ∃ head, IsHead major content.length head ∧ part = head ++ content

/-- A simple value or a floating-point number. The values below 32 have one spelling only. -/
def IsSimple (part : Bytes) : Prop :=
  ∃ (width : Width) (n : Nat), n < width.bound ∧ (width = .one → 32 ≤ n) ∧
    part = writeHeadIn width .simple n

/-- A truth value, null, undefined or a floating-point number. -/
def IsNamed (part : Bytes) : Prop :=
  ∃ (width : Width) (n : Nat), n < width.bound ∧ (width = .inline → 20 ≤ n) ∧ width ≠ .one ∧
    part = writeHeadIn width .simple n

/-- A well-formed item that nests at most so many levels, its leaves included, with the simple
values that there may be. -/
inductive Item (simple : Bytes → Prop) : Nat → Bytes → Prop
  | integer {major : Major} {n levels : Nat} {head : Bytes} : major = .unsigned ∨ major = .negative →
      IsHead major n head → Item simple (levels + 1) head
  | string {major : Major} {levels : Nat} {part content : Bytes} : major = .bytes ∨ major = .text →
      IsChunk major part content → Item simple (levels + 1) part
  | stringStream {major : Major} {levels : Nat} {parts : List Bytes} :
      major = .bytes ∨ major = .text → (∀ part ∈ parts, ∃ content, IsChunk major part content) →
      Item simple (levels + 2) (streamByte major :: (parts.flatten ++ [stopByte]))
  | array {levels : Nat} {head : Bytes} {items : List Bytes} : IsHead .array items.length head →
      (∀ item ∈ items, Item simple levels item) → Item simple (levels + 1) (head ++ items.flatten)
  | arrayStream {levels : Nat} {items : List Bytes} : (∀ item ∈ items, Item simple levels item) →
      Item simple (levels + 1) (streamByte .array :: (items.flatten ++ [stopByte]))
  | map {levels : Nat} {head : Bytes} {pairs : List (Bytes × Bytes)} :
      IsHead .map pairs.length head → (∀ pair ∈ pairs, Item simple levels pair.1) →
      (∀ pair ∈ pairs, Item simple levels pair.2) →
      Item simple (levels + 1) (head ++ pairs.flatMap fun pair => pair.1 ++ pair.2)
  | mapStream {levels : Nat} {pairs : List (Bytes × Bytes)} :
      (∀ pair ∈ pairs, Item simple levels pair.1) → (∀ pair ∈ pairs, Item simple levels pair.2) →
      Item simple (levels + 1)
        (streamByte .map :: ((pairs.flatMap fun pair => pair.1 ++ pair.2) ++ [stopByte]))
  | tag {n levels : Nat} {head item : Bytes} : IsHead .tag n head → Item simple levels item →
      Item simple (levels + 1) (head ++ item)
  | simple {levels : Nat} {part : Bytes} : simple part → Item simple (levels + 1) part

theorem IsHead.spells (h : IsHead major n head) : Spells (readHead major) head n := by
  obtain ⟨width, fits, rfl⟩ := h
  exact readHead_writeHeadIn width major n fits

/-- A head spells its argument wherever its major type is admitted. -/
theorem IsHead.spells_of_admits (h : IsHead major n head) (admitted : wanted.admits major = true) :
    Spells (readHead wanted) head n := by
  intro rest
  have own := h.spells rest
  obtain ⟨width, fits, rfl⟩ := h
  rw [writeHeadIn, List.cons_append, readHead, ofByte_firstByte fits] at own ⊢
  rw [admitted]
  rwa [Major.admits_self] at own

theorem readHead_stream (wanted major : Major) (rest : Bytes) :
    readHead wanted (streamByte major :: rest) = none := by
  rw [readHead, streamByte_mod]
  simp [Width.ofLowBits?]

theorem IsHead.cons (h : IsHead major n head) :
    ∃ b others, head = b :: others ∧ Major.ofByte b = major ∧ b.toNat % 32 < 28 := by
  obtain ⟨width, fits, rfl⟩ := h
  have low_lt := Width.lowBits_lt fits
  refine ⟨_, _, rfl, ofByte_firstByte fits major, ?_⟩
  rw [toNat_firstByte fits]
  omega

theorem ne_streamByte {b : UInt8} (h : b.toNat % 32 < 28) (major : Major) :
    b ≠ streamByte major := by
  rintro rfl
  rw [streamByte_mod] at h
  contradiction

theorem ofByte_streamByte (major : Major) : Major.ofByte (streamByte major) = major := by
  cases major <;> rfl

/-- Bytes that do not begin with a stop. -/
def Begins (part : Bytes) : Prop :=
  ∃ b others, part = b :: others ∧ b ≠ stopByte

theorem Begins.append (h : Begins part) (rest : Bytes) : Begins (part ++ rest) := by
  obtain ⟨b, others, rfl, proper⟩ := h
  exact ⟨b, others ++ rest, rfl, proper⟩

theorem IsHead.begins (h : IsHead major n head) : Begins head := by
  obtain ⟨b, others, rfl, _, definite⟩ := h.cons
  refine ⟨b, others, rfl, ?_⟩
  rintro rfl
  contradiction

theorem IsChunk.begins (h : IsChunk major part content) : Begins part := by
  obtain ⟨head, isHead, rfl⟩ := h
  exact isHead.begins.append content

theorem begins_stream (known : major ≠ .simple) (rest : Bytes) :
    Begins (streamByte major :: rest) :=
  ⟨_, rest, rfl, by cases major <;> first | contradiction | decide⟩

theorem IsNamed.begins (h : IsNamed part) : Begins part := by
  obtain ⟨width, n, fits, _, _, rfl⟩ := h
  exact IsHead.begins ⟨width, fits, rfl⟩

theorem IsSimple.begins (h : IsSimple part) : Begins part := by
  obtain ⟨width, n, fits, _, rfl⟩ := h
  exact IsHead.begins ⟨width, fits, rfl⟩

theorem Item.begins {simple : Bytes → Prop} (h : Item simple levels part)
    (leaf : ∀ {part}, simple part → Begins part) : Begins part := by
  cases h with
  | integer _ isHead => exact isHead.begins
  | string _ isChunk => exact isChunk.begins
  | stringStream isString _ => exact begins_stream (by rcases isString with rfl | rfl <;> decide) _
  | array isHead _ => exact isHead.begins.append _
  | arrayStream _ => exact begins_stream (by decide) _
  | map isHead _ _ => exact isHead.begins.append _
  | mapStream _ _ => exact begins_stream (by decide) _
  | tag isHead _ => exact isHead.begins.append _
  | simple isSimple => exact leaf isSimple

/-- A reader takes exactly these bytes, and would not take a stop for them. -/
def SpellsProper (read : Read α) (part : Bytes) (a : α) : Prop :=
  Begins part ∧ Spells read part a

theorem length_lt_of_proper (spelt : List.Forall₂ (SpellsProper read) parts list) (rest : Bytes) :
    list.length < (parts.flatten ++ stopByte :: rest).length := by
  induction spelt with
  | nil => exact Nat.succ_pos _
  | cons first _ ih =>
    obtain ⟨⟨b, more, rfl, _⟩, _⟩ := first
    simp only [List.flatten_cons, List.length_append, List.length_cons] at ih ⊢
    omega

theorem readUntilStop_of_begins (h : Begins part) (read : Read α) (limit : Nat) (rest : Bytes) :
    readUntilStop read (limit + 1) (part ++ rest) = (do
      let (first, bytes) ← read (part ++ rest)
      let (others, bytes) ← readUntilStop read limit bytes
      return (first :: others, bytes)) := by
  obtain ⟨b, more, rfl, proper⟩ := h
  rw [List.cons_append, readUntilStop, if_neg proper]

theorem spells_untilStop (spelt : List.Forall₂ (SpellsProper read) parts list) {limit : Nat}
    (room : list.length < limit) :
    Spells (readUntilStop read limit) (parts.flatten ++ [stopByte]) list := by
  induction spelt generalizing limit with
  | nil =>
    intro rest
    obtain ⟨limit, rfl⟩ := Nat.exists_eq_add_of_lt room
    rfl
  | @cons part a parts list first _ ih =>
    intro rest
    cases limit with
    | zero => contradiction
    | succ limit =>
      have read := first.2 (parts.flatten ++ [stopByte] ++ rest)
      have after := ih (Nat.lt_of_succ_lt_succ room) rest
      rw [List.flatten_cons, List.append_assoc, List.append_assoc, readUntilStop_of_begins first.1,
        ← List.append_assoc parts.flatten, read]
      simp only [Option.bind_eq_bind, Option.bind_some, after, Option.pure_def]

/-- Parts up to a stop byte spell a list. -/
theorem spells_stream (spelt : List.Forall₂ (SpellsProper read) parts list) :
    Spells (readStream read) (parts.flatten ++ [stopByte]) list := by
  intro rest
  have room := length_lt_of_proper spelt rest
  have read := spells_untilStop spelt room rest
  rw [List.append_assoc, List.singleton_append] at read ⊢
  exact read

/-- Passes over what is behind a head. -/
def skipBehind (depth : Nat) (major : Major) (n : Nat) : Read Unit :=
  match major with
  | .bytes | .text => discard (Bytes.take? n)
  | .array => discard (readMany (skip depth) n)
  | .map => discard (readMany (readPair (skip depth) (skip depth)) n)
  | .tag => skip depth
  | _ => fun bytes => some ((), bytes)

theorem skip_head (isHead : IsHead major n head) (proper : major ≠ .simple) (depth : Nat)
    (rest : Bytes) : skip (depth + 1) (head ++ rest) = skipBehind depth major n rest := by
  have first := isHead.spells rest
  obtain ⟨b, others, rfl, own, definite⟩ := isHead.cons
  rw [List.cons_append] at first ⊢
  simp only [skip, own, ne_streamByte definite, if_false, proper, first, Option.bind_eq_bind,
    Option.bind_some]
  cases major <;> rfl

theorem spells_skip_head (isHead : IsHead major n head) (proper : major ≠ .simple)
    (behind : Spells (skipBehind depth major n) content ()) :
    Spells (skip (depth + 1)) (head ++ content) () := by
  intro rest
  rw [List.append_assoc, skip_head isHead proper]
  exact behind rest

theorem spells_take (content : Bytes) :
    Spells (Bytes.take? content.length) content content :=
  Bytes.take?_append content

theorem spells_skip_chunk (isString : major = .bytes ∨ major = .text)
    (isChunk : IsChunk major part content) (depth : Nat) : Spells (skip (depth + 1)) part () := by
  obtain ⟨head, isHead, rfl⟩ := isChunk
  rcases isString with rfl | rfl
  · exact spells_skip_head isHead (by decide) (spells_take content).discard
  · exact spells_skip_head isHead (by decide) (spells_take content).discard

theorem forall₂_replicate {R : β → α → Prop} {a : α} {bs : List β} (each : ∀ b ∈ bs, R b a) :
    List.Forall₂ R bs (List.replicate bs.length a) := by
  induction bs with
  | nil => exact .nil
  | cons b bs ih =>
    obtain ⟨first, others⟩ := List.forall_mem_cons.mp each
    exact .cons first (ih others)

theorem skip_stream (isList : major = .bytes ∨ major = .text ∨ major = .array) (depth : Nat)
    (rest : Bytes) :
    skip (depth + 1) (streamByte major :: rest) = discard (readStream (skip depth)) rest := by
  rw [skip, ofByte_streamByte, if_pos rfl]
  rcases isList with rfl | rfl | rfl <;> rfl

theorem skip_mapStream (depth : Nat) (rest : Bytes) : skip (depth + 1) (streamByte .map :: rest) =
    discard (readStream (readPair (skip depth) (skip depth))) rest := by
  rw [skip, ofByte_streamByte, if_pos rfl]

theorem spells_skip_stream (isList : major = .bytes ∨ major = .text ∨ major = .array)
    (each : ∀ part ∈ parts, SpellsProper (skip depth) part ()) :
    Spells (skip (depth + 1)) (streamByte major :: (parts.flatten ++ [stopByte])) () := by
  intro rest
  rw [List.cons_append, skip_stream isList]
  exact (spells_stream (forall₂_replicate each)).discard rest

theorem simpleSize?_inline (enough : 20 ≤ n) (fits : n < 24) :
    simpleSize? (UInt8.ofNat (32 * Major.simple.code + n)) = some 0 := by
  have all : ∀ n < 24, 20 ≤ n → simpleSize? (UInt8.ofNat (32 * Major.simple.code + n)) = some 0 := by
    decide
  exact all n fits enough

theorem simpleSize?_unnamed (few : n < 20) :
    simpleSize? (UInt8.ofNat (32 * Major.simple.code + n)) = none := by
  have all : ∀ n < 20, simpleSize? (UInt8.ofNat (32 * Major.simple.code + n)) = none := by decide
  exact all n few

theorem skip_simple {width : Width} (fits : n < width.bound) (depth : Nat) (rest : Bytes) :
    skip (depth + 1) (writeHeadIn width .simple n ++ rest) = (do
      let size ← simpleSize? (UInt8.ofNat (32 * Major.simple.code + width.lowBits n))
      discard (Bytes.take? size) (Bytes.ofNat width.size n ++ rest)) := by
  have definite : (UInt8.ofNat (32 * Major.simple.code + width.lowBits n)).toNat % 32 < 28 := by
    have low_lt := Width.lowBits_lt fits
    rw [toNat_firstByte fits]
    omega
  rw [writeHeadIn, List.cons_append, skip]
  simp only [ofByte_firstByte fits, ne_streamByte definite, if_false, if_true]

theorem spells_skip_named (isNamed : IsNamed part) (depth : Nat) :
    Spells (skip (depth + 1)) part () := by
  obtain ⟨width, n, fits, named, proper, rfl⟩ := isNamed
  have known : simpleSize? (UInt8.ofNat (32 * Major.simple.code + width.lowBits n)) =
      some (Bytes.ofNat width.size n).length := by
    rw [Bytes.length_ofNat]
    cases width with
    | inline => exact simpleSize?_inline (named rfl) fits
    | one => contradiction
    | _ => rfl
  intro rest
  simp only [skip_simple fits, known, Option.bind_eq_bind, Option.bind_some]
  exact (spells_take _).discard rest

/-- An item is passed over at its own level and above. -/
theorem Item.spells_skip_add (h : Item IsNamed levels part) (above : Nat) :
    Spells (skip (above + levels)) part () := by
  -- the levels are added on the right, so that each case takes one of them off
  induction h with
  | @integer major n levels head isInteger isHead =>
    have behind : Spells (skipBehind (above + levels) major n) [] () := by
      intro rest
      rcases isInteger with rfl | rfl <;> rfl
    rw [← List.append_nil head]
    exact spells_skip_head isHead (by rcases isInteger with rfl | rfl <;> decide) behind
  | string isString isChunk => exact spells_skip_chunk isString isChunk _
  | @stringStream major _ parts isString chunks =>
    have isList : major = .bytes ∨ major = .text ∨ major = .array := by tauto
    refine spells_skip_stream isList fun part member => ?_
    obtain ⟨content, isChunk⟩ := chunks part member
    exact ⟨isChunk.begins, spells_skip_chunk isString isChunk _⟩
  | array isHead _ ih =>
    have items := Spells.many (forall₂_replicate ih)
    rw [List.length_replicate] at items
    exact spells_skip_head isHead (by decide) items.discard
  | arrayStream items ih =>
    exact spells_skip_stream (.inr (.inr rfl)) fun item member =>
      ⟨(items item member).begins IsNamed.begins, ih item member⟩
  | map isHead _ _ ih ih' =>
    have pairs := Spells.many (forall₂_replicate (List.forall_mem_map.mpr fun pair member =>
      (ih pair member).append (ih' pair member)))
    rw [List.length_replicate, List.length_map, ← List.flatMap_def] at pairs
    exact spells_skip_head isHead (by decide) pairs.discard
  | @mapStream levels pairs keys _ ih ih' =>
    have proper : ∀ part ∈ pairs.map fun pair => pair.1 ++ pair.2,
        SpellsProper (readPair (skip (above + levels)) (skip (above + levels))) part ((), ()) := by
      refine List.forall_mem_map.mpr fun pair member => ?_
      exact ⟨((keys pair member).begins IsNamed.begins).append pair.2,
        (ih pair member).append (ih' pair member)⟩
    intro rest
    rw [List.flatMap_def, List.cons_append, ← Nat.add_assoc, skip_mapStream]
    exact (spells_stream (forall₂_replicate proper)).discard rest
  | tag isHead _ ih => exact spells_skip_head isHead (by decide) ih
  | simple isNamed => exact spells_skip_named isNamed _

/-- An item is passed over, whatever is behind it, where it does not nest too deep. -/
theorem Item.spells_skip (h : Item IsNamed levels part) (enough : levels ≤ depth) :
    Spells (skip depth) part () := by
  obtain ⟨above, rfl⟩ := Nat.exists_eq_add_of_le' enough
  exact h.spells_skip_add above

end Cbor

end DelegatedAuthority
