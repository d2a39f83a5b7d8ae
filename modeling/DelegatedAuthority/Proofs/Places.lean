import DelegatedAuthority.Proofs.Confinement
/-!
Places in a block, and which items are read to their end there.

Where a head of one major type is wanted, one of another may be read, and its argument is taken for
a length, a count or a tag. A string of bytes is read as a text like that, and ends where it ends. A
number is read as the length of a text or of a list, and what is behind the number as the text or the
list: from there on the block is taken apart at other bytes than those between its items. Where no
item does this, every item is read to its end, or refused.
-/
namespace DelegatedAuthority

open Cbor

variable {α : Type} {part : Bytes}

namespace Cbor

/-- A well-formed item, however deep it nests and whatever simple values it holds. -/
def IsItem (part : Bytes) : Prop :=
  ∃ levels, Item IsSimple levels part

/-- A head with this argument stands first. -/
def Leads (major : Major) (n : Nat) (part : Bytes) : Prop :=
  ∃ head rest, IsHead major n head ∧ part = head ++ rest

/-- The text that an item is taken for where a text is wanted, if it is read to its end: its own, the
one that its bytes spell, or the empty one for a number whose argument is zero. -/
inductive TakenFor (part : Bytes) : String → Prop
  | text {text : String} : IsText part text → TakenFor part text
  | bytes {text : String} : IsChunk .bytes part (Bytes.ofText text) → TakenFor part text
  | zero {major : Major} : major = .unsigned ∨ major = .negative → IsHead major 0 part →
      TakenFor part ""

end Cbor

/-- What is wanted where an item stands: any item, a text, a link, or a list or a map of definite
length. -/
inductive Place where
  | any
  | text
  | link
  | list (element : Place)
  | map (value : String → Place)

/-- An item that is read to its end in a place, if it is read at all: so is every item but those whose
head is read there with an argument that counts something else. The keys of a map stand where texts
are wanted, and its values where what they are taken for says. -/
inductive Place.Holds : Place → Bytes → Prop
  | any {part : Bytes} : IsItem part → Holds .any part
  | text {part : Bytes} : IsItem part →
      (∀ major n, major = .unsigned ∨ major = .negative → IsHead major n part → n = 0) →
      Holds .text part
  | link {part : Bytes} : IsItem part →
      (∀ major, Leads major Cid.linkTag part → Major.tag.admits major = true → major = .tag) →
      Holds .link part
  | list {element : Place} {head : Bytes} {parts : List Bytes} :
      IsHead .array parts.length head → (∀ part ∈ parts, Holds element part) →
      Holds (.list element) (head ++ parts.flatten)
  | emptyList {element : Place} {major : Major} {part : Bytes} :
      Major.array.admits major = true → IsHead major 0 part → Holds (.list element) part
  | noList {element : Place} {part : Bytes} : IsItem part →
      (∀ major n, Leads major n part → Major.array.admits major = false) →
      Holds (.list element) part
  | map {value : String → Place} {head : Bytes} {pairs : List (Bytes × Bytes)} :
      IsHead .map pairs.length head → (∀ pair ∈ pairs, Holds .text pair.1) →
      (∀ pair ∈ pairs, ∀ name, TakenFor pair.1 name → Holds (value name) pair.2) →
      Holds (.map value) (head ++ pairs.flatMap fun pair => pair.1 ++ pair.2)
  | emptyMap {value : String → Place} {major : Major} {part : Bytes} :
      Major.map.admits major = true → IsHead major 0 part → Holds (.map value) part
  | noMap {value : String → Place} {part : Bytes} : IsItem part →
      (∀ major n, Leads major n part → Major.map.admits major = false) →
      Holds (.map value) part

namespace Cbor

variable {major major' wanted : Major} {n n' depth : Nat} {b : UInt8} {head head' rest rest' : Bytes}

/-- A head tells where it ends. -/
theorem IsHead.unique (h : IsHead major n head) (h' : IsHead major' n' head')
    (same : head ++ rest = head' ++ rest') : major = major' ∧ n = n' ∧ rest = rest' := by
  have own : major = major' := by
    obtain ⟨b, more, rfl, own, _⟩ := h.cons
    obtain ⟨b', more', rfl, own', _⟩ := h'.cons
    obtain ⟨first, _⟩ := List.cons_eq_cons.mp same
    rw [← own, ← own', first]
  subst own
  have read := h.spells rest
  rw [same, h'.spells rest'] at read
  cases read
  exact ⟨rfl, rfl, rfl⟩

theorem IsHead.leads (h : IsHead major n part) : Leads major n part :=
  ⟨part, [], h, (List.append_nil part).symm⟩

theorem IsChunk.leads {content : Bytes} (h : IsChunk major part content) :
    Leads major content.length part := by
  obtain ⟨head, isHead, rfl⟩ := h
  exact ⟨head, content, isHead, rfl⟩

theorem Leads.cons (h : Leads major n part) :
    ∃ b others, part = b :: others ∧ Major.ofByte b = major := by
  obtain ⟨head, rest, isHead, rfl⟩ := h
  obtain ⟨b, others, rfl, own, _⟩ := isHead.cons
  exact ⟨b, _, rfl, own⟩

/-- What an item is by the major type of its head. -/
def Shape (part : Bytes) : Major → Prop
  | .unsigned => ∃ n, IsHead .unsigned n part
  | .negative => ∃ n, IsHead .negative n part
  | .bytes => ∃ content, IsString .bytes part content
  | .text => ∃ content, IsString .text part content
  | .array => (∃ n, Leads .array n part) ∨ ∃ rest, part = streamByte .array :: rest
  | .map => (∃ n, Leads .map n part) ∨ ∃ rest, part = streamByte .map :: rest
  | .tag => ∃ n head item, IsHead .tag n head ∧ IsItem item ∧ part = head ++ item
  | .simple => IsSimple part

theorem exists_isString_stream {parts : List Bytes}
    (chunks : ∀ part ∈ parts, ∃ content, IsChunk major part content) :
    ∃ content, IsString major (streamByte major :: (parts.flatten ++ [stopByte])) content := by
  have all : ∃ contents, List.Forall₂ (IsChunk major) parts contents := by
    induction parts with
    | nil => exact ⟨[], .nil⟩
    | cons part parts ih =>
      obtain ⟨⟨content, isChunk⟩, others⟩ := List.forall_mem_cons.mp chunks
      obtain ⟨contents, areChunks⟩ := ih others
      exact ⟨content :: contents, .cons isChunk areChunks⟩
  obtain ⟨contents, areChunks⟩ := all
  exact ⟨contents.flatten, .stream areChunks⟩

theorem IsItem.shape (h : IsItem part) :
    ∃ b rest, part = b :: rest ∧ Shape part (Major.ofByte b) := by
  obtain ⟨levels, item⟩ := h
  cases item with
  | integer isInteger isHead =>
    obtain ⟨b, rest, rfl, own, _⟩ := isHead.cons
    refine ⟨b, rest, rfl, own ▸ ?_⟩
    rcases isInteger with rfl | rfl <;> exact ⟨_, isHead⟩
  | string isString isChunk =>
    obtain ⟨b, rest, rfl, own⟩ := (IsString.chunk isChunk).cons
    refine ⟨b, rest, rfl, own ▸ ?_⟩
    rcases isString with rfl | rfl <;> exact ⟨_, .chunk isChunk⟩
  | stringStream isString chunks =>
    refine ⟨_, _, rfl, ofByte_streamByte _ ▸ ?_⟩
    rcases isString with rfl | rfl <;> exact exists_isString_stream chunks
  | array isHead _ =>
    obtain ⟨b, rest, rfl, own, _⟩ := isHead.cons
    exact ⟨b, _, rfl, own ▸ .inl ⟨_, _, _, isHead, rfl⟩⟩
  | arrayStream _ => exact ⟨_, _, rfl, .inr ⟨_, rfl⟩⟩
  | map isHead _ _ =>
    obtain ⟨b, rest, rfl, own, _⟩ := isHead.cons
    exact ⟨b, _, rfl, own ▸ .inl ⟨_, _, _, isHead, rfl⟩⟩
  | mapStream _ _ => exact ⟨_, _, rfl, .inr ⟨_, rfl⟩⟩
  | tag isHead item =>
    obtain ⟨b, rest, rfl, own, _⟩ := isHead.cons
    exact ⟨b, _, rfl, own ▸ ⟨_, _, _, isHead, ⟨_, item⟩, rfl⟩⟩
  | simple isSimple =>
    obtain ⟨width, n, fits, single, rfl⟩ := isSimple
    refine ⟨_, _, rfl, ?_⟩
    rw [ofByte_firstByte fits]
    exact ⟨width, n, fits, single, rfl⟩

theorem IsString.isItem {content : Bytes} (h : IsString major part content)
    (isString : major = .bytes ∨ major = .text) : IsItem part := by
  cases h with
  | chunk isChunk => exact ⟨1, .string isString isChunk⟩
  | stream chunks =>
    refine ⟨2, .stringStream isString fun part member => ?_⟩
    obtain ⟨content, _, isChunk⟩ := exists_of_forall₂ chunks member
    exact ⟨content, isChunk⟩

/-- A head leads every item but those that are streams. -/
theorem IsItem.leads_or_stream (h : IsItem part) :
    (∃ major n, Leads major n part) ∨ ∃ major rest, part = streamByte major :: rest := by
  obtain ⟨b, rest, rfl, shape⟩ := h.shape
  have string : ∀ {major content}, IsString major (b :: rest) content →
      (∃ major n, Leads major n (b :: rest)) ∨
        ∃ major others, b :: rest = streamByte major :: others := by
    intro major content isString
    cases isString with
    | chunk isChunk => exact .inl ⟨_, _, isChunk.leads⟩
    | stream _ => exact .inr ⟨_, _, rfl⟩
  cases own : Major.ofByte b <;> rw [own] at shape
  case unsigned | negative =>
    obtain ⟨n, isHead⟩ := shape
    exact .inl ⟨_, _, isHead.leads⟩
  case bytes | text =>
    obtain ⟨content, isString⟩ := shape
    exact string isString
  case array | map =>
    rcases shape with ⟨n, leads⟩ | ⟨others, same⟩
    · exact .inl ⟨_, _, leads⟩
    · exact .inr ⟨_, _, same⟩
  case tag =>
    obtain ⟨n, head, item, isHead, _, same⟩ := shape
    exact .inl ⟨_, _, _, _, isHead, same⟩
  case simple =>
    obtain ⟨width, n, fits, _, same⟩ := shape
    exact .inl ⟨_, _, IsHead.leads ⟨width, fits, same⟩⟩

theorem readHead_of_not_admits (h : wanted.admits (.ofByte b) = false) (rest : Bytes) :
    readHead wanted (b :: rest) = none := by
  rw [readHead, h]
  rfl

/-- An item is refused where its head is not read. -/
theorem IsItem.readHead_eq_none (h : IsItem part)
    (refused : ∀ major n, Leads major n part → wanted.admits major = false) (rest : Bytes) :
    readHead wanted (part ++ rest) = none := by
  rcases h.leads_or_stream with ⟨major, n, leads⟩ | ⟨major, more, rfl⟩
  · have unread := refused major n leads
    obtain ⟨b, others, rfl, rfl⟩ := leads.cons
    exact readHead_of_not_admits unread _
  · exact readHead_stream wanted major _

theorem readString_of_not_readHead (other : b ≠ streamByte wanted)
    (h : ∀ rest, readHead wanted (b :: rest) = none) (depth : Nat) (rest : Bytes) :
    readString wanted depth (b :: rest) = none := by
  cases depth <;> rw [readString, readChunks, if_neg other, readChunk, h] <;> rfl

theorem readString_of_not_admits (h : wanted.admits (.ofByte b) = false) (depth : Nat)
    (rest : Bytes) : readString wanted depth (b :: rest) = none := by
  refine readString_of_not_readHead ?_ (readHead_of_not_admits h) depth rest
  rintro rfl
  rw [ofByte_streamByte, Major.admits_self] at h
  cases h

theorem readText_of_not_readString (h : readString .text depth part = none) :
    readText depth part = none := by
  rw [readText, h]
  rfl

theorem IsChunk.spells_text {text : String} (h : IsChunk major part (Bytes.ofText text))
    (admitted : Major.text.admits major = true) (depth : Nat) :
    Spells (readText depth) part text := by
  intro rest
  simp [readText, h.spells_of_admits admitted depth rest]

theorem isChunk_empty (h : IsHead major 0 part) : IsChunk major part (Bytes.ofText "") :=
  ⟨part, h, (List.append_nil part).symm⟩

theorem admits_number (h : major = .unsigned ∨ major = .negative) :
    Major.text.admits major = true := by
  rcases h with rfl | rfl <;> rfl

theorem TakenFor.spells {text : String} (h : TakenFor part text) (pos : 0 < depth) :
    Spells (readText depth) part text := by
  cases h with
  | text isText => exact isText.spells pos
  | bytes isChunk => exact isChunk.spells_text rfl depth
  | zero isNumber isHead => exact (isChunk_empty isHead).spells_text (admits_number isNumber) depth

theorem TakenFor.unique {text text' : String} (h : TakenFor part text) (h' : TakenFor part text') :
    text = text' := by
  have read := h.spells Nat.one_pos []
  rw [h'.spells Nat.one_pos []] at read
  cases read
  rfl

/-- Where a text is wanted, an item that holds its place is read to its end. -/
theorem confined_text (h : Place.text.Holds part) (depth : Nat) :
    Confined (readText depth) part (TakenFor part) := by
  cases h with
  | text item zero =>
    obtain ⟨b, rest, rfl, shape⟩ := item.shape
    have number : ∀ {major n}, major = .unsigned ∨ major = .negative → IsHead major n (b :: rest) →
        Confined (readText depth) (b :: rest) (TakenFor (b :: rest)) := by
      intro major n isNumber isHead
      obtain rfl := zero major n isNumber isHead
      have spelt := (isChunk_empty isHead).spells_text (admits_number isNumber) depth
      refine spelt.confined.imp ?_
      rintro _ rfl
      exact .zero isNumber isHead
    cases own : Major.ofByte b <;> rw [own] at shape
    case unsigned =>
      obtain ⟨n, isHead⟩ := shape
      exact number (.inl rfl) isHead
    case negative =>
      obtain ⟨n, isHead⟩ := shape
      exact number (.inr rfl) isHead
    case bytes =>
      obtain ⟨content, isString⟩ := shape
      cases isString with
      | chunk isChunk =>
        have admitted : Major.text.admits .bytes = true := rfl
        refine (isChunk.spells_of_admits admitted depth).confined.map ?_
        rintro _ rfl
        refine Confined.lift fun text valid => .bytes ?_
        rwa [Bytes.ofText_of_toText? valid]
      | stream _ =>
        exact .refused fun more => readText_of_not_readString
          (readString_of_not_readHead (by decide) (readHead_stream _ _) depth _)
    case text =>
      obtain ⟨content, isString⟩ := shape
      refine (isString.confined depth).map fun read isRead => Confined.lift fun text valid => .text ?_
      rw [IsText, Bytes.ofText_of_toText? valid]
      exact isRead
    all_goals
      exact .refused fun more => readText_of_not_readString
        (readString_of_not_admits (by rw [own]; rfl) depth _)

/-- A string of either kind is in its place where a text is wanted. -/
theorem IsString.holds {content : Bytes} (h : IsString major part content)
    (isString : major = .bytes ∨ major = .text) : Place.text.Holds part := by
  refine .text (h.isItem isString) ?_
  intro major' n isNumber isHead
  obtain ⟨b, rest, rfl, own⟩ := h.cons
  obtain ⟨b', rest', same, own', _⟩ := isHead.cons
  cases same
  rw [own] at own'
  rcases isNumber with rfl | rfl <;> rcases isString with rfl | rfl <;> cases own'

theorem IsText.holds {text : String} (h : IsText part text) : Place.text.Holds part :=
  IsString.holds h (.inr rfl)

/-- An entry with this key, and with a value that is in its place there. -/
theorem IsText.holds_entry {front back : Bytes} {key : String} {value : String → Place}
    (h : IsText front key) (holds : (value key).Holds back) :
    Place.text.Holds front ∧ ∀ name, TakenFor front name → (value name).Holds back :=
  ⟨h.holds, fun _ h' => (TakenFor.text h).unique h' ▸ holds⟩

/-- An item that does not hold the place of a text is a number other than 0 and -1. -/
theorem IsItem.holds_text_or (h : IsItem part) : Place.text.Holds part ∨
    ∃ major n, (major = .unsigned ∨ major = .negative) ∧ n ≠ 0 ∧ IsHead major n part := by
  by_cases zero : ∀ major n, major = .unsigned ∨ major = .negative → IsHead major n part → n = 0
  · exact .inl (.text h zero)
  · simp only [not_forall] at zero
    obtain ⟨major, n, isNumber, isHead, count⟩ := zero
    exact .inr ⟨major, n, isNumber, count, isHead⟩

/-- A number is read as a text of so many bytes behind it. -/
theorem length_of_number {text : String} (isNumber : major = .unsigned ∨ major = .negative)
    (isHead : IsHead major n part) (h : readText depth (part ++ rest) = some (text, rest')) :
    rest.length = n + rest'.length := by
  rw [readText, isHead.readString_of_admits (admits_number isNumber)] at h
  obtain ⟨⟨content, left⟩, taken, h⟩ := Option.bind_eq_some_iff.mp h
  obtain ⟨_, _, same⟩ := Option.bind_eq_some_iff.mp h
  cases same
  rw [Bytes.take?] at taken
  split at taken
  · cases taken
    rw [List.length_drop]
    omega
  · cases taken

/-- An item that is read to its end where a text is wanted is read as what it is taken for. -/
theorem IsItem.takenFor {text : String} (item : IsItem part)
    (h : readText depth (part ++ rest) = some (text, rest)) : TakenFor part text := by
  rcases item.holds_text_or with holds | ⟨major, n, isNumber, count, isHead⟩
  · exact (confined_text holds depth rest _ _ h).2
  · have length := length_of_number isNumber isHead h
    omega

theorem IsSimple.eq_null (h : IsSimple (nullByte :: rest)) : rest = [] := by
  obtain ⟨width, n, _, _, eq⟩ := h
  obtain ⟨first, rfl⟩ := List.cons_eq_cons.mp eq
  cases width with
  | inline => rfl
  | _ => simp [Width.lowBits, Major.code, nullByte] at first

theorem confined_unsigned (item : IsItem part) : Confined readUnsigned part fun _ => True := by
  obtain ⟨b, rest, rfl, shape⟩ := item.shape
  by_cases own : Major.ofByte b = .unsigned
  · rw [own] at shape
    obtain ⟨n, isHead⟩ := shape
    exact isHead.spells.confined.map fun _ _ => Confined.pure True.intro
  · have unread : Major.unsigned.admits (.ofByte b) = false := by
      cases other : Major.ofByte b <;> first | rfl | exact absurd other own
    refine .refused fun more => ?_
    rw [List.cons_append, readUnsigned, readHead_of_not_admits unread]
    rfl

/-- Where a number or null is wanted, nothing else is read. -/
theorem confined_nullable (item : IsItem part) :
    Confined (readNullable readUnsigned) part fun _ => True := by
  have unsigned := confined_unsigned item
  obtain ⟨b, rest, rfl, shape⟩ := item.shape
  by_cases null : b = nullByte
  · subst null
    have alone : rest = [] := IsSimple.eq_null shape
    subst alone
    exact (spells_nullable_null readUnsigned).confined.imp fun _ _ => True.intro
  · intro more a left eq
    rw [List.cons_append, readNullable, if_neg null] at eq
    obtain ⟨⟨n, behind⟩, here, same⟩ := Option.bind_eq_some_iff.mp eq
    obtain ⟨rfl, _⟩ := unsigned more _ _ here
    cases same
    exact ⟨rfl, True.intro⟩

theorem confined_ownString (item : IsItem part) (depth : Nat) :
    Confined (readOwnString .bytes depth) part fun _ => True := by
  obtain ⟨b, rest, rfl, shape⟩ := item.shape
  -- only here no other major type is admitted for the one that is wanted
  by_cases own : Major.ofByte b = .bytes
  · rw [own] at shape
    obtain ⟨content, isString⟩ := shape
    intro more read left eq
    rw [List.cons_append, readOwnString, if_pos own] at eq
    exact (isString.confined depth).imp (fun _ _ => True.intro) more read left eq
  · refine .refused fun more => ?_
    rw [List.cons_append, readOwnString, if_neg own]

variable {element : Place} {value : String → Place}

theorem confined_array {read : NestedRead α} (h : (Place.list element).Holds part)
    (each : ∀ part depth, element.Holds part → Confined (read depth) part fun _ => True)
    (depth : Nat) : Confined (readArray read depth) part fun _ => True := by
  cases depth with
  | zero => exact .refused fun _ => rfl
  | succ depth =>
    cases h with
    | @list _ head parts isHead elements =>
      have all := Confined.many id fun part member => each part depth (elements part member)
      rw [List.flatMap_id] at all
      refine isHead.spells.confined.bind ?_
      rintro _ rfl
      exact all.imp fun _ _ => True.intro
    | emptyList admitted isHead =>
      refine (isHead.spells_of_admits admitted).confined.map ?_
      rintro _ rfl
      exact Confined.pure True.intro
    | noList item refused =>
      refine .refused fun rest => ?_
      rw [readArray, item.readHead_eq_none refused]
      rfl

variable {known : String → Option (NestedRead α)}

theorem confined_entry {front back : Bytes} (isKey : Place.text.Holds front)
    (isValue : ∀ name, TakenFor front name → (value name).Holds back)
    (each : ∀ name read, known name = some read → ∀ part, (value name).Holds part →
      Confined (read depth) part fun _ => True)
    (others : ∀ name, known name = none → value name = .any) :
    Confined (readEntry known depth) (front ++ back) fun _ => True := by
  refine (confined_text isKey depth).bind fun name taken => ?_
  have holds := isValue name taken
  dsimp only
  cases reader : known name with
  | none =>
    rw [others name reader] at holds
    cases holds with
    | any item =>
      obtain ⟨levels, item⟩ := item
      exact (item.confined_skip depth).map fun _ _ => Confined.pure True.intro
  | some read =>
    exact (each name read reader back holds).map fun a _ => Confined.pure (a := some a) True.intro

theorem confined_map (h : (Place.map value).Holds part)
    (each : ∀ name read depth, known name = some read → ∀ part, (value name).Holds part →
      Confined (read depth) part fun _ => True)
    (others : ∀ name, known name = none → value name = .any) (depth : Nat) :
    Confined (readMap known depth) part fun _ => True := by
  cases depth with
  | zero => exact .refused fun _ => rfl
  | succ depth =>
    cases h with
    | map isHead keys values =>
      have entries := Confined.many _ fun pair member =>
        confined_entry (keys pair member) (values pair member)
          (fun name read reader => each name read depth reader) others
      refine isHead.spells.confined.bind ?_
      rintro _ rfl
      exact entries.map fun _ _ => Confined.pure True.intro
    | emptyMap admitted isHead =>
      refine (isHead.spells_of_admits admitted).confined.map ?_
      rintro _ rfl
      exact Confined.pure True.intro
    | noMap item refused =>
      refine .refused fun rest => ?_
      rw [readMap, item.readHead_eq_none refused]
      rfl

theorem IsList.holds {spelt : Bytes → α → Prop} {list : List α} (h : IsList .array spelt part list)
    (each : ∀ part a, spelt part a → element.Holds part) : (Place.list element).Holds part := by
  obtain ⟨head, parts, isHead, related, rfl⟩ := h
  rw [← related.length_eq] at isHead
  refine .list isHead fun part member => ?_
  obtain ⟨a, _, isSpelt⟩ := exists_of_forall₂ related member
  exact each part a isSpelt

section Members

variable {names : List String} {key : α → String} {spelt : Bytes → α → Prop}
  {members : List (Option α)}

theorem exists_pairs_of_members {parts : List Bytes}
    (each : ∀ back a, key a ∈ names → spelt back a → (value (key a)).Holds back)
    (others : ∀ name, name ∉ names → value name = .any)
    (related : List.Forall₂ (IsMember IsSimple names key spelt) parts members) :
    ∃ pairs : List (Bytes × Bytes), pairs.length = members.length ∧
      (parts.flatten = pairs.flatMap fun pair => pair.1 ++ pair.2) ∧
      ∀ pair ∈ pairs, Place.text.Holds pair.1 ∧
        ∀ name, TakenFor pair.1 name → (value name).Holds pair.2 := by
  induction related with
  | nil => exact ⟨[], rfl, rfl, List.forall_mem_nil _⟩
  | cons first _ ih =>
    obtain ⟨pairs, length, same, all⟩ := ih
    cases first with
    | @known front back a isText known isSpelt =>
      refine ⟨(front, back) :: pairs, congrArg Nat.succ length, ?_, ?_⟩
      · rw [List.flatten_cons, List.flatMap_cons, same]
      · exact List.forall_mem_cons.mpr ⟨isText.holds_entry (each back a known isSpelt), all⟩
    | @unknown front back name levels isText unknown _ item =>
      refine ⟨(front, back) :: pairs, congrArg Nat.succ length, ?_, ?_⟩
      · rw [List.flatten_cons, List.flatMap_cons, same]
      · have any : (value name).Holds back := others name unknown ▸ .any ⟨levels, item⟩
        exact List.forall_mem_cons.mpr ⟨isText.holds_entry any, all⟩

theorem IsList.holds_map (h : IsList .map (IsMember IsSimple names key spelt) part members)
    (each : ∀ back a, key a ∈ names → spelt back a → (value (key a)).Holds back)
    (others : ∀ name, name ∉ names → value name = .any) : (Place.map value).Holds part := by
  obtain ⟨head, parts, isHead, related, rfl⟩ := h
  obtain ⟨pairs, length, same, all⟩ := exists_pairs_of_members each others related
  rw [same]
  exact .map (length ▸ isHead) (fun pair member => (all pair member).1)
    fun pair member => (all pair member).2

end Members

end Cbor

/-- Two texts are wanted in a capability, each under its key. -/
def Capability.place : Place :=
  .map fun key => if key = "can" ∨ key = "with" then .text else .any

theorem Capability.confined_read (h : place.Holds part) (depth : Nat) :
    Confined (read depth) part fun _ => True := by
  have field : ∀ name read depth, fieldReader? name = some read → ∀ part,
      (if name = "can" ∨ name = "with" then Place.text else .any).Holds part →
        Confined (read depth) part fun _ => True := by
    intro name read depth reader part holds
    rw [fieldReader?] at reader
    split at reader
    · rename_i known
      cases reader
      rw [if_pos known] at holds
      exact (confined_text holds depth).map fun _ _ => Confined.pure True.intro
    · cases reader
  have fields : Confined (readMap fieldReader? depth) part fun _ => True := by
    refine confined_map h field ?_ depth
    intro name unknown
    rw [fieldReader?] at unknown
    split at unknown
    · cases unknown
    · exact if_neg ‹_›
  refine fields.map fun fields _ => ?_
  dsimp only
  cases Fields.required? fields "can" with
  | none => exact .refused fun _ => rfl
  | some can =>
    cases Fields.required? fields "with" with
    | none => exact .refused fun _ => rfl
    | some whole => exact Confined.pure True.intro

theorem Capability.IsSpelt.holds {c : Capability} (h : c.IsSpelt IsSimple part) :
    place.Holds part := by
  obtain ⟨members, isList, _⟩ := h
  refine isList.holds_map ?_ ?_
  · intro back field known isText
    rw [if_pos (by simpa [keys] using known)]
    exact IsText.holds isText
  · intro name unknown
    exact if_neg (by simpa [keys] using unknown)

theorem Cid.IsLink.holds {cid : Cid} (h : cid.IsLink part) : Place.link.Holds part := by
  obtain ⟨head, string, isHead, isString, rfl⟩ := h
  obtain ⟨levels, item⟩ := isString.isItem (.inl rfl)
  refine .link ⟨_, .tag isHead item⟩ ?_
  rintro major ⟨head', rest, isHead', same⟩ _
  exact (isHead'.unique isHead same.symm).1

theorem Cid.readLink_eq_none {major : Major} {n : Nat} (h : Leads major n part)
    (other : Major.tag.admits major = true → n ≠ linkTag) (depth : Nat) (rest : Bytes) :
    readLink depth (part ++ rest) = none := by
  cases admitted : Major.tag.admits major with
  | false =>
    obtain ⟨b, others, rfl, rfl⟩ := h.cons
    rw [readLink, List.cons_append, readHead_of_not_admits admitted]
    rfl
  | true =>
    obtain ⟨head, more, isHead, rfl⟩ := h
    rw [readLink, List.append_assoc, isHead.spells_of_admits admitted]
    simp only [Option.bind_eq_bind, Option.bind_some, if_neg (other admitted)]

theorem Cid.confined_link (h : Place.link.Holds part) (depth : Nat) :
    Confined (readLink depth) part fun _ => True := by
  cases h with
  | link item apart =>
    obtain ⟨b, rest, eq, shape⟩ := item.shape
    by_cases own : Major.ofByte b = .tag
    · rw [own] at shape
      obtain ⟨_, head, inner, isHead, isItem, rfl⟩ := shape
      refine isHead.spells.confined.bind ?_
      rintro tag rfl
      by_cases known : tag = linkTag
      · simp only [if_pos known]
        refine (confined_ownString isItem depth).map fun content _ => ?_
        dsimp only
        split
        · exact Confined.lift fun _ _ => True.intro
        · exact .refused fun _ => rfl
      · simp only [if_neg known]
        exact .refused fun _ => rfl
    · refine .refused fun more => ?_
      rcases item.leads_or_stream with ⟨major, n, leads⟩ | ⟨major, others, rfl⟩
      · refine readLink_eq_none leads ?_ depth more
        rintro admitted rfl
        obtain ⟨b', rest', same, own'⟩ := leads.cons
        obtain ⟨rfl, _⟩ := List.cons_eq_cons.mp (eq.symm.trans same)
        exact own (own'.trans (apart major leads admitted))
      · rw [readLink, List.cons_append, readHead_stream]
        rfl

namespace Delegation.Entry

/-- What is wanted under a key. A number or null is told from everything else by its head. -/
def place : String → Place
  | "iss" => .text
  | "aud" => .text
  | "att" => .list Capability.place
  | "prf" => .list .link
  | _ => .any

theorem confined_reading {read : NestedRead α} {depth : Nat} (entry : α → Entry)
    (h : Confined (read depth) part fun _ => True) {reader : NestedRead Entry}
    (eq : reading entry read = some reader) : Confined (reader depth) part fun _ => True := by
  cases eq
  exact h.map fun _ _ => Confined.pure True.intro

theorem confined_reader {name : String} {read : NestedRead Entry} (depth : Nat)
    (known : reader? name = some read) (h : (place name).Holds part) :
    Confined (read depth) part fun _ => True := by
  have text : ∀ part, Place.text.Holds part → Confined (readText depth) part fun _ => True :=
    fun _ holds => (confined_text holds depth).imp fun _ _ => True.intro
  have number : ∀ part, Place.any.Holds part →
      Confined (readNullable readUnsigned) part fun _ => True := by
    intro part holds
    cases holds with
    | any item => exact confined_nullable item
  have capability : ∀ part depth, Capability.place.Holds part →
      Confined (Capability.read depth) part fun _ => True :=
    fun _ depth holds => Capability.confined_read holds depth
  have link : ∀ part depth, Place.link.Holds part →
      Confined (Cid.readLink depth) part fun _ => True :=
    fun _ depth holds => Cid.confined_link holds depth
  unfold reader? at known
  split at known
  · exact confined_reading issuer (text part h) known
  · exact confined_reading audience (text part h) known
  · exact confined_reading expiration (number part h) known
  · exact confined_reading capabilities (confined_array h capability depth) known
  · exact confined_reading proofs (confined_array h link depth) known
  · cases known

/-- The value of an entry is in its place, whatever it gives. -/
theorem IsSpelt.holds {e : Entry} (h : IsSpelt IsSimple part e) : (place e.key).Holds part := by
  cases h with
  | issuer isText => exact isText.holds
  | audience isText => exact isText.holds
  | noExpiration => exact .any ⟨1, .simple ⟨.inline, 22, by decide, nofun, rfl⟩⟩
  | expiration isHead => exact .any ⟨1, .integer (.inl rfl) isHead⟩
  | capabilities isList => exact isList.holds fun _ _ => Capability.IsSpelt.holds
  | proofs isList => exact isList.holds fun _ _ => Cid.IsLink.holds

theorem place_of_unknown {name : String} (unknown : reader? name = none) : place name = .any := by
  unfold place
  split
  · cases unknown
  · cases unknown
  · cases unknown
  · cases unknown
  · rfl

end Delegation.Entry

end DelegatedAuthority
