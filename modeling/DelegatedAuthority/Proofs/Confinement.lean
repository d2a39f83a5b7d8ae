import DelegatedAuthority.Proofs.BlockReading
/-!
Confinement: what a reader takes of bytes that it may well refuse.

A reader is confined to some bytes where it fails on them or takes all of them and no more, whatever
is behind them. Bytes that spell a value confine the reader of it, and so do those that it never
reads. Passing over an item is confined to that item, however deep it nests and whatever simple
values it holds.
-/
namespace DelegatedAuthority

open Cbor

variable {α β : Type} {read : Read α} {part part' : Bytes} {made made' : α → Prop}
  {result : β → Prop}

/-- The reader fails at these bytes, or takes just them and makes of them what is said. -/
def Confined (read : Read α) (part : Bytes) (made : α → Prop) : Prop :=
  ∀ rest a left, read (part ++ rest) = some (a, left) → left = rest ∧ made a

/-- In front of these bytes, a part is read to another end than its own. -/
def Strays (read : Read α) (part behind : Bytes) : Prop :=
  ∃ a left, read (part ++ behind) = some (a, left) ∧ left ≠ behind

theorem Confined.not_strays (h : Confined read part made) (behind : Bytes) :
    ¬Strays read part behind := by
  rintro ⟨a, left, eq, other⟩
  exact other (h behind a left eq).1

theorem eq_of_not_strays {behind left : Bytes} {a : α} (straight : ¬Strays read part behind)
    (h : read (part ++ behind) = some (a, left)) : left = behind := by
  by_contra other
  exact straight ⟨a, left, h, other⟩

theorem Spells.confined {a : α} (spelt : Spells read part a) :
    Confined read part fun b => b = a := by
  intro rest b left eq
  rw [spelt rest] at eq
  cases eq
  exact ⟨rfl, rfl⟩

namespace Confined

theorem refused (h : ∀ rest, read (part ++ rest) = none) : Confined read part made := by
  intro rest a left eq
  rw [h rest] at eq
  cases eq

theorem pure {a : α} (h : made a) : Confined (fun bytes => some (a, bytes)) [] made := by
  intro rest b left eq
  cases eq
  exact ⟨rfl, h⟩

theorem lift {o : Option α} (h : ∀ a, o = some a → made a) :
    Confined (fun bytes => do return (← o, bytes)) [] made := by
  cases o with
  | none => exact refused fun _ => rfl
  | some a => exact pure (h a rfl)

theorem imp (h : Confined read part made) (le : ∀ a, made a → made' a) :
    Confined read part made' := by
  intro rest a left eq
  obtain ⟨same, holds⟩ := h rest a left eq
  exact ⟨same, le a holds⟩

theorem bind {after : α × Bytes → Option (β × Bytes)} (front : Confined read part made)
    (back : ∀ a, made a → Confined (fun bytes => after (a, bytes)) part' result) :
    Confined (fun bytes => read bytes >>= after) (part ++ part') result := by
  intro rest b left eq
  obtain ⟨⟨a, between⟩, first, eq⟩ := Option.bind_eq_some_iff.mp eq
  rw [List.append_assoc] at first
  obtain ⟨rfl, holds⟩ := front _ _ _ first
  exact back a holds rest b left eq

/-- What is done with a result that has been read takes no more bytes. -/
theorem map {after : α × Bytes → Option (β × Bytes)} (h : Confined read part made)
    (back : ∀ a, made a → Confined (fun bytes => after (a, bytes)) [] result) :
    Confined (fun bytes => read bytes >>= after) part result := by
  have both := bind h back
  rwa [List.append_nil] at both

theorem discard (h : Confined read part made) :
    Confined (Cbor.discard read) part fun _ => True :=
  h.map fun _ _ => pure True.intro

theorem append {read' : Read β} (front : Confined read part made)
    (back : Confined read' part' result) :
    Confined (readPair read read') (part ++ part') fun p => made p.1 ∧ result p.2 :=
  front.bind fun _ holds => back.map fun _ holds' => pure ⟨holds, holds'⟩

section Lists

variable (spelling : β → Bytes) {made : β → α → Prop} {list : List β}

theorem many (each : ∀ b ∈ list, Confined read (spelling b) (made b)) :
    Confined (readMany read list.length) (list.flatMap spelling) (List.Forall₂ made list) := by
  induction list with
  | nil => exact pure .nil
  | cons b list ih =>
    obtain ⟨first, others⟩ := List.forall_mem_cons.mp each
    rw [List.flatMap_cons]
    exact first.bind fun _ holds => (ih others).map fun _ related => pure (.cons holds related)

theorem untilStop (each : ∀ b ∈ list, Begins (spelling b) ∧ Confined read (spelling b) (made b))
    (limit : Nat) : Confined (readUntilStop read limit) (list.flatMap spelling ++ [stopByte])
      (List.Forall₂ made list) := by
  induction list generalizing limit with
  | nil =>
    cases limit with
    | zero => exact refused fun _ => rfl
    | succ limit =>
      have stop : Spells (readUntilStop read (limit + 1)) [stopByte] [] := fun _ => rfl
      refine stop.confined.imp ?_
      rintro _ rfl
      exact .nil
  | cons b list ih =>
    obtain ⟨⟨begins, first⟩, others⟩ := List.forall_mem_cons.mp each
    cases limit with
    | zero => exact refused fun _ => rfl
    | succ limit =>
      intro rest as left eq
      rw [List.flatMap_cons, List.append_assoc, List.append_assoc,
        readUntilStop_of_begins begins] at eq
      obtain ⟨⟨a, between⟩, here, eq⟩ := Option.bind_eq_some_iff.mp eq
      obtain ⟨rfl, holds⟩ := first _ _ _ here
      obtain ⟨⟨more, behind⟩, there, same⟩ := Option.bind_eq_some_iff.mp eq
      rw [← List.append_assoc] at there
      obtain ⟨rfl, related⟩ := ih others limit _ _ _ there
      cases same
      exact ⟨rfl, .cons holds related⟩

theorem stream (each : ∀ b ∈ list, Begins (spelling b) ∧ Confined read (spelling b) (made b)) :
    Confined (readStream read) (list.flatMap spelling ++ [stopByte]) (List.Forall₂ made list) :=
  fun rest => untilStop spelling each _ rest

end Lists

end Confined

namespace Cbor

variable {major : Major} {n depth levels : Nat} {head content : Bytes} {parts : List Bytes}

theorem confined_skip_head {made : Unit → Prop} (isHead : IsHead major n head)
    (proper : major ≠ .simple) (behind : Confined (skipBehind depth major n) content made) :
    Confined (skip (depth + 1)) (head ++ content) made := by
  intro rest a left eq
  rw [List.append_assoc, skip_head isHead proper] at eq
  exact behind rest a left eq

theorem confined_skip_stream (isList : major = .bytes ∨ major = .text ∨ major = .array)
    (each : ∀ part ∈ parts, Begins part ∧ Confined (skip depth) part fun _ => True) :
    Confined (skip (depth + 1)) (streamByte major :: (parts.flatten ++ [stopByte]))
      fun _ => True := by
  intro rest a left eq
  rw [List.cons_append, skip_stream isList, ← List.flatMap_id] at eq
  exact (Confined.stream id each).discard rest a left eq

/-- A simple value is passed over as far as it has a name, and refused otherwise. -/
theorem IsSimple.confined_skip (h : IsSimple part) (depth : Nat) :
    Confined (skip (depth + 1)) part fun _ => True := by
  obtain ⟨width, n, fits, _, rfl⟩ := h
  have size : simpleSize? (UInt8.ofNat (32 * Major.simple.code + width.lowBits n)) = none ∨
      simpleSize? (UInt8.ofNat (32 * Major.simple.code + width.lowBits n)) =
        some (Bytes.ofNat width.size n).length := by
    rw [Bytes.length_ofNat]
    cases width with
    | inline =>
      by_cases named : 20 ≤ n
      · exact .inr (simpleSize?_inline named fits)
      · exact .inl (simpleSize?_unnamed (Nat.lt_of_not_le named))
    | one => exact .inl rfl
    | _ => exact .inr rfl
  intro rest a left eq
  rw [skip_simple fits] at eq
  rcases size with unknown | known
  · rw [unknown] at eq
    cases eq
  · rw [known] at eq
    exact (spells_take _).confined.discard rest a left eq

/-- Passing over an item takes all of it, or fails. -/
theorem Item.confined_skip (h : Item IsSimple levels part) (depth : Nat) :
    Confined (skip depth) part fun _ => True := by
  -- on what may still nest and not on the item, which may nest deeper and is then refused
  induction depth generalizing levels part with
  | zero => exact .refused fun _ => rfl
  | succ depth ih =>
    cases h with
    | integer isInteger isHead =>
      rw [← List.append_nil part]
      refine confined_skip_head isHead (by rcases isInteger with rfl | rfl <;> decide) ?_
      rcases isInteger with rfl | rfl <;> exact Confined.pure True.intro
    | string isString isChunk =>
      exact (spells_skip_chunk isString isChunk depth).confined.imp fun _ _ => True.intro
    | stringStream isString chunks =>
      refine confined_skip_stream (by tauto) fun part member => ?_
      obtain ⟨content, isChunk⟩ := chunks part member
      exact ⟨isChunk.begins, ih (Item.string isString isChunk : Item IsSimple 1 part)⟩
    | array isHead items =>
      have all := Confined.many id fun item member => ih (items item member)
      rw [List.flatMap_id] at all
      exact confined_skip_head isHead (by decide) all.discard
    | arrayStream items =>
      exact confined_skip_stream (.inr (.inr rfl)) fun item member =>
        ⟨(items item member).begins IsSimple.begins, ih (items item member)⟩
    | map isHead keys values =>
      have all := Confined.many (fun pair : Bytes × Bytes => pair.1 ++ pair.2)
        fun pair member => (ih (keys pair member)).append (ih (values pair member))
      exact confined_skip_head isHead (by decide) all.discard
    | mapStream keys values =>
      have all := Confined.stream (fun pair : Bytes × Bytes => pair.1 ++ pair.2)
        fun pair member => ⟨((keys pair member).begins IsSimple.begins).append pair.2,
          (ih (keys pair member)).append (ih (values pair member))⟩
      intro rest a left eq
      rw [List.cons_append, skip_mapStream] at eq
      exact all.discard rest a left eq
    | tag isHead item => exact confined_skip_head isHead (by decide) (ih item)
    | simple isSimple => exact isSimple.confined_skip depth

theorem confined_chunks {read : Read Bytes}
    (each : ∀ part ∈ parts, Begins part ∧ Confined read part (IsChunk major part)) :
    Confined (readChunks major read) (streamByte major :: (parts.flatten ++ [stopByte]))
      (IsString major (streamByte major :: (parts.flatten ++ [stopByte]))) := by
  have stream := Confined.stream id each
  rw [List.flatMap_id] at stream
  intro rest content left eq
  rw [List.cons_append, readChunks, if_pos rfl] at eq
  obtain ⟨⟨chunks, behind⟩, here, same⟩ := Option.bind_eq_some_iff.mp eq
  obtain ⟨rfl, related⟩ := stream rest _ _ here
  cases same
  exact ⟨rfl, .stream related⟩

/-- Reading a string takes all of it, or fails where it nests too deep. -/
theorem IsString.confined (h : IsString major part content) (depth : Nat) :
    Confined (readString major depth) part (IsString major part) := by
  cases h with
  | chunk isChunk =>
    refine (isChunk.spells depth).confined.imp ?_
    rintro _ rfl
    exact .chunk isChunk
  | stream chunks =>
    cases depth with
    | zero =>
      refine confined_chunks fun part member => ?_
      obtain ⟨content, _, isChunk⟩ := exists_of_forall₂ chunks member
      exact ⟨isChunk.begins, .refused fun _ => rfl⟩
    | succ depth =>
      refine confined_chunks fun part member => ?_
      obtain ⟨content, _, isChunk⟩ := exists_of_forall₂ chunks member
      refine ⟨isChunk.begins, (isChunk.spells depth).confined.imp ?_⟩
      rintro _ rfl
      exact isChunk

end Cbor

end DelegatedAuthority
