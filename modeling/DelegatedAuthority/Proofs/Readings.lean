import DelegatedAuthority.Proofs.Spellings
import Mathlib.Algebra.BigOperators.Ring.Finset
import Mathlib.Algebra.Order.BigOperators.Group.List
import Mathlib.Algebra.Order.Group.Nat
/-!
Readings: what a reader takes off the bytes is a spelling of what it makes of them.

So a reading does not depend on what is behind it, and nothing is larger than the bytes it was
read from. Each reader is put together from few others, and so are these lemmas.
-/
namespace DelegatedAuthority

open Cbor

variable {α β : Type}

/-- Whatever is read was spelt by the bytes taken for it, which are no fewer than its size. -/
def Takes (size : α → Nat) (read : Read α) : Prop :=
  ∀ bytes a rest, read bytes = some (a, rest) →
    ∃ taken, bytes = taken ++ rest ∧ Spells read taken a ∧ size a ≤ taken.length

namespace Takes

variable {size size' : α → Nat} {total : β → Nat} {read : Read α}

theorem length_le (h : Takes size read) {bytes rest : Bytes} {a : α}
    (eq : read bytes = some (a, rest)) : size a + rest.length ≤ bytes.length := by
  obtain ⟨taken, rfl, _, enough⟩ := h bytes a rest eq
  rw [List.length_append]
  omega

theorem mono (h : Takes size read) (le : ∀ a, size' a ≤ size a) : Takes size' read := by
  intro bytes a rest eq
  obtain ⟨taken, same, spelt, enough⟩ := h bytes a rest eq
  exact ⟨taken, same, spelt, Nat.le_trans (le a) enough⟩

theorem nothing : Takes size fun _ => none := nofun

theorem pure {a : α} (h : size a = 0) : Takes size fun bytes => some (a, bytes) := by
  intro bytes b rest eq
  cases eq
  exact ⟨[], rfl, fun _ => rfl, Nat.le_of_eq h⟩

theorem lift {o : Option α} (h : ∀ a, o = some a → size a = 0) :
    Takes size fun bytes => do return (← o, bytes) := by
  cases o with
  | none => exact nothing
  | some a => exact pure (h a rfl)

theorem bind {after : α × Bytes → Option (β × Bytes)} (front : Takes size read)
    (back : ∀ a, Takes (fun b => total b - size a) fun bytes => after (a, bytes)) :
    Takes total fun bytes => read bytes >>= after := by
  intro bytes b rest eq
  cases first : read bytes with
  | none => simp [first] at eq
  | some result =>
    obtain ⟨a, between⟩ := result
    simp only [first, Option.bind_eq_bind, Option.bind_some] at eq
    obtain ⟨taken, rfl, spelt, enough⟩ := front bytes a between first
    obtain ⟨more, rfl, spelt', enough'⟩ := back a between b rest eq
    refine ⟨taken ++ more, by rw [List.append_assoc], ?_, ?_⟩
    · intro others
      simp only [List.append_assoc, spelt (more ++ others), Option.bind_eq_bind, Option.bind_some]
      exact spelt' others
    · dsimp only at enough'
      rw [List.length_append]
      omega

/-- A reader that looks at the first byte, and reads on from the next. -/
theorem cons (nil : read [] = none)
    (back : ∀ b, Takes (fun a => size a - 1) fun rest => read (b :: rest)) : Takes size read := by
  intro bytes a rest eq
  cases bytes with
  | nil =>
    rw [nil] at eq
    cases eq
  | cons b bytes =>
    obtain ⟨taken, rfl, spelt, enough⟩ := back b bytes a rest eq
    refine ⟨b :: taken, rfl, spelt, ?_⟩
    rw [List.length_cons]
    exact Nat.le_add_of_sub_le enough

/-- A reader that takes the first byte in any case, once that byte is known. -/
theorem behind (h : Takes size read) (pos : ∀ a, 0 < size a) (b : UInt8) :
    Takes (fun a => size a - 1) fun rest => read (b :: rest) := by
  intro bytes a rest eq
  obtain ⟨taken, same, spelt, enough⟩ := h (b :: bytes) a rest eq
  have some := pos a
  cases taken with
  | nil => exact absurd enough (Nat.not_le_of_lt some)
  | cons c taken =>
    cases same
    exact ⟨taken, rfl, spelt, Nat.sub_le_of_le_add enough⟩

end Takes

namespace Bytes

theorem takes_take? (n : Nat) : Takes List.length (take? n) := by
  intro bytes content rest eq
  rw [take?] at eq
  split at eq
  · cases eq
    refine ⟨bytes.take n, (List.take_append_drop n bytes).symm, ?_, Nat.le_refl _⟩
    intro others
    have taken := take?_append (bytes.take n) others
    rwa [List.length_take_of_le ‹_›] at taken
  · cases eq

theorem takes_readNat (width : Nat) : Takes (fun _ => 0) (readNat width) :=
  Takes.bind (takes_take? width) fun _ => Takes.pure (by simp)

end Bytes

namespace Cbor

theorem takes_argument (width : Width) (low : Nat) :
    Takes (fun _ => 0) (readArgument width low) := by
  cases width with
  | inline => exact Takes.pure rfl
  | _ => exact Bytes.takes_readNat _

theorem takes_head (major : Major) : Takes (fun _ => 1) (readHead major) := by
  refine Takes.cons rfl ?_
  intro b
  simp only [readHead]
  split
  · cases Width.ofLowBits? (b.toNat % 32) with
    | none => exact Takes.nothing
    | some width => exact takes_argument width _
  · exact Takes.nothing

theorem takes_many {size : α → Nat} {read : Read α} (h : Takes size read) (count : Nat) :
    Takes (fun list => (list.map size).sum) (readMany read count) := by
  induction count with
  | zero => exact Takes.pure rfl
  | succ count ih =>
    refine Takes.bind h fun a => Takes.bind ih fun list => Takes.pure ?_
    rw [List.map_cons, List.sum_cons]
    omega

theorem takes_unsigned : Takes (fun _ => 1) readUnsigned :=
  Takes.bind (takes_head .unsigned) fun _ => Takes.pure rfl

theorem takes_nullable {read : Read α} (h : Takes (fun _ => 1) read) :
    Takes (fun _ => 1) (readNullable read) := by
  refine Takes.cons rfl ?_
  intro b
  simp only [readNullable]
  split
  · exact Takes.pure rfl
  · refine Takes.bind (h.behind (fun _ => Nat.one_pos) b) fun a => ?_
    exact Takes.pure (a := some a) rfl

theorem takes_pair {size : α → Nat} {size' : β → Nat} {readFst : Read α} {readSnd : Read β}
    (h : Takes size readFst) (h' : Takes size' readSnd) :
    Takes (fun p => size p.1 + size' p.2) (readPair readFst readSnd) := by
  refine Takes.bind h fun a => Takes.bind h' fun b => Takes.pure ?_
  dsimp only
  omega

theorem takes_discard {size : α → Nat} {read : Read α} {least : Nat} (h : Takes size read)
    (le : ∀ a, least ≤ size a) : Takes (fun _ => least) (discard read) :=
  Takes.bind h fun a => Takes.pure (Nat.sub_eq_zero_of_le (le a))

theorem readUntilStop_spelt {size : α → Nat} {read : Read α} (h : Takes size read)
    (pos : ∀ a, 0 < size a) {limit : Nat} {bytes rest : Bytes} {list : List α}
    (eq : readUntilStop read limit bytes = some (list, rest)) :
    ∃ taken, bytes = taken ++ rest ∧ (list.map size).sum < taken.length ∧
      ∀ more, list.length < more → Spells (readUntilStop read more) taken list := by
  fun_induction readUntilStop read limit bytes generalizing list with
  | case1 => cases eq
  | case2 => cases eq
  | case3 limit bytes =>
    cases eq
    refine ⟨[stopByte], rfl, Nat.one_pos, ?_⟩
    intro more enough others
    cases more with
    | zero => cases enough
    | succ more => rw [List.singleton_append, readUntilStop, if_pos rfl]
  | case4 limit b bytes proper ih =>
    obtain ⟨⟨a, between⟩, first, eq⟩ := Option.bind_eq_some_iff.mp eq
    obtain ⟨⟨as, _⟩, others, eq⟩ := Option.bind_eq_some_iff.mp eq
    cases eq
    obtain ⟨taken, same, spelt, enough⟩ := h _ _ _ first
    obtain ⟨taken', rfl, enough', spelt'⟩ := ih between others
    refine ⟨taken ++ taken', ?_, ?_, ?_⟩
    · rw [same, List.append_assoc]
    · rw [List.map_cons, List.sum_cons, List.length_append]
      omega
    · intro more room behind
      have some := pos a
      cases more with
      | zero => cases room
      | succ more =>
        cases taken with
        | nil => exact absurd enough (Nat.not_le_of_lt some)
        | cons c taken =>
          cases same
          have here := spelt (taken' ++ behind)
          rw [List.cons_append] at here
          rw [List.append_assoc, List.cons_append, readUntilStop, if_neg proper, here]
          have there := spelt' more (Nat.lt_of_succ_lt_succ room) behind
          simp [there]

theorem length_le_sum {size : α → Nat} (pos : ∀ a, 0 < size a) (list : List α) :
    list.length ≤ (list.map size).sum := by
  rw [← List.length_map size]
  apply List.length_le_sum_of_one_le
  intro n member
  obtain ⟨a, _, rfl⟩ := List.mem_map.mp member
  exact pos a

theorem size_le_sum {size : α → Nat} {a : α} {list : List α} (h : a ∈ list) :
    size a ≤ (list.map size).sum :=
  List.le_sum_of_mem (List.mem_map_of_mem h)

theorem takes_stream {size : α → Nat} {read : Read α} (h : Takes size read)
    (pos : ∀ a, 0 < size a) : Takes (fun list => (list.map size).sum + 1) (readStream read) := by
  intro bytes list rest eq
  obtain ⟨taken, rfl, enough, spelt⟩ := readUntilStop_spelt h pos eq
  refine ⟨taken, rfl, ?_, enough⟩
  intro others
  have fewer := length_le_sum pos list
  apply spelt
  rw [List.length_append]
  omega

theorem takes_chunk (major : Major) :
    Takes (fun content => content.length + 1) (readChunk major) :=
  Takes.bind (takes_head major) fun n => (Bytes.takes_take? n).mono (by simp)

theorem takes_chunks (major : Major) {read : Read Bytes}
    (h : Takes (fun content => content.length + 1) read) :
    Takes (fun content => content.length + 1) (readChunks major read) := by
  refine Takes.cons rfl ?_
  intro b
  simp only [readChunks]
  split
  · refine Takes.bind (takes_stream h (by simp)) fun chunks => ?_
    dsimp only
    apply Takes.pure
    have all : (chunks.map fun c => c.length + 1).sum = chunks.flatten.length + chunks.length := by
      simp [List.length_flatten, List.sum_map_add]
    rw [all]
    omega
  · exact (takes_chunk major).behind (by simp) b

theorem takes_string (major : Major) (depth : Nat) :
    Takes (fun content => content.length + 1) (readString major depth) := by
  induction depth with
  | zero => exact takes_chunks major Takes.nothing
  | succ depth ih => exact takes_chunks major ih

theorem takes_ownString (major : Major) (depth : Nat) :
    Takes (fun content => content.length + 1) (readOwnString major depth) := by
  refine Takes.cons rfl ?_
  intro b
  simp only [readOwnString]
  split
  · exact (takes_string major depth).behind (by simp) b
  · exact Takes.nothing

theorem takes_text (depth : Nat) : Takes (fun text => text.utf8ByteSize + 1) (readText depth) := by
  refine Takes.bind (takes_string .text depth) fun content => Takes.lift ?_
  intro text valid
  rw [← Bytes.ofText_of_toText? valid, Bytes.length_ofText, Nat.sub_self]

theorem takes_array {size : α → Nat} {read : NestedRead α} (h : ∀ depth, Takes size (read depth))
    (depth : Nat) : Takes (fun list => (list.map size).sum + 1) (readArray read depth) := by
  cases depth with
  | zero => exact Takes.nothing
  | succ depth =>
    exact Takes.bind (takes_head .array) fun n => (takes_many (h depth) n).mono (by simp)

theorem takes_skip (depth : Nat) : Takes (fun _ => 1) (skip depth) := by
  induction depth with
  | zero => exact Takes.nothing
  | succ depth ih =>
    have items := takes_stream ih fun _ => Nat.one_pos
    have pairs := takes_stream (takes_pair ih ih) fun _ => Nat.succ_pos _
    refine Takes.cons rfl ?_
    intro b
    simp only [skip]
    split
    · split
      · exact takes_discard items (by simp)
      · exact takes_discard items (by simp)
      · exact takes_discard items (by simp)
      · exact takes_discard pairs (by simp)
      · exact Takes.nothing
    · split
      · cases simpleSize? b with
        | none => exact Takes.nothing
        | some size => exact takes_discard (Bytes.takes_take? size) (by simp)
      · refine Takes.bind ((takes_head _).behind (fun _ => Nat.one_pos) b) fun n => ?_
        split
        · exact takes_discard (Bytes.takes_take? n) (by simp)
        · exact takes_discard (Bytes.takes_take? n) (by simp)
        · exact takes_discard (takes_many ih n) (by simp)
        · exact takes_discard (takes_many (takes_pair ih ih) n) (by simp)
        · exact ih.mono (by simp)
        · exact Takes.pure (by simp)

/-- An entry of a map is a byte larger than what was made of it, if anything was. -/
theorem takes_entry {size : α → Nat} {known : String → Option (NestedRead α)} {depth : Nat}
    (h : ∀ key read, known key = some read → Takes size (read depth)) :
    Takes (fun entry => entry.elim 0 size + 1) (readEntry known depth) := by
  refine Takes.bind (takes_text depth) fun key => ?_
  dsimp only
  cases reader : known key with
  | none =>
    refine Takes.bind (takes_skip depth) fun _ => Takes.pure ?_
    dsimp only [Option.elim]
    omega
  | some read =>
    refine Takes.bind (h key read reader) fun a => ?_
    apply Takes.pure (a := some a)
    dsimp only [Option.elim]
    omega

theorem sum_known_le (size : α → Nat) (entries : List (Option α)) :
    ((entries.filterMap id).map size).sum ≤
      (entries.map fun entry => entry.elim 0 size + 1).sum := by
  induction entries with
  | nil => exact Nat.le_refl 0
  | cons entry entries ih =>
    rw [List.map_cons, List.sum_cons]
    cases entry with
    | none =>
      have passed : (none :: entries).filterMap id = entries.filterMap id := rfl
      rw [passed]
      omega
    | some a =>
      have kept : (some a :: entries).filterMap id = a :: entries.filterMap id := rfl
      rw [kept, List.map_cons, List.sum_cons, Option.elim_some]
      omega

theorem takes_map {size : α → Nat} {known : String → Option (NestedRead α)}
    (h : ∀ key read depth, known key = some read → Takes size (read depth)) (depth : Nat) :
    Takes (fun list => (list.map size).sum + 1) (readMap known depth) := by
  cases depth with
  | zero => exact Takes.nothing
  | succ depth =>
    have entry : Takes (fun entry => entry.elim 0 size + 1) (readEntry known depth) :=
      takes_entry fun key read reader => h key read depth reader
    refine Takes.bind (takes_head .map) fun n => Takes.bind (takes_many entry n) fun entries => ?_
    dsimp only
    apply Takes.pure
    have le := sum_known_le size entries
    omega

end Cbor

end DelegatedAuthority
