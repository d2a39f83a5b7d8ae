import DelegatedAuthority.Proofs.Blocks
import DelegatedAuthority.Proofs.Locality
import DelegatedAuthority.Proofs.Places
/-!
Rejections: what holds no delegation, and what becomes of it.

No block that holds a delegation goes on in another, so none can be cut short or added to. A map is
refused for a known key that stands twice, for one that is missing and for a null in place of a
list, wherever in the map that is and whatever else is in it, unless a key or a value in front of
that is read to another end than its own. A block that is refused might as well be missing.
-/
namespace DelegatedAuthority

open Cbor

namespace Delegation

variable {d d' : Delegation} {block more : Bytes} {entries : List Entry}
  {pair : Bytes × Bytes} {pairs early late : List (Bytes × Bytes)}

theorem decode_of_not_ok (h : ∀ d, decode block ≠ .ok d) : decode block = .error .undecodable := by
  cases decoded : decode? block with
  | none => rw [decode, decoded]
  | some d => exact absurd (decode_ok_iff.mpr decoded) (h d)

theorem eq_undecodable {e : AuthorizationError} (h : decode block = .error e) :
    e = .undecodable := by
  rw [decode] at h
  split at h
  · cases h
  · cases h
    rfl

/-- A block that holds a delegation is not the beginning of another. -/
theorem decode_prefix_free (h : decode block = .ok d) (h' : decode (block ++ more) = .ok d') :
    more = [] := by
  obtain ⟨entries, map, _⟩ := entries_of_decode h
  obtain ⟨entries', map', _⟩ := entries_of_decode h'
  obtain ⟨taken, same, spelt, _⟩ := takes_map (fun _ _ depth known => Entry.takes_reader depth known)
    nestingLimit _ _ _ map
  rw [List.append_nil] at same
  subst same
  -- what has been taken is taken again with more behind it, and then more is left
  rw [spelt more] at map'
  cases map'
  rfl

theorem not_twice {β : Type} {f : Entry → Option β} {e e' : Entry} {b b' : β} {o : Option β}
    (only : entries.filterMap f = o.toList) (twice : [e, e'].Sublist entries)
    (own : f e = some b) (own' : f e' = some b') : False := by
  have two := (twice.filterMap f).length_le
  rw [only] at two
  cases o <;> simp [own, own'] at two

/-- No two entries that give a delegation have the same key. -/
theorem key_ne_of_ofEntries? {e e' : Entry} (h : ofEntries? entries = some d)
    (twice : [e, e'].Sublist entries) : e.key ≠ e'.key := by
  obtain ⟨issuers, audiences, expiration, capabilities, proofs, expirations, lists, links, _⟩ :=
    lists_of_ofEntries? h
  intro same
  cases e <;> cases e' <;> simp [Entry.key] at same
  · exact not_twice (o := some d.issuer) issuers twice rfl rfl
  · exact not_twice (o := some d.audience) audiences twice rfl rfl
  · exact not_twice expirations twice rfl rfl
  · exact not_twice lists twice rfl rfl
  · exact not_twice links twice rfl rfl

/-- A map of definite length with these pairs of keys and values. -/
def IsMap (pairs : List (Bytes × Bytes)) (block : Bytes) : Prop :=
  ∃ head, IsHead .map pairs.length head ∧ block = head ++ pairs.flatMap fun pair => pair.1 ++ pair.2

/-- An entry that must not stand behind these: one with a known key that one of these has already,
or with a null in place of a list. -/
inductive Spoils (pair : Bytes × Bytes) (early : List (Bytes × Bytes)) : Prop
  | repeated {key : String} {first : Bytes × Bytes} : key ∈ Entry.keys → first ∈ early →
      IsText first.1 key → IsText pair.1 key → Spoils pair early
  | null {key : String} : key ∈ ["att", "prf"] → IsText pair.1 key → pair.2 = [nullByte] →
      Spoils pair early

/-- No issuer, or no audience. -/
def Lacking (pairs : List (Bytes × Bytes)) : Prop :=
  ∃ key ∈ ["iss", "aud"], ∀ pair ∈ pairs, ¬TakenFor pair.1 key

/-- One of the entries that stand one behind the other in front of these bytes is astray: its key is
read to another end than its own, or, if anything is behind it, the entry as a whole. -/
inductive Astray : List (Bytes × Bytes) → Bytes → Prop
  | key {pair : Bytes × Bytes} {pairs : List (Bytes × Bytes)} {behind : Bytes} :
      Strays (readText (nestingLimit - 1)) pair.1
        (pair.2 ++ ((pairs.flatMap fun pair => pair.1 ++ pair.2) ++ behind)) →
      Astray (pair :: pairs) behind
  | entry {pair : Bytes × Bytes} {pairs : List (Bytes × Bytes)} {behind : Bytes} :
      (pairs = [] → behind ≠ []) →
      Strays (readEntry Entry.reader? (nestingLimit - 1)) (pair.1 ++ pair.2)
        ((pairs.flatMap fun pair => pair.1 ++ pair.2) ++ behind) →
      Astray (pair :: pairs) behind
  | later {pair : Bytes × Bytes} {pairs : List (Bytes × Bytes)} {behind : Bytes} :
      Astray pairs behind → Astray (pair :: pairs) behind

/-- All keys and values are in their places. -/
def Apart (pairs : List (Bytes × Bytes)) : Prop :=
  ∀ pair ∈ pairs, Place.text.Holds pair.1 ∧
    ∀ name, TakenFor pair.1 name → (Entry.place name).Holds pair.2

theorem Apart.not_astray (h : Apart pairs) (behind : Bytes) : ¬Astray pairs behind := by
  intro astray
  induction astray with
  | key strays => exact (confined_text (h _ List.mem_cons_self).1 _).not_strays _ strays
  | entry _ strays =>
    obtain ⟨isKey, isValue⟩ := h _ List.mem_cons_self
    exact (confined_entry isKey isValue
      (fun name read known part holds => Entry.confined_reader _ known holds)
      (fun name unknown => Entry.place_of_unknown unknown)).not_strays _ strays
  | later _ ih => exact ih fun pair member => h pair (List.mem_cons_of_mem _ member)

/-- What an entry is read to if its key is read to its end. -/
inductive Given (pair : Bytes × Bytes) : Option Entry → Prop
  | nothing {name : String} {rest : Bytes} :
      readText (nestingLimit - 1) (pair.1 ++ rest) = some (name, rest) →
      Entry.reader? name = none → Given pair none
  | something {e : Entry} {rest : Bytes} :
      readText (nestingLimit - 1) (pair.1 ++ rest) = some (e.key, rest) → Given pair (some e)

theorem Entry.key_of_reading {α : Type} {entry : α → Entry} {read : NestedRead α}
    {reader : NestedRead Entry} {depth : Nat} {bytes left : Bytes} {e : Entry} {name : String}
    (known : reading entry read = some reader) (h : reader depth bytes = some (e, left))
    (own : ∀ a, (entry a).key = name) : e.key = name := by
  cases known
  obtain ⟨⟨a, rest⟩, _, same⟩ := Option.bind_eq_some_iff.mp h
  cases same
  exact own a

theorem Entry.key_of_reader {name : String} {read : NestedRead Entry} {depth : Nat}
    {bytes left : Bytes} {e : Entry} (known : reader? name = some read)
    (h : read depth bytes = some (e, left)) : e.key = name := by
  unfold reader? at known
  split at known
  · exact key_of_reading known h fun _ => rfl
  · exact key_of_reading known h fun _ => rfl
  · exact key_of_reading known h fun _ => rfl
  · exact key_of_reading known h fun _ => rfl
  · exact key_of_reading known h fun _ => rfl
  · cases known

theorem given_of_readEntry {behind left : Bytes} {o : Option Entry}
    (straight : ¬Strays (readText (nestingLimit - 1)) pair.1 (pair.2 ++ behind))
    (h : readEntry Entry.reader? (nestingLimit - 1) (pair.1 ++ pair.2 ++ behind) = some (o, left)) :
    Given pair o := by
  rw [List.append_assoc] at h
  obtain ⟨⟨name, between⟩, text, h⟩ := Option.bind_eq_some_iff.mp h
  obtain rfl := eq_of_not_strays straight text
  dsimp only at h
  cases reader : Entry.reader? name with
  | none =>
    rw [reader] at h
    obtain ⟨_, _, same⟩ := Option.bind_eq_some_iff.mp h
    cases same
    exact .nothing text reader
  | some read =>
    rw [reader] at h
    obtain ⟨⟨e, rest⟩, value, same⟩ := Option.bind_eq_some_iff.mp h
    cases same
    obtain rfl := Entry.key_of_reader reader value
    exact .something text

/-- What is read first of more entries, and what is left to read. Where an entry has nothing behind it
and nothing is left in the end, it has been read to its end. -/
theorem given_of_readMany {n : Nat} {behind left : Bytes} {list : List (Option Entry)}
    (straight : ¬Astray early behind) (last : behind = [] → n = 0 ∧ left = [])
    (h : readMany (readEntry Entry.reader? (nestingLimit - 1)) (early.length + n)
      ((early.flatMap fun pair => pair.1 ++ pair.2) ++ behind) = some (list, left)) :
    ∃ given others, List.Forall₂ Given early given ∧
      readMany (readEntry Entry.reader? (nestingLimit - 1)) n behind = some (others, left) ∧
      list = given ++ others := by
  induction early generalizing list with
  | nil =>
    rw [List.length_nil, Nat.zero_add] at h
    exact ⟨[], list, .nil, h, rfl⟩
  | cons pair early ih =>
    rw [List.length_cons, Nat.succ_add, List.flatMap_cons, List.append_assoc] at h
    obtain ⟨⟨o, between⟩, first, h⟩ := Option.bind_eq_some_iff.mp h
    obtain ⟨⟨more, final⟩, others, same⟩ := Option.bind_eq_some_iff.mp h
    cases same
    have ended : between = (early.flatMap fun pair => pair.1 ++ pair.2) ++ behind := by
      by_cases alone : early = [] ∧ behind = []
      · obtain ⟨rfl, rfl⟩ := alone
        obtain ⟨rfl, rfl⟩ := last rfl
        cases others
        rfl
      · exact eq_of_not_strays (fun strays => straight (.entry (not_and.mp alone) strays)) first
    subst ended
    have given : Given pair o := given_of_readEntry (fun strays => straight (.key strays)) first
    obtain ⟨list, rest, related, read, rfl⟩ := ih (fun astray => straight (.later astray)) others
    exact ⟨o :: list, rest, .cons given related, read, rfl⟩

/-- The entries that a map is read to: those of its first pairs, one by one, and then those of the
others. -/
theorem given_of_decode (isMap : IsMap (early ++ late) block)
    (straight : ¬Astray early (late.flatMap fun pair => pair.1 ++ pair.2))
    (last : (late.flatMap fun pair => pair.1 ++ pair.2) = [] → late = [])
    (h : decode block = .ok d) :
    ∃ given others, List.Forall₂ Given early given ∧
      readMany (readEntry Entry.reader? (nestingLimit - 1)) late.length
        (late.flatMap fun pair => pair.1 ++ pair.2) = some (others, []) ∧
      ofEntries? ((given ++ others).filterMap id) = some d := by
  obtain ⟨entries, map, eq⟩ := entries_of_decode h
  obtain ⟨head, isHead, rfl⟩ := isMap
  have limit : nestingLimit = nestingLimit - 1 + 1 := rfl
  rw [limit] at map
  obtain ⟨⟨count, behind⟩, told, map⟩ := Option.bind_eq_some_iff.mp map
  rw [isHead.spells] at told
  cases told
  obtain ⟨⟨all, left⟩, read, same⟩ := Option.bind_eq_some_iff.mp map
  cases same
  rw [List.length_append, List.flatMap_append] at read
  obtain ⟨given, others, related, rest, rfl⟩ :=
    given_of_readMany straight (fun empty => ⟨last empty ▸ rfl, rfl⟩) read
  exact ⟨given, others, related, rest, eq⟩

theorem Entry.reader?_of_mem {key : String} (h : key ∈ keys) : reader? key ≠ none := by
  simp only [keys, List.mem_cons, List.not_mem_nil, or_false] at h
  rcases h with rfl | rfl | rfl | rfl | rfl <;> simp [reader?, reading]

theorem not_strays_of_isText {key : String} {front : Bytes} (h : IsText front key) (behind : Bytes) :
    ¬Strays (readText (nestingLimit - 1)) front behind :=
  (h.spells (by decide)).confined.not_strays behind

theorem name_of_isText {name key : String} {front rest : Bytes} (isText : IsText front key)
    (h : readText (nestingLimit - 1) (front ++ rest) = some (name, rest)) : name = key := by
  rw [isText.spells (by decide) rest] at h
  cases h
  rfl

/-- An entry with a known key is read to one with that key. -/
theorem Given.something_of_isText {key : String} {o : Option Entry} (h : Given pair o)
    (isText : IsText pair.1 key) (known : key ∈ Entry.keys) : ∃ e, o = some e ∧ e.key = key := by
  cases h with
  | nothing text unknown =>
    rw [name_of_isText isText text] at unknown
    exact absurd unknown (Entry.reader?_of_mem known)
  | something text => exact ⟨_, rfl, name_of_isText isText text⟩

theorem readArray_null {α : Type} (read : NestedRead α) (depth : Nat) (rest : Bytes) :
    readArray read depth (nullByte :: rest) = none := by
  cases depth with
  | zero => rfl
  | succ depth =>
    rw [readArray, readHead_of_not_admits (by decide)]
    rfl

theorem readEntry_null {key : String} {front : Bytes} (listed : key ∈ ["att", "prf"])
    (isText : IsText front key) (rest : Bytes) :
    readEntry Entry.reader? (nestingLimit - 1) (front ++ nullByte :: rest) = none := by
  rw [readEntry, isText.spells (by decide)]
  simp only [List.mem_cons, List.not_mem_nil, or_false] at listed
  rcases listed with rfl | rfl <;> simp [Entry.reader?, Entry.reading, readArray_null]

theorem Spoils.isText (h : Spoils pair early) : ∃ key, IsText pair.1 key := by
  cases h with
  | repeated _ _ _ isText => exact ⟨_, isText⟩
  | null _ isText _ => exact ⟨_, isText⟩

/-- What is wrong with an entry is not made good by what is behind it. -/
theorem decode_spoilt (isMap : IsMap (early ++ pair :: late) block)
    (straight : ¬Astray early ((pair :: late).flatMap fun pair => pair.1 ++ pair.2))
    (spoils : Spoils pair early) : decode block = .error .undecodable := by
  refine decode_of_not_ok fun d ok => ?_
  obtain ⟨name, isName⟩ := spoils.isText
  obtain ⟨b, letters, starts, _⟩ := isName.cons
  obtain ⟨given, others, related, read, eq⟩ :=
    given_of_decode isMap straight (fun empty => by simp [starts] at empty) ok
  rw [List.flatMap_cons] at read
  obtain ⟨⟨o, behind⟩, first, read⟩ := Option.bind_eq_some_iff.mp read
  obtain ⟨⟨more, left⟩, _, same⟩ := Option.bind_eq_some_iff.mp read
  cases same
  cases spoils with
  | repeated known member isText isText' =>
    obtain ⟨o', listed, one⟩ := exists_of_forall₂ related member
    obtain ⟨e, rfl, own⟩ := one.something_of_isText isText known
    obtain ⟨e', rfl, own'⟩ :=
      (given_of_readEntry (not_strays_of_isText isText' _) first).something_of_isText isText' known
    have both : [some e, some e'].Sublist (given ++ some e' :: more) :=
      (List.singleton_sublist.mpr listed).append (List.singleton_sublist.mpr List.mem_cons_self)
    have twice : [e, e'].Sublist ((given ++ some e' :: more).filterMap id) := both.filterMap id
    exact key_ne_of_ofEntries? eq twice (own.trans own'.symm)
  | null listed isText null =>
    rw [null, List.append_assoc, List.singleton_append, readEntry_null listed isText] at first
    cases first

theorem decode_lacking (isMap : IsMap pairs block) (items : ∀ pair ∈ pairs, IsItem pair.1)
    (straight : ¬Astray pairs []) (lacking : Lacking pairs) :
    decode block = .error .undecodable := by
  refine decode_of_not_ok fun d ok => ?_
  obtain ⟨key, needed, absent⟩ := lacking
  rw [← List.append_nil pairs] at isMap
  obtain ⟨given, others, related, read, eq⟩ := given_of_decode isMap straight (fun _ => rfl) ok
  cases read
  rw [List.append_nil] at eq
  have present : ∀ e ∈ given.filterMap id, e.key ≠ key := by
    intro e member
    have listed : some e ∈ given := by simpa using member
    obtain ⟨pair, found, one⟩ := exists_of_forall₂ related.flip listed
    cases one with
    | something text =>
      rintro rfl
      exact absent pair found ((items pair found).takenFor text)
  obtain ⟨issued, addressed, _⟩ := mem_of_ofEntries? eq
  simp only [List.mem_cons, List.not_mem_nil, or_false] at needed
  rcases needed with rfl | rfl
  · exact present _ issued rfl
  · exact present _ addressed rfl

/-- A key that is given in the bytes of its text is not missing. -/
example : decode [0xa2, 0x43, 0x69, 0x73, 0x73, 0x61, 0x61, 0x63, 0x61, 0x75, 0x64, 0x61, 0x62] =
    .ok { issuer := "a", audience := "b" } := by
  decide +kernel

end Delegation

namespace Resolver

variable {fetch fetch' : Cid → Except AuthorizationError Bytes}
  {verify : Delegation → Except AuthorizationError Unit} {cid : Cid} {block : Bytes}
  {e : AuthorizationError}

theorem load_of_undecoded (fetched : fetch cid = .ok block)
    (undecoded : Delegation.decode block = .error e) :
    (ofBlocks fetch verify).load cid = .error e := by
  simp only [ofBlocks, fetched, bind, Except.bind, undecoded]

theorem resolve_of_undecoded (fetched : fetch cid = .ok block)
    (undecoded : Delegation.decode block = .error e) :
    (ofBlocks fetch verify).resolve cid = none := by
  rw [resolve, load_of_undecoded fetched undecoded]
  rfl

/-- A source that has lost what was under one identifier, and serves all else as before. -/
structure Loses (fetch fetch' : Cid → Except AuthorizationError Bytes) (cid : Cid) : Prop where
  missing : ∀ block, fetch' cid ≠ .ok block
  others : ∀ other, other ≠ cid → fetch' other = fetch other

/-- What could not be resolved is not missed. -/
theorem Loses.resolve (loses : Loses fetch fetch' cid)
    (unresolved : (ofBlocks fetch verify).resolve cid = none) (other : Cid) :
    (ofBlocks fetch' verify).resolve other = (ofBlocks fetch verify).resolve other := by
  by_cases same : other = cid
  · subst same
    rw [unresolved, Option.eq_none_iff_forall_ne_some]
    intro d found
    obtain ⟨block, fetched, _⟩ := resolve_ofBlocks.mp found
    exact loses.missing block fetched
  · rw [Resolver.resolve, load_ofBlocks_congr (loses.others other same), Resolver.resolve]

end Resolver

namespace Delegation

open Authorizer (reading depot depotService depotRequest)
open Resolver (shortProof)

/-- Neither a part of what a delegation is written to nor anything longer holds one. No more does a
map with an entry that spoils it, unless a key or a value in front of that entry is read to another
end than its own, nor a map without an issuer or an audience, unless a key or a value other than the
last is. None is that holds its place. Whatever holds no delegation is told to be undecodable, is not
resolved and gives no authority: all requests and revocations are decided as if the block were
lost. -/
theorem decode_rejects_malformed (d : Delegation) (h : d.Encodable) :
    (∀ front, front <+: d.encode → front ≠ d.encode → decode front = .error .undecodable) ∧
    (∀ rest, rest ≠ [] → decode (d.encode ++ rest) = .error .undecodable) ∧
    (∀ early pair late block, IsMap (early ++ pair :: late) block → Spoils pair early →
      decode block = .error .undecodable ∨
        Astray early ((pair :: late).flatMap fun pair => pair.1 ++ pair.2)) ∧
    (∀ pairs block, IsMap pairs block → (∀ pair ∈ pairs, IsItem pair.1) → Lacking pairs →
      decode block = .error .undecodable ∨ Astray pairs []) ∧
    (∀ pairs behind, Apart pairs → ¬Astray pairs behind) ∧
    ∀ block e, decode block = .error e → e.kind = .parseError ∧
      ∀ config fetch verify cid, fetch cid = .ok block →
        (Resolver.ofBlocks fetch verify).load cid = .error e ∧
        (Resolver.ofBlocks fetch verify).resolve cid = none ∧
        (∀ revoker, (reading config fetch verify).authorizeRevocationOf revoker cid =
          ⟨.error e, [cid]⟩) ∧
        ∀ fetch', Resolver.Loses fetch fetch' cid →
          (∀ request now, (reading config fetch' verify).authorizeAt request now =
            (reading config fetch verify).authorizeAt request now) ∧
          ∀ revoker target, (reading config fetch' verify).authorizeRevocation revoker target =
            (reading config fetch verify).authorizeRevocation revoker target := by
  have whole : decode d.encode = .ok d := decode_encode h
  refine ⟨?_, ?_, ?_, ?_, fun _ behind apart => apart.not_astray behind, ?_⟩
  · rintro front ⟨rest, same⟩ other
    refine decode_of_not_ok fun d' ok => other ?_
    rw [← same] at whole
    rw [← same, decode_prefix_free ok whole, List.append_nil]
  · intro rest more
    exact decode_of_not_ok fun d' ok => more (decode_prefix_free whole ok)
  · intro early pair late block isMap spoils
    rw [or_iff_not_imp_right]
    exact fun straight => decode_spoilt isMap straight spoils
  · intro pairs block isMap items lacking
    rw [or_iff_not_imp_right]
    exact fun straight => decode_lacking isMap items straight lacking
  · intro block e undecoded
    refine ⟨eq_undecodable undecoded ▸ rfl, ?_⟩
    intro config fetch verify cid fetched
    have loaded : (Resolver.ofBlocks fetch verify).load cid = .error e :=
      Resolver.load_of_undecoded fetched undecoded
    have unresolved : (Resolver.ofBlocks fetch verify).resolve cid = none :=
      Resolver.resolve_of_undecoded fetched undecoded
    refine ⟨loaded, unresolved, ?_, ?_⟩
    · intro revoker
      simp only [Authorizer.authorizeRevocationOf, reading, Resolver.authorizeRevocationOf, loaded]
    · intro fetch' loses
      constructor
      · intro request now
        exact Authorizer.authorizeAt_agree (a := reading config fetch verify) fun other _ =>
          loses.resolve unresolved other
      · intro revoker target
        exact Resolver.authorizeRevocation_agree fun other _ => loses.resolve unresolved other

/-- A delegation with a proof. -/
def ticket : Delegation where
  issuer := "a"
  audience := "b"
  expiration := some 7
  capabilities := [⟨"*", "r"⟩]
  proofs := [shortProof 1]

/-- An issuer, with a list of capabilities, a simple value that has no name and an audience that is
given in bytes. -/
def issued : List (Bytes × Bytes) :=
  [(writeText "iss", writeText "a"),
    (writeText "att", passList),
    (writeText "x", writeHeadIn .inline .simple 0),
    (writeText "aud", writeString .bytes [0x62])]

/-- A number for an issuer, under a key in a wide head. -/
def issuedAgain : Bytes × Bytes :=
  (writeHeadIn .two .text 3 ++ Bytes.ofText "iss", writeUnsigned 1)

def issuedTwice : List (Bytes × Bytes) :=
  issued ++ issuedAgain :: [(writeText "y", writeText "c")]

def issuedTwiceBlock : Bytes :=
  writeHead .map issuedTwice.length ++ issuedTwice.flatMap fun pair => pair.1 ++ pair.2

/-- An issuer that is given in bytes, and no audience. -/
def unaddressed : List (Bytes × Bytes) :=
  [(writeText "iss", writeString .bytes [0x61])]

theorem isText_wide : IsText (writeHeadIn .two .text 3 ++ Bytes.ofText "iss") "iss" :=
  .chunk ⟨_, ⟨.two, by decide, rfl⟩, rfl⟩

theorem holds_bytes (b : UInt8) : Place.text.Holds (writeString .bytes [b]) :=
  (isString_writeString .bytes (by simp [Width.bound])).holds (.inl rfl)

theorem issued_apart : Apart issued := by
  simp only [Apart, issued, List.forall_mem_cons]
  refine ⟨?_, ?_, ?_, ?_, List.forall_mem_nil _⟩
  · exact (isText_short (by decide)).holds_entry
      (Entry.IsSpelt.holds (.issuer (isText_short (by decide))))
  · exact (isText_short (by decide)).holds_entry
      (Entry.IsSpelt.holds (.capabilities (passList_isList IsSimple)))
  · exact (isText_short (by decide)).holds_entry
      (.any ⟨1, .simple ⟨.inline, 0, by decide, nofun, rfl⟩⟩)
  · exact (isText_short (by decide)).holds_entry (holds_bytes _)

theorem issuedAgain_spoils : Spoils issuedAgain issued :=
  .repeated (by decide : "iss" ∈ Entry.keys) List.mem_cons_self (isText_short (by decide)) isText_wide

theorem unaddressed_apart : Apart unaddressed :=
  List.forall_mem_singleton.mpr ((isText_short (by decide)).holds_entry (holds_bytes _))

theorem not_takenFor_short {key text : String} (short : key.utf8ByteSize < 24)
    (other : text ≠ key) : ¬TakenFor (writeText key) text :=
  fun taken => other (taken.unique (.text (isText_short short)))

theorem unaddressed_lacking : Lacking unaddressed :=
  ⟨"aud", by decide, List.forall_mem_singleton.mpr (not_takenFor_short (by decide) (by decide))⟩

/-- The depot with something else under the identifier of the delegation of the owner. -/
def depotWith (fetched : Except AuthorizationError Bytes) (cid : Cid) :
    Except AuthorizationError Bytes :=
  if cid = shortProof 1 then fetched else depot.get cid

theorem depotWith_loses (fetched : Except AuthorizationError Bytes) (e : AuthorizationError) :
    Resolver.Loses (depotWith fetched) (depotWith (.error e)) (shortProof 1) where
  missing block := by
    rw [depotWith, if_pos rfl]
    intro same
    cases same
  others other different := by
    rw [depotWith, depotWith, if_neg different, if_neg different]

theorem ticket_rejections : ticket.Encodable ∧
    decode (ticket.encode.take 40) = .error .undecodable ∧
    decode (ticket.encode ++ [nullByte]) = .error .undecodable ∧
    decode issuedTwiceBlock = .error .undecodable ∧
    decode [0xa1, 0x63, 0x69, 0x73, 0x73, 0x41, 0x61] = .error .undecodable ∧
    (Resolver.ofBlocks (depotWith (.ok issuedTwiceBlock)) fun _ => .ok ()).resolve
      (shortProof 1) = none ∧
    (reading depotService.config (depotWith (.error .undecodable)) fun _ => .ok ()).authorizeAt
      depotRequest 0 =
    (reading depotService.config (depotWith (.ok issuedTwiceBlock)) fun _ => .ok ()).authorizeAt
      depotRequest 0 := by
  have fits : ticket.Encodable := by
    refine ⟨by decide, by decide, by decide, ?_, by decide⟩
    exact List.forall_mem_singleton.mpr ⟨by decide, by decide⟩
  obtain ⟨short, long, spoilt, lacking, straight, refused⟩ := decode_rejects_malformed ticket fits
  have twice : decode issuedTwiceBlock = .error .undecodable :=
    (spoilt issued issuedAgain _ issuedTwiceBlock ⟨_, isHead_writeHead .map (by decide), rfl⟩
      issuedAgain_spoils).resolve_right (straight issued _ issued_apart)
  have nobody : decode [0xa1, 0x63, 0x69, 0x73, 0x73, 0x41, 0x61] = .error .undecodable := by
    refine (lacking unaddressed _ ⟨_, isHead_writeHead .map (by decide), by decide +kernel⟩ ?_
      unaddressed_lacking).resolve_right (straight unaddressed _ unaddressed_apart)
    exact List.forall_mem_singleton.mpr (IsString.isItem (isText_short (by decide)) (.inr rfl))
  obtain ⟨_, unresolved, _, missed⟩ := (refused issuedTwiceBlock _ twice).2 depotService.config
    (depotWith (.ok issuedTwiceBlock)) (fun _ => .ok ()) (shortProof 1) (if_pos rfl)
  exact ⟨fits, short _ (List.take_prefix 40 _) (by decide +kernel), long _ (by decide), twice, nobody,
    unresolved, (missed _ (depotWith_loses _ _)).1 depotRequest 0⟩

/-- A number under the key of the issuer, and no audience. -/
def numberedIssuer : List (Bytes × Bytes) :=
  [(writeText "iss", writeUnsigned 1), (writeText "caud", writeText "b")]

/-- A map without an audience may yet hold a delegation. The number is taken for the length of a
text, which is then the head of the key behind it, and the first letter of that key for the head of
another key. -/
theorem standIn_decoded : ¬∀ pairs block, IsMap pairs block →
    (∀ pair ∈ pairs, (∃ name, IsText pair.1 name) ∧ IsItem pair.2) →
    (∃ early pair late, pairs = early ++ pair :: late ∧ Spoils pair early) ∨ Lacking pairs →
    decode block = .error .undecodable := by
  intro refused
  have isMap : IsMap numberedIssuer [0xa2, 0x63, 0x69, 0x73, 0x73, 0x01, 0x64, 0x63, 0x61, 0x75, 0x64,
      0x61, 0x62] :=
    ⟨_, isHead_writeHead .map (by decide), by decide +kernel⟩
  have entries : ∀ pair ∈ numberedIssuer, (∃ name, IsText pair.1 name) ∧ IsItem pair.2 := by
    simp only [numberedIssuer, List.forall_mem_cons]
    exact ⟨⟨⟨_, isText_short (by decide)⟩, 1, .integer (.inl rfl)
        (isHead_writeHead .unsigned (by decide))⟩,
      ⟨⟨_, isText_short (by decide)⟩, IsString.isItem (isText_short (by decide)) (.inr rfl)⟩,
      List.forall_mem_nil _⟩
  have lacking : Lacking numberedIssuer := by
    refine ⟨"aud", by decide, ?_⟩
    simp only [numberedIssuer, List.forall_mem_cons]
    exact ⟨not_takenFor_short (by decide) (by decide), not_takenFor_short (by decide) (by decide),
      List.forall_mem_nil _⟩
  have read : decode [0xa2, 0x63, 0x69, 0x73, 0x73, 0x01, 0x64, 0x63, 0x61, 0x75, 0x64, 0x61, 0x62] =
      .ok { issuer := "d", audience := "b" } := by decide +kernel
  rw [refused _ _ isMap entries (.inr lacking)] at read
  cases read

end Delegation

end DelegatedAuthority
