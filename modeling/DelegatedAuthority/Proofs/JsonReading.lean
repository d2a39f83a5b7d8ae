import DelegatedAuthority.Proofs.JsonGrammar
import Mathlib.Data.List.DropRight
/-!
Reading follows the grammar: whatever a text denotes is read from it.

Readers take as much as they can, so that what follows a number must not be able to continue it.
Inside a text a blank, a mark or the end follows, and none of these can.
-/
namespace DelegatedAuthority.Json

variable {cs rest blanks digits : List Char} {c : Char} {n : Nat} {v : Json}

theorem isBlank_of_mem (h : c ∈ [' ', '\t', '\n', '\r']) : isBlank c = true := by
  simpa [isBlank, or_assoc] using h

theorem skipBlanks_append (h : Blank blanks) (rest : List Char) :
    skipBlanks (blanks ++ rest) = skipBlanks rest :=
  List.dropWhile_append_of_pos fun c member => isBlank_of_mem (h c member)

theorem skipBlanks_cons (h : isBlank c = false) (rest : List Char) :
    skipBlanks (c :: rest) = c :: rest := by
  rw [skipBlanks, List.dropWhile_cons, h]
  rfl

/-- Behind blanks the first character that is none is found. -/
theorem skipBlanks_append_cons (before : Blank blanks) (h : isBlank c = false)
    (rest : List Char) : skipBlanks (blanks ++ c :: rest) = c :: rest := by
  rw [skipBlanks_append before, skipBlanks_cons h]

theorem hexValue?_digitChar (h : n < 16) :
    hexValue? n.digitChar = some n ∧ hexValue? n.digitChar.toUpper = some n := by
  decide +revert

theorem IsHexDigit.hexValue? (h : IsHexDigit c n) : hexValue? c = some n := by
  obtain ⟨lt, rfl | rfl⟩ := h
  · exact (hexValue?_digitChar lt).1
  · exact (hexValue?_digitChar lt).2

theorem unescape?_of_mem {letter : Char} (h : (letter, c) ∈ shortEscapes) :
    letter ≠ 'u' ∧ unescape? letter = some c := by
  have all : ∀ p ∈ shortEscapes, p.1 ≠ 'u' ∧ unescape? p.1 = some p.2 := by decide
  exact all _ h

theorem unit?_of_hexDigits {a b c d : Char} {i j k l : Nat} (first : IsHexDigit a i)
    (second : IsHexDigit b j) (third : IsHexDigit c k) (fourth : IsHexDigit d l) :
    unit? a b c d = some (0x1000 * i + 0x100 * j + 0x10 * k + l) := by
  have sum : (i * 16 + j) * 256 + k * 16 + l = 0x1000 * i + 0x100 * j + 0x10 * k + l := by omega
  simp [unit?, first.hexValue?, second.hexValue?, third.hexValue?, fourth.hexValue?, sum]

theorem SpellsPieces.read {pieces : List Piece} (h : SpellsPieces cs pieces) (rest : List Char) :
    readPieces (cs ++ '"' :: rest) = some (pieces, rest) := by
  induction h with
  | nil =>
    rw [List.nil_append, readPieces.eq_def]
    rfl
  | plain notQuote notBackslash printable _ ih =>
    rw [List.cons_append, readPieces.eq_def]
    simp [notQuote, notBackslash, Nat.not_lt.mpr printable, ih]
  | short escape _ ih =>
    obtain ⟨notUnit, char⟩ := unescape?_of_mem escape
    rw [List.cons_append, List.cons_append, readPieces.eq_def]
    simp [notUnit, char, ih]
  | unit first second third fourth _ ih =>
    rw [List.cons_append, readPieces.eq_def]
    simp [unit?_of_hexDigits first second third fourth, ih]

theorem Joins.join? {pieces : List Piece} (h : Joins pieces cs) :
    Piece.join? pieces = some cs := by
  induction h with
  | nil => rfl
  | char _ ih => simp [Piece.join?, ih]
  | pair high low _ ih => simp [Piece.join?, Piece.pair?, high, low, ih]

theorem joins_of_join? {pieces : List Piece} (h : Piece.join? pieces = some cs) :
    Joins pieces cs := by
  fun_induction Piece.join? pieces generalizing cs with
  | case1 =>
    cases h
    exact .nil
  | case2 c rest ih =>
    obtain ⟨others, joined, same⟩ := Option.bind_eq_some_iff.mp h
    cases same
    exact .char (ih joined)
  | case3 high low rest ih =>
    obtain ⟨c, paired, more⟩ := Option.bind_eq_some_iff.mp h
    obtain ⟨others, joined, same⟩ := Option.bind_eq_some_iff.mp more
    cases same
    rw [Piece.pair?] at paired
    split at paired
    · rename_i both
      rw [← Option.some.inj paired]
      exact .pair both.1 both.2 (ih joined)
    · cases paired
  | case4 => cases h

theorem SpellsText.read {text : Option String} (h : SpellsText cs text) (rest : List Char) :
    readText (cs ++ '"' :: rest) = some (text, rest) := by
  obtain ⟨pieces, spelt, joined⟩ := h
  have same : (Piece.join? pieces).map String.ofList = text := by
    ext t
    rw [joined, Option.map_eq_some_iff]
    constructor
    · rintro ⟨cs, eq, rfl⟩
      rw [String.toList_ofList]
      exact joins_of_join? eq
    · intro joins
      exact ⟨_, joins.join?, String.ofList_toList⟩
  simp [readText, spelt.read rest, same]

/-- What stands behind a number and cannot continue it. -/
def Ends (rest : List Char) : Prop :=
  ∀ c ∈ rest.head?, c.isDigit = false ∧ c ≠ '.' ∧ c ≠ 'e' ∧ c ≠ 'E'

theorem readDigits_append (h : IsDigits digits) (stop : ∀ c ∈ rest.head?, c.isDigit = false) :
    readDigits (digits ++ rest) = some (digits, rest) := by
  have none : rest.takeWhile Char.isDigit = [] ∧ rest.dropWhile Char.isDigit = rest := by
    cases rest with
    | nil => exact ⟨rfl, rfl⟩
    | cons c rest => simp [stop c rfl]
  obtain ⟨some, all⟩ := h
  rw [readDigits, List.takeWhile_append_of_pos all, List.dropWhile_append_of_pos all, none.1,
    none.2, List.append_nil]
  split
  · contradiction
  · rfl

theorem readWhole_append (h : IsWhole digits) (stop : ∀ c ∈ rest.head?, c.isDigit = false) :
    readWhole (digits ++ rest) = some (digits, rest) := by
  obtain ⟨digital, minimal⟩ := h
  simp only [readWhole, readDigits_append digital stop, Option.bind_eq_bind, Option.bind_some]
  split
  · cases minimal _ rfl
  · rfl

theorem IsFraction.read {point fraction : List Char} (h : IsFraction point fraction)
    (stop : ∀ c ∈ rest.head?, c.isDigit = false ∧ c ≠ '.') :
    readFraction (point ++ rest) = some (fraction, rest) := by
  cases h with
  | absent =>
    rw [List.nil_append, readFraction.eq_def]
    split
    · exact absurd rfl (stop _ rfl).2
    · rfl
  | present digital => exact readDigits_append digital fun c first => (stop c first).1

theorem IsDigits.ne_sign (h : IsDigits (c :: cs)) : c ≠ '-' ∧ c ≠ '+' := by
  have digit : c.isDigit = true := h.2 c (List.mem_cons_self ..)
  constructor <;> (rintro rfl; cases digit)

theorem readInt_append (h : IsDigits digits) (stop : ∀ c ∈ rest.head?, c.isDigit = false) :
    readInt (digits ++ rest) = some ((Nat.ofDigitChars 10 digits 0 : Int), rest) := by
  have read := readDigits_append h stop
  cases digits with
  | nil => exact absurd rfl h.1
  | cons c digits =>
    obtain ⟨notMinus, notPlus⟩ := h.ne_sign
    rw [readInt.eq_def]
    split
    · rename_i first
      cases first
      contradiction
    · rename_i first
      cases first
      contradiction
    · simp only [read, Option.bind_eq_bind, Option.bind_some, Option.pure_def]

theorem IsExponent.read {letter : List Char} {exponent : Option Int}
    (h : IsExponent letter exponent) (ends : Ends rest) :
    readExponent (letter ++ rest) = some (exponent, rest) := by
  have stop : ∀ c ∈ rest.head?, c.isDigit = false := fun c first => (ends c first).1
  cases h with
  | absent =>
    cases rest with
    | nil => rfl
    | cons c rest =>
      obtain ⟨_, _, notLower, notUpper⟩ := ends c rfl
      simp [readExponent, notLower, notUpper]
  | unsigned letter digital =>
    simp [readExponent, letter, readInt_append digital stop]
  | positive letter digital =>
    simp [readExponent, letter, readInt, readDigits_append digital stop]
  | negative letter digital =>
    simp [readExponent, letter, readInt, readDigits_append digital stop]

/-- Neither a digit nor a point stands in front of the letter of an exponent. -/
theorem IsExponent.stop {letter : List Char} {exponent : Option Int}
    (h : IsExponent letter exponent) (ends : Ends rest) :
    ∀ c ∈ (letter ++ rest).head?, c.isDigit = false ∧ c ≠ '.' := by
  intro c first
  cases h with
  | absent =>
    obtain ⟨notDigit, notPoint, _⟩ := ends c first
    exact ⟨notDigit, notPoint⟩
  | unsigned letter _ =>
    cases first
    rcases letter with rfl | rfl <;> decide
  | positive letter _ =>
    cases first
    rcases letter with rfl | rfl <;> decide
  | negative letter _ =>
    cases first
    rcases letter with rfl | rfl <;> decide

theorem IsFraction.stop {point fraction : List Char} (h : IsFraction point fraction)
    (stop : ∀ c ∈ rest.head?, c.isDigit = false ∧ c ≠ '.') :
    ∀ c ∈ (point ++ rest).head?, c.isDigit = false := by
  intro c first
  cases h with
  | absent => exact (stop c first).1
  | present _ =>
    cases first
    rfl

theorem readMagnitude_append {whole point fraction letter : List Char} {exponent : Option Int}
    (negative : Bool) (isWhole : IsWhole whole) (isFraction : IsFraction point fraction)
    (isExponent : IsExponent letter exponent) (ends : Ends rest) :
    readMagnitude negative (whole ++ point ++ letter ++ rest) = some
      (if !negative && fraction.isEmpty && exponent.isNone then
        .natural (Nat.ofDigitChars 10 (whole ++ fraction) 0)
      else .decimal negative (Nat.ofDigitChars 10 (whole ++ fraction) 0)
        (exponent.getD 0 - fraction.length), rest) := by
  have stop := isExponent.stop ends
  rw [List.append_assoc, List.append_assoc]
  simp only [readMagnitude, readWhole_append isWhole (isFraction.stop stop), isFraction.read stop,
    isExponent.read ends, Option.bind_eq_bind, Option.bind_some]
  split <;> rfl

theorem IsWhole.cons (h : IsWhole cs) : ∃ c rest, cs = c :: rest ∧ c.isDigit = true := by
  obtain ⟨⟨some, digital⟩, _⟩ := h
  obtain ⟨c, rest, rfl⟩ := List.exists_cons_of_ne_nil some
  exact ⟨c, rest, rfl, digital c (List.mem_cons_self ..)⟩

theorem readNumber_of_isDigit (h : c.isDigit = true) (cs : List Char) :
    readNumber (c :: cs) = readMagnitude false (c :: cs) := by
  rw [readNumber.eq_def]
  split
  · rename_i first
    cases first
    cases h
  · rfl

/-- A point or a letter tells a decimal from a natural number. -/
theorem isDecimal_of_marked {point fraction letter : List Char} {exponent : Option Int}
    (isFraction : IsFraction point fraction) (isExponent : IsExponent letter exponent)
    (marked : point ≠ [] ∨ letter ≠ []) : (fraction.isEmpty && exponent.isNone) = false := by
  cases isFraction with
  | absent => cases isExponent <;> simp at marked ⊢
  | present digital => simp [digital.1]

theorem IsNumber.read (h : IsNumber cs v) (ends : Ends rest) :
    readNumber (cs ++ rest) = some (v, rest) := by
  cases h with
  | natural isWhole =>
    obtain ⟨c, others, rfl, digit⟩ := isWhole.cons
    have read := readMagnitude_append false isWhole .absent .absent ends
    simp only [List.append_nil] at read
    rw [List.cons_append, readNumber_of_isDigit digit]
    exact read
  | positive isWhole isFraction isExponent marked =>
    obtain ⟨c, others, rfl, digit⟩ := isWhole.cons
    have read := readMagnitude_append false isWhole isFraction isExponent ends
    have isDecimal := isDecimal_of_marked isFraction isExponent marked
    rw [List.cons_append, List.cons_append, List.cons_append] at read ⊢
    rw [readNumber_of_isDigit digit, read]
    simp [isDecimal]
  | negative isWhole isFraction isExponent => 
    exact readMagnitude_append true isWhole isFraction isExponent ends

/-- What follows a value inside a text, behind blanks. -/
def Closes (rest : List Char) : Prop :=
  ∀ c ∈ rest.head?, c ∈ [',', ']', '\x7d']

theorem Closes.ends (h : Closes rest) (before : Blank blanks) : Ends (blanks ++ rest) := by
  intro c first
  have marks : ∀ c ∈ [' ', '\t', '\n', '\r', ',', ']', '\x7d'],
      c.isDigit = false ∧ c ≠ '.' ∧ c ≠ 'e' ∧ c ≠ 'E' := by simp [Char.isDigit]
  apply marks
  cases blanks with
  | nil => exact List.mem_append_right [' ', '\t', '\n', '\r'] (h c first)
  | cons blank blanks =>
    cases first
    exact List.mem_append_left [',', ']', '\x7d'] (before c (List.mem_cons_self ..))

theorem closes_cons (h : c ∈ [',', ']', '\x7d']) (rest : List Char) : Closes (c :: rest) := by
  rintro _ ⟨⟩
  exact h

theorem readValue_append (before : Blank blanks) (fuel : Nat) (rest : List Char) :
    readValue fuel (blanks ++ rest) = readValue fuel rest := by
  cases fuel with
  | zero => rw [readValue, readValue]
  | succ fuel => rw [readValue, readValue, skipBlanks_append before]

theorem skipBlanks_skipBlanks (cs : List Char) : skipBlanks (skipBlanks cs) = skipBlanks cs :=
  List.dropWhile_idempotent ..

theorem readElements_skipBlanks (fuel : Nat) (cs : List Char) :
    readElements fuel (skipBlanks cs) = readElements fuel cs := by
  cases fuel with
  | zero => rw [readElements, readElements]
  | succ fuel =>
    rw [readElements, readElements]
    cases fuel with
    | zero => rw [readValue, readValue]
    | succ fuel => rw [readValue, readValue, skipBlanks_skipBlanks]

theorem readMembers_skipBlanks (fuel : Nat) (cs : List Char) :
    readMembers fuel (skipBlanks cs) = readMembers fuel cs := by
  cases fuel with
  | zero => rw [readMembers, readMembers]
  | succ fuel => rw [readMembers, readMembers, skipBlanks_skipBlanks]

/-- Reading a stretch of a text gives what it denotes, and stops behind it. -/
def Phrase.ReadFrom (cs : List Char) : Phrase → Prop
  | value v => ∀ fuel rest, cs.length ≤ fuel → Ends rest →
      readValue fuel (cs ++ rest) = some (v, rest)
  | padded v => ∀ fuel rest, cs.length ≤ fuel → Closes rest →
      ∃ after, Blank after ∧ readValue fuel (cs ++ rest) = some (v, after ++ rest)
  | elements vs => ∀ fuel rest, cs.length < fuel →
      readElements fuel (cs ++ ']' :: rest) = some (vs, rest)
  | member name v => ∀ fuel rest, cs.length ≤ fuel → Closes rest →
      ∃ text value after tail, skipBlanks (cs ++ rest) = '"' :: text ∧
        readText text = some (name, after) ∧ skipBlanks after = ':' :: value ∧ Blank tail ∧
        readValue fuel value = some (v, tail ++ rest)
  | members ms => ∀ fuel rest, cs.length < fuel →
      readMembers fuel (cs ++ '\x7d' :: rest) = some (ms, rest)

theorem IsNumber.cons (h : IsNumber cs v) :
    ∃ c rest, cs = c :: rest ∧ (c.isDigit = true ∨ c = '-') := by
  cases h with
  | natural isWhole =>
    obtain ⟨c, rest, rfl, digit⟩ := isWhole.cons
    exact ⟨c, rest, rfl, .inl digit⟩
  | positive isWhole _ _ _ =>
    obtain ⟨c, rest, rfl, digit⟩ := isWhole.cons
    exact ⟨c, _, rfl, .inl digit⟩
  | negative _ _ _ => exact ⟨'-', _, rfl, .inr rfl⟩

/-- No other value begins as a number does. -/
theorem readValue_number (h : c.isDigit = true ∨ c = '-') (fuel : Nat) (rest : List Char) :
    readValue (fuel + 1) (c :: rest) = readNumber (c :: rest) := by
  have notBlank : isBlank c = false := by
    rw [isBlank]
    rcases h with digit | rfl
    · simp only [Bool.or_eq_false_iff, decide_eq_false_iff_not]
      refine ⟨⟨⟨?_, ?_⟩, ?_⟩, ?_⟩ <;> (rintro rfl; cases digit)
    · rfl
  have others : c ≠ '\x7b' ∧ c ≠ '[' ∧ c ≠ '"' ∧ c ≠ 'n' ∧ c ≠ 't' ∧ c ≠ 'f' := by
    refine ⟨?_, ?_, ?_, ?_, ?_, ?_⟩ <;> (rintro rfl; simp at h)
  simp [readValue, skipBlanks_cons notBlank, others]

theorem readElements_bracket (fuel : Nat) (rest : List Char) :
    readElements fuel (']' :: rest) = none := by
  cases fuel with
  | zero => rw [readElements]
  | succ fuel =>
    cases fuel with
    | zero => rw [readElements, readValue]; rfl
    | succ fuel =>
      rw [readElements, readValue.eq_def]
      rfl

theorem readMembers_brace (fuel : Nat) (rest : List Char) :
    readMembers fuel ('\x7d' :: rest) = none := by
  cases fuel with
  | zero => rw [readMembers]
  | succ fuel =>
    rw [readMembers]
    rfl

theorem readValue_bracket {fuel : Nat} {vs : List Json}
    (inside : readElements fuel cs = some (vs, rest)) :
    readValue (fuel + 1) ('[' :: cs) = some (.array vs, rest) := by
  rw [← readElements_skipBlanks] at inside
  rw [readValue, skipBlanks_cons rfl]
  simp only [Char.reduceEq, if_false, if_true]
  split
  · rename_i closed
    rw [closed, readElements_bracket] at inside
    cases inside
  · rw [inside]
    rfl

theorem readValue_brace {fuel : Nat} {ms : List (Option String × Json)}
    (inside : readMembers fuel cs = some (ms, rest)) :
    readValue (fuel + 1) ('\x7b' :: cs) = some (ofSpelledMembers ms, rest) := by
  rw [← readMembers_skipBlanks] at inside
  rw [readValue, skipBlanks_cons rfl]
  simp only [if_true]
  split
  · rename_i closed
    rw [closed, readMembers_brace] at inside
    cases inside
  · rw [inside]
    rfl

theorem Denotes.read {phrase : Phrase} (h : Denotes cs phrase) : phrase.ReadFrom cs := by
  induction h with
  | nullWord =>
    rintro (_ | fuel) rest enough _
    · contradiction
    · rw [readValue.eq_def]
      rfl
  | trueWord =>
    rintro (_ | fuel) rest enough _
    · contradiction
    · rw [readValue.eq_def]
      rfl
  | falseWord =>
    rintro (_ | fuel) rest enough _
    · contradiction
    · rw [readValue.eq_def]
      rfl
  | number number =>
    rintro (_ | fuel) rest enough ends
    · obtain ⟨c, cs, rfl, _⟩ := number.cons
      contradiction
    · obtain ⟨c, cs, rfl, first⟩ := number.cons
      rw [List.cons_append, readValue_number first]
      exact number.read ends
  | string spelt =>
    rintro (_ | fuel) rest enough _
    · contradiction
    · have text := spelt.read rest
      rw [readValue, List.cons_append, skipBlanks_cons rfl]
      simp [text]
  | emptyArray blanks =>
    rintro (_ | fuel) rest enough _
    · contradiction
    · have mark := skipBlanks_append_cons blanks (rfl : isBlank ']' = false) rest
      rw [readValue, List.cons_append, skipBlanks_cons rfl]
      simp [mark]
  | @array cs vs _ ih =>
    rintro (_ | fuel) rest enough _
    · contradiction
    · simp only [List.length_append, List.length_cons, List.length_nil] at enough
      rw [List.cons_append, List.append_assoc]
      exact readValue_bracket (ih fuel rest (by omega))
  | emptyObject blanks =>
    rintro (_ | fuel) rest enough _
    · contradiction
    · have mark := skipBlanks_append_cons blanks (rfl : isBlank '\x7d' = false) rest
      rw [readValue, List.cons_append, skipBlanks_cons rfl]
      simp [mark]
  | @object cs ms _ ih =>
    rintro (_ | fuel) rest enough _
    · contradiction
    · simp only [List.length_append, List.length_cons, List.length_nil] at enough
      rw [List.cons_append, List.append_assoc]
      exact readValue_brace (ih fuel rest (by omega))
  | padded before _ after ih =>
    intro fuel rest enough closes
    simp only [List.length_append] at enough
    refine ⟨_, after, ?_⟩
    rw [List.append_assoc, List.append_assoc, readValue_append before]
    exact ih fuel _ (by omega) (closes.ends after)
  | lastElement _ ih =>
    rintro (_ | fuel) rest enough
    · contradiction
    · obtain ⟨after, blanks, read⟩ := ih fuel (']' :: rest) (Nat.le_of_lt_succ enough)
        (closes_cons (by decide) rest)
      rw [readElements, read]
      simp [skipBlanks_append_cons blanks (rfl : isBlank ']' = false) rest]
  | @moreElements cs others v vs _ _ ihFirst ihRest =>
    rintro (_ | fuel) rest enough
    · contradiction
    · simp only [List.length_append, List.length_cons] at enough
      obtain ⟨after, blanks, read⟩ := ihFirst fuel (',' :: (others ++ ']' :: rest)) (by omega)
        (closes_cons (by decide) _)
      rw [List.append_assoc, List.cons_append, readElements, read]
      simp [skipBlanks_append_cons blanks (rfl : isBlank ',' = false),
        ihRest fuel rest (by omega)]
  | @member before cs after value name v blanks spelt blanks' _ ih =>
    intro fuel rest enough closes
    simp only [List.length_append, List.length_cons] at enough
    obtain ⟨tail, blanks'', read⟩ := ih fuel rest (by omega) closes
    have quote := skipBlanks_append_cons blanks (rfl : isBlank '"' = false)
      (cs ++ '"' :: (after ++ ':' :: (value ++ rest)))
    have colon := skipBlanks_append_cons blanks' (rfl : isBlank ':' = false) (value ++ rest)
    refine ⟨_, _, _, tail, ?_, spelt.read _, colon, blanks'', read⟩
    simpa using quote
  | lastMember _ ih =>
    rintro (_ | fuel) rest enough
    · contradiction
    · obtain ⟨text, value, after, tail, quote, name, colon, blanks, read⟩ :=
        ih fuel ('\x7d' :: rest) (Nat.le_of_lt_succ enough) (closes_cons (by decide) rest)
      rw [readMembers, quote]
      simp [name, colon, read, skipBlanks_append_cons blanks (rfl : isBlank '\x7d' = false)]
  | @moreMembers cs others name v ms _ _ ihFirst ihRest =>
    rintro (_ | fuel) rest enough
    · contradiction
    · simp only [List.length_append, List.length_cons] at enough
      obtain ⟨text, value, after, tail, quote, name, colon, blanks, read⟩ :=
        ihFirst fuel (',' :: (others ++ '\x7d' :: rest)) (by omega) (closes_cons (by decide) _)
      rw [List.append_assoc, List.cons_append, readMembers, quote]
      simp [name, colon, read, skipBlanks_append_cons blanks (rfl : isBlank ',' = false),
        ihRest fuel rest (by omega)]

/-- Whatever a text denotes is read from it. -/
theorem IsText.parse? {text : String} (h : IsText text v) : Json.parse? text = some v := by
  obtain ⟨after, blanks, read⟩ := Denotes.read h (2 * text.toList.length + 2) [] (by omega) nofun
  have ended : skipBlanks after = [] := by
    rw [← List.append_nil after, skipBlanks_append blanks]
    rfl
  rw [List.append_nil, List.append_nil] at read
  rw [Json.parse?, read]
  simp [ended]

end DelegatedAuthority.Json
