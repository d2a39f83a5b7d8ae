import DelegatedAuthority.Json.Writer
import DelegatedAuthority.Proofs.JsonReading
/-!
What is written denotes the value it was written from, and so is read back.

This holds of every value, the ill-formed one included: what is written is one of the many
spellings that the grammar has for it.
-/
namespace DelegatedAuthority.Json

variable {cs : List Char} {n : Nat} {v : Json}

theorem isHexDigit_digitChar (h : n < 16) : IsHexDigit n.digitChar n :=
  ⟨h, .inl rfl⟩

theorem ofUnit_toNat {c : Char} (h : c.toNat < 32) : Piece.ofUnit c.toNat = .char c := by
  have low : ¬(0xD800 ≤ c.toNat ∧ c.toNat ≤ 0xDFFF) := by omega
  rw [Piece.ofUnit, if_neg low, Char.ofNat_toNat]

/-- A character is written by a short escape, by its code point, or as it is. -/
theorem escape_cases (c : Char) :
    (∃ letter, (letter, c) ∈ shortEscapes ∧ escape c = ['\\', letter]) ∨
      (c.toNat < 32 ∧ escape c =
        ['\\', 'u', '0', '0', Nat.digitChar (c.toNat / 16), Nat.digitChar (c.toNat % 16)]) ∨
      c ≠ '"' ∧ c ≠ '\\' ∧ 32 ≤ c.toNat ∧ escape c = [c] := by
  fun_cases escape c with
  | case8 _ _ _ _ _ _ _ control => exact .inr (.inl ⟨control, rfl⟩)
  | case9 notQuote notBackslash _ _ _ _ _ printable =>
    exact .inr (.inr ⟨notQuote, notBackslash, Nat.le_of_not_lt printable, rfl⟩)
  | _ => exact .inl ⟨_, by simp [shortEscapes, *], rfl⟩

theorem SpellsPieces.escape {pieces : List Piece} (h : SpellsPieces cs pieces) (c : Char) :
    SpellsPieces (escape c ++ cs) (.char c :: pieces) := by
  rcases escape_cases c with
    ⟨letter, known, eq⟩ | ⟨control, eq⟩ | ⟨notQuote, notBackslash, printable, eq⟩
  · rw [eq]
    exact .short known h
  · have zero : IsHexDigit '0' 0 := isHexDigit_digitChar (by decide)
    have high : c.toNat / 16 < 16 := by omega
    have low : c.toNat % 16 < 16 := by omega
    have unit := SpellsPieces.unit zero zero (isHexDigit_digitChar high) (isHexDigit_digitChar low) h
    have sum : 0x1000 * 0 + 0x100 * 0 + 0x10 * (c.toNat / 16) + c.toNat % 16 = c.toNat := by omega
    rw [sum, ofUnit_toNat control] at unit
    rw [eq]
    exact unit
  · rw [eq]
    exact .plain notQuote notBackslash printable h

theorem spellsPieces_escaped (cs : List Char) :
    SpellsPieces (cs.flatMap escape) (cs.map .char) := by
  induction cs with
  | nil => exact .nil
  | cons c cs ih => exact ih.escape c

theorem joins_chars (cs : List Char) : Joins (cs.map .char) cs := by
  induction cs with
  | nil => exact .nil
  | cons c cs ih => exact .char ih

theorem spellsText_escaped (text : String) :
    SpellsText (text.toList.flatMap escape) (some text) := by
  refine ⟨_, spellsPieces_escaped text.toList, ?_⟩
  intro t
  have joined := (joins_chars text.toList).join?
  constructor
  · rintro ⟨⟩
    exact joins_chars text.toList
  · intro joins
    rw [joins.join?] at joined
    have same : t.toList = text.toList := Option.some.inj joined
    rw [String.toList_injective same]

theorem digitChar_ne_zero (pos : 0 < n) (lt : n < 10) : n.digitChar ≠ '0' := by
  have all : ∀ m < 10, 0 < m → m.digitChar ≠ '0' := by decide
  exact all n lt pos

/-- The digits of a positive number do not begin with a zero. -/
theorem toDigits_ne_zero_cons (pos : 0 < n) (rest : List Char) :
    Nat.toDigits 10 n ≠ '0' :: rest := by
  induction n using Nat.strongRecOn generalizing rest with
  | ind n ih =>
    intro zero
    by_cases one : n < 10
    · rw [Nat.toDigits_of_lt_base one] at zero
      exact digitChar_ne_zero pos one (List.cons.inj zero).1
    · have more := Nat.toDigits_of_base_le (b := 10) (by decide) (Nat.le_of_not_lt one)
      have some : Nat.toDigits 10 (n / 10) ≠ [] := Nat.toDigits_ne_nil
      obtain ⟨c, front, eq⟩ := List.exists_cons_of_ne_nil some
      rw [more, eq] at zero
      have first : c = '0' := (List.cons.inj zero).1
      exact ih (n / 10) (by omega) (by omega) front (first ▸ eq)

theorem isDigits_toDigits (n : Nat) : IsDigits (Nat.toDigits 10 n) :=
  ⟨Nat.toDigits_ne_nil, fun _ => Nat.isDigit_of_mem_toDigits (by decide) (by decide)⟩

/-- Digits are written without a needless zero in front. -/
theorem isWhole_toDigits (n : Nat) : IsWhole (Nat.toDigits 10 n) := by
  refine ⟨isDigits_toDigits n, ?_⟩
  intro rest zero
  cases Nat.eq_zero_or_pos n with
  | inl none =>
    subst none
    exact (List.cons.inj zero).2.symm
  | inr pos => exact absurd zero (toDigits_ne_zero_cons pos rest)

theorem isNumber_toDigits (n : Nat) : IsNumber (Nat.toDigits 10 n) (.natural n) := by
  have number := IsNumber.natural (isWhole_toDigits n)
  rwa [Nat.ofDigitChars_toDigits (by decide) (by decide)] at number

theorem isExponent_writeInt (e : Int) : IsExponent ('e' :: writeInt e) (some e) := by
  cases e with
  | ofNat n =>
    have exponent := IsExponent.unsigned (.inl rfl : 'e' = 'e' ∨ 'e' = 'E') (isDigits_toDigits n)
    rwa [Nat.ofDigitChars_toDigits (by decide) (by decide)] at exponent
  | negSucc n =>
    have exponent := IsExponent.negative (.inl rfl : 'e' = 'e' ∨ 'e' = 'E')
      (isDigits_toDigits (n + 1))
    rwa [Nat.ofDigitChars_toDigits (by decide) (by decide)] at exponent

theorem isNumber_writeDecimal (negative : Bool) (digits : Nat) (exponent : Int) :
    IsNumber (writeDecimal negative digits exponent) (.decimal negative digits exponent) := by
  have whole := isWhole_toDigits digits
  have letter := isExponent_writeInt exponent
  have value : Nat.ofDigitChars 10 (Nat.toDigits 10 digits ++ []) 0 = digits := by
    rw [List.append_nil, Nat.ofDigitChars_toDigits (by decide) (by decide)]
  cases negative with
  | false =>
    have number := IsNumber.positive whole .absent letter (.inr (List.cons_ne_nil _ _))
    simpa [writeDecimal, value] using number
  | true =>
    have number := IsNumber.negative whole .absent letter
    simpa [writeDecimal, value] using number

/-- One half of a character spells no text. -/
theorem spellsText_surrogate : SpellsText ['\\', 'u', 'd', '8', '0', '0'] none := by
  have zero : IsHexDigit '0' 0 := isHexDigit_digitChar (by decide)
  refine ⟨_, .unit (i := 13) (j := 8) (isHexDigit_digitChar (by decide))
    (isHexDigit_digitChar (by decide)) zero zero .nil, ?_⟩
  intro t
  constructor
  · exact nofun
  · exact nofun

theorem denotes_writeText (text : String) :
    Denotes (writeText text) (.value (.string text)) :=
  .string (spellsText_escaped text)

theorem blank_nil : Blank [] :=
  List.forall_mem_nil _

theorem Denotes.unpadded (h : Denotes cs (.value v)) : Denotes cs (.padded v) := by
  have padded := Denotes.padded blank_nil h blank_nil
  rwa [List.nil_append, List.append_nil] at padded

theorem denotes_member (name : String) (h : Denotes cs (.value v)) :
    Denotes (writeText name ++ ':' :: cs) (.member (some name) v) := by
  have member := Denotes.member blank_nil (spellsText_escaped name) blank_nil h.unpadded
  simpa [writeText] using member

/-- Members whose names are all texts. -/
theorem ofSpelledMembers_some (members : List (String × Json)) :
    ofSpelledMembers (members.map fun m => (some m.1, m.2)) = .object members := by
  have all : (members.mapM fun m => some (m.1, m.2)) = some members :=
    List.mapM_pure.trans (congrArg some (List.map_id members))
  simp only [ofSpelledMembers, List.mapM_map, Function.comp_def, Option.bind_eq_bind,
    Option.bind_some, Option.pure_def, all]

mutual

theorem denotes_write (v : Json) : Denotes v.write (.value v) := by
  match v with
  | .null => exact .nullWord
  | .bool true => exact .trueWord
  | .bool false => exact .falseWord
  | .natural n => exact .number (isNumber_toDigits n)
  | .decimal negative digits exponent =>
    exact .number (isNumber_writeDecimal negative digits exponent)
  | .string text => exact denotes_writeText text
  | .array [] => exact .emptyArray blank_nil
  | .array (first :: rest) =>
    obtain ⟨cs, eq, inside⟩ := denotes_writeElements (denotes_write first) rest
    rw [write, eq]
    exact .array inside
  | .object [] => exact .emptyObject blank_nil
  | .object ((name, v) :: rest) =>
    obtain ⟨cs, eq, inside⟩ := denotes_writeMembers name (denotes_write v) rest
    rw [write, eq, ← ofSpelledMembers_some]
    exact .object inside
  | .illFormed => exact .string spellsText_surrogate

theorem denotes_writeElements {first : Json} {front : List Char} (h : Denotes front (.value first))
    (rest : List Json) :
    ∃ cs, front ++ writeElements rest = cs ++ [']'] ∧ Denotes cs (.elements (first :: rest)) := by
  match rest with
  | [] => exact ⟨front, rfl, .lastElement h.unpadded⟩
  | next :: rest =>
    obtain ⟨cs, eq, inside⟩ := denotes_writeElements (denotes_write next) rest
    refine ⟨front ++ ',' :: cs, ?_, .moreElements h.unpadded inside⟩
    rw [writeElements, eq, List.append_assoc, List.cons_append]

theorem denotes_writeMembers (name : String) {v : Json} {value : List Char}
    (h : Denotes value (.value v)) (rest : List (String × Json)) :
    ∃ cs, writeText name ++ ':' :: (value ++ writeMembers rest) = cs ++ ['\x7d'] ∧
      Denotes cs (.members (((name, v) :: rest).map fun m => (some m.1, m.2))) := by
  match rest with
  | [] => exact ⟨_, by simp [writeMembers], .lastMember (denotes_member name h)⟩
  | (other, w) :: rest =>
    obtain ⟨cs, eq, inside⟩ := denotes_writeMembers other (denotes_write w) rest
    refine ⟨writeText name ++ ':' :: value ++ ',' :: cs, ?_,
      .moreMembers (denotes_member name h) inside⟩
    simp [writeMembers, eq]

end

/-- The text of a value denotes it. -/
theorem isText_render (v : Json) : IsText v.render v := by
  rw [IsText, render, String.toList_ofList]
  exact (denotes_write v).unpadded

end DelegatedAuthority.Json
