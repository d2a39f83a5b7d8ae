import DelegatedAuthority.Ability
import Mathlib.Data.List.Infix
/-!
The order of abilities, said of texts and of what continues them.

None of this asks for well-formed abilities: a credential may list any text, and a separator
may stand at its end or twice in a row.
-/
namespace DelegatedAuthority.Ability

theorem isDescent_iff {rest : List Char} :
    isDescent rest = true ↔ ∃ c others, rest = separator :: c :: others := by
  match rest with
  | [] => simp [isDescent]
  | [_] => simp [isDescent]
  | first :: c :: others => simp [isDescent]

theorem isDescent_append {rest : List Char} (h : isDescent rest = true) (more : List Char) :
    isDescent (rest ++ more) = true := by
  obtain ⟨c, others, rfl⟩ := isDescent_iff.mp h
  exact isDescent_iff.mpr ⟨c, others ++ more, rfl⟩

/-- What continues a path has two characters or more, and so is not the wildcard. -/
theorem wildcard_ne_append {rest : List Char} (h : isDescent rest = true) (text : List Char) :
    wildcard.toList ≠ text ++ rest := by
  obtain ⟨c, others, rfl⟩ := isDescent_iff.mp h
  intro eq
  have short : 1 = (text ++ separator :: c :: others).length := congrArg List.length eq
  simp only [List.length_append, List.length_cons] at short
  omega

theorem allows_iff {held required : Ability} : held.allows required = true ↔ held ≠ "" ∧
    (held = wildcard ∨ held = required ∨
      ∃ rest, isDescent rest = true ∧ required.toList = held.toList ++ rest) := by
  simp only [allows, isWildcard, Bool.and_eq_true, Bool.or_eq_true, bne_iff_ne, beq_iff_eq, or_assoc,
    eq_comm (a := required.toList), ← List.isPrefixOf?_eq_some_iff_append_eq]
  cases held.toList.isPrefixOf? required.toList <;> simp

theorem allows_trans {held between required : Ability} (first : held.allows between = true)
    (second : between.allows required = true) : held.allows required = true := by
  obtain ⟨nonempty, broad⟩ := allows_iff.mp first
  obtain ⟨_, narrow⟩ := allows_iff.mp second
  rcases broad with any | rfl | ⟨rest, descends, eq⟩
  · exact allows_iff.mpr ⟨nonempty, .inl any⟩
  · exact second
  · rcases narrow with rfl | rfl | ⟨more, _, eq'⟩
    · exact absurd eq (wildcard_ne_append descends _)
    · exact first
    · refine allows_iff.mpr ⟨nonempty, .inr (.inr ⟨rest ++ more, ?_, ?_⟩)⟩
      · exact isDescent_append descends more
      · rw [eq', eq, List.append_assoc]

theorem allows_refl {ability : Ability} (nonempty : ability ≠ "") :
    ability.allows ability = true :=
  allows_iff.mpr ⟨nonempty, .inr (.inl rfl)⟩

theorem wildcard_allows (required : Ability) : wildcard.allows required = true :=
  allows_iff.mpr ⟨by decide, .inl rfl⟩

theorem empty_allows (required : Ability) : allows "" required = false := rfl

/-- Nothing but the wildcard allows the empty ability, which continues no path. -/
theorem allows_empty_iff {held : Ability} : held.allows "" = true ↔ held = wildcard := by
  constructor
  · intro allows
    obtain ⟨nonempty, any | same | ⟨rest, _, eq⟩⟩ := allows_iff.mp allows
    · exact any
    · contradiction
    · have empty : held.toList = [] := (List.append_eq_nil_iff.mp eq.symm).1
      exact absurd (String.toList_eq_nil_iff.mp empty) nonempty
  · rintro rfl
    rfl

theorem isWellFormed_wildcard : isWellFormed wildcard = true := rfl

theorem ne_empty_of_isWellFormed {ability : Ability} (h : ability.isWellFormed = true) :
    ability ≠ "" := by
  rintro rfl
  cases h

end DelegatedAuthority.Ability
