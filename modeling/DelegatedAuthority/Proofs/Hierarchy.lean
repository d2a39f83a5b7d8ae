import DelegatedAuthority.Proofs.Segments
/-!
Abilities as a hierarchy, broad above narrow.

A credential may list any text, so the laws of an order are stated for all of them: separators at
the end, at the beginning or in a row, and an asterisk among other characters, make no exception.
Only the empty ability stands outside. That what is above one ability lies on a single line, as in
a forest, is true of well-formed abilities only.
-/
namespace DelegatedAuthority.Ability

variable {held other required : Ability}

/-- The wildcard aside, each has its segments at the beginning of the other's, so that there is no
room for more of them. -/
theorem allows_antisymm (down : held.allows required = true)
    (up : required.allows held = true) : held = required := by
  rcases segments_prefix_of_allows down with rfl | begins
  · exact (allows_wildcard_iff.mp up).symm
  · rcases segments_prefix_of_allows up with rfl | ends
    · exact allows_wildcard_iff.mp down
    · have same : held.segments = required.segments := begins.eq_of_length_le ends.length_le
      exact String.toList_injective (eq_of_segmentsOf_eq same)

/-- Of two well-formed abilities that allow the same, one allows the other: both begin it, and so
the shorter begins the longer. What they allow need not be well-formed. -/
theorem allows_or_allows (wellFormed : held.isWellFormed = true)
    (wellFormed' : other.isWellFormed = true) (first : held.allows required = true)
    (second : other.allows required = true) :
    held.allows other = true ∨ other.allows held = true := by
  rcases segments_prefix_of_allows first with rfl | begins
  · exact .inl (wildcard_allows other)
  · rcases segments_prefix_of_allows second with rfl | begins'
    · exact .inr (wildcard_allows held)
    · rcases List.prefix_or_prefix_of_prefix begins begins' with shorter | longer
      · left
        exact allows_iff_prefix wellFormed wellFormed' |>.mpr (.inr shorter)
      · right
        exact allows_iff_prefix wellFormed' wellFormed |>.mpr (.inr longer)

/-- To allow is a partial order of all texts but the empty one, with the wildcard on top and
nothing else as high. The empty text allows nothing. Below the wildcard, well-formed abilities are
a forest; other texts are not, as a bare separator at the end of one keeps it out of the line. -/
theorem allows_partial_order :
    (∀ ability : Ability, ability ≠ "" → ability.allows ability = true) ∧
    (∀ a b c : Ability, a.allows b = true → b.allows c = true → a.allows c = true) ∧
    (∀ a b : Ability, a.allows b = true → b.allows a = true → a = b) ∧
    (∀ required : Ability, wildcard.allows required = true) ∧
    (∀ held : Ability, held.allows wildcard = true ↔ held = wildcard) ∧
    (∀ required : Ability, allows "" required = false) ∧
    (∀ a b c : Ability, a.isWellFormed = true → b.isWellFormed = true →
      a.allows c = true → b.allows c = true → a.allows b = true ∨ b.allows a = true) ∧
    ∃ a b c : Ability, a.allows c = true ∧ b.allows c = true ∧
      a.allows b = false ∧ b.allows a = false := by
  refine ⟨fun _ => allows_refl, fun _ _ _ => allows_trans, fun _ _ => allows_antisymm,
    wildcard_allows, fun _ => allows_wildcard_iff, empty_allows, fun _ _ _ => allows_or_allows, ?_⟩
  exact ⟨"logs", "logs/", "logs//old", by decide⟩

/-- Texts that no table would accept, in the order that they have all the same. -/
theorem unkempt_ordered :
    allows "*/" "*/" = true ∧
    (allows "*/" "*//logs" = true ∧ allows "*//logs" "*//logs//" = true ∧
      allows "*/" "*//logs//" = true) ∧
    (allows "*//logs//" "*/" = false) ∧
    (allows "logs" "logs/old//" = true ∧ allows "logs/old" "logs/old//" = true ∧
      allows "logs" "logs/old" = true) := by
  obtain ⟨reflexive, transitive, antisymmetric, _, _, _, forest, _⟩ := allows_partial_order
  have down : allows "*/" "*//logs//" = true :=
    transitive _ "*//logs" _ (by decide) (by decide)
  refine ⟨reflexive _ (by decide), ⟨by decide, by decide, down⟩, ?_, by decide, by decide, ?_⟩
  · rw [Bool.eq_false_iff]
    intro up
    exact absurd (antisymmetric _ _ down up) (by decide)
  · have line := forest "logs" "logs/old" "logs/old//" (by decide) (by decide) (by decide) (by decide)
    exact line.resolve_right (by decide)

end DelegatedAuthority.Ability
