import DelegatedAuthority.Bytes
import DelegatedAuthority.Proofs.Abilities
/-!
Abilities as lists of segments.

Whether one ability allows another is decided on the texts, without taking them apart. On
well-formed abilities that comes to the same as comparing their segments: a path allows what its
segments begin.
-/
namespace DelegatedAuthority.Ability

variable {ability held required : Ability} {text other rest segment : List Char}
  {segments : List (List Char)}

theorem segmentsOf_eq_splitOn (text : List Char) : segmentsOf text = text.splitOn separator := by
  induction text with
  | nil => rfl
  | cons c rest ih =>
    rw [segmentsOf, List.splitOn_cons_eq_if_modifyHead, ih]
    by_cases cut : (c == separator) = true
    · rw [if_pos cut, if_pos cut]
    · rw [if_neg cut, if_neg cut]
      obtain ⟨segment, others, eq⟩ :=
        List.exists_cons_of_ne_nil (List.splitOn_ne_nil separator rest)
      rw [eq]
      rfl

theorem segmentsOf_ne_nil (text : List Char) : segmentsOf text ≠ [] := by
  rw [segmentsOf_eq_splitOn]
  exact List.splitOn_ne_nil separator text

/-- Segments hold no separator. -/
theorem separator_notMem (h : segment ∈ segmentsOf text) : separator ∉ segment := by
  induction text generalizing segment with
  | nil =>
    cases List.mem_singleton.mp h
    exact List.not_mem_nil
  | cons c rest ih =>
    obtain ⟨first, others, eq⟩ := List.exists_cons_of_ne_nil (segmentsOf_ne_nil rest)
    rw [eq] at ih
    rw [segmentsOf, eq] at h
    split at h
    · rcases List.mem_cons.mp h with rfl | later
      · exact List.not_mem_nil
      · exact ih later
    · rename_i kept
      rcases List.mem_cons.mp h with rfl | later
      · have apart := ih (List.mem_cons_self ..)
        intro member
        rcases List.mem_cons.mp member with same | within
        · exact kept (beq_iff_eq.mpr same.symm)
        · exact apart within
      · exact ih (List.mem_cons_of_mem first later)

theorem intercalate_segmentsOf (text : List Char) :
    [separator].intercalate (segmentsOf text) = text := by
  rw [segmentsOf_eq_splitOn, List.intercalate_splitOn]

theorem segmentsOf_intercalate (nonempty : segments ≠ [])
    (separated : ∀ segment ∈ segments, separator ∉ segment) :
    segmentsOf ([separator].intercalate segments) = segments := by
  rw [segmentsOf_eq_splitOn, List.splitOn_intercalate separator separated nonempty]

theorem segmentsOf_append (text rest : List Char) :
    segmentsOf (text ++ separator :: rest) = segmentsOf text ++ segmentsOf rest := by
  simp only [segmentsOf_eq_splitOn, List.splitOn_append_cons_self]

/-- No two texts have the same segments. -/
theorem eq_of_segmentsOf_eq (h : segmentsOf text = segmentsOf other) : text = other := by
  rw [← intercalate_segmentsOf text, h, intercalate_segmentsOf]

/-- The segments of a text begin those of another if that is the same, or goes on with a
separator. -/
theorem segmentsOf_prefix_iff : segmentsOf text <+: segmentsOf other ↔
    text = other ∨ ∃ rest, other = text ++ separator :: rest := by
  constructor
  · rintro ⟨more, eq⟩
    by_cases ended : more = []
    · rw [ended, List.append_nil] at eq
      exact .inl (eq_of_segmentsOf_eq eq)
    · have separated : ∀ segment ∈ more, separator ∉ segment := by
        intro segment member
        have among : segment ∈ segmentsOf other := by
          rw [← eq]
          exact List.mem_append_right _ member
        exact separator_notMem among
      rw [← segmentsOf_intercalate ended separated, ← segmentsOf_append] at eq
      exact .inr ⟨_, (eq_of_segmentsOf_eq eq).symm⟩
  · rintro (rfl | ⟨rest, rfl⟩)
    · exact List.prefix_refl _
    · rw [segmentsOf_append]
      exact List.prefix_append _ _

/-- What may stand between separators in a well-formed path. -/
structure IsSegment (segment : List Char) : Prop where
  nonempty : segment ≠ []
  separated : separator ∉ segment
  named : segment ≠ wildcard.toList

instance (segment : List Char) : Decidable (IsSegment segment) :=
  decidable_of_iff (segment ≠ [] ∧ separator ∉ segment ∧ segment ≠ wildcard.toList)
    ⟨fun ⟨nonempty, separated, named⟩ => ⟨nonempty, separated, named⟩,
      fun ⟨nonempty, separated, named⟩ => ⟨nonempty, separated, named⟩⟩

/-- The path of some segments, with separators between them. -/
def ofSegments (segments : List (List Char)) : Ability :=
  String.ofList ([separator].intercalate segments)

theorem ofSegments_segments (ability : Ability) : ofSegments ability.segments = ability := by
  rw [ofSegments, Ability.segments, intercalate_segmentsOf, String.ofList_toList]

theorem segments_ofSegments (nonempty : segments ≠ [])
    (separated : ∀ segment ∈ segments, separator ∉ segment) :
    (ofSegments segments).segments = segments := by
  rw [ofSegments, Ability.segments, String.toList_ofList,
    segmentsOf_intercalate nonempty separated]

theorem isSegment_iff (separated : separator ∉ segment) :
    (!segment.isEmpty && segment != wildcard.toList) = true ↔ IsSegment segment := by
  rw [Bool.and_eq_true, Bool.not_eq_true', List.isEmpty_eq_false_iff, bne_iff_ne]
  constructor
  · rintro ⟨nonempty, named⟩
    exact ⟨nonempty, separated, named⟩
  · rintro ⟨nonempty, _, named⟩
    exact ⟨nonempty, named⟩

theorem isWellFormed_iff : ability.isWellFormed = true ↔ ability = wildcard ∨
    ∀ segment ∈ ability.segments, IsSegment segment := by
  rw [isWellFormed, isWildcard, Bool.or_eq_true, beq_iff_eq, List.all_eq_true]
  exact or_congr_right (forall₂_congr fun _ member => isSegment_iff (separator_notMem member))

/-- No segment of a well-formed ability is empty. The wildcard is its own segment. -/
theorem nonempty_of_isWellFormed (h : ability.isWellFormed = true)
    (member : segment ∈ ability.segments) : segment ≠ [] := by
  rcases isWellFormed_iff.mp h with rfl | proper
  · cases List.mem_singleton.mp member
    exact List.cons_ne_nil _ _
  · exact (proper segment member).nonempty

/-- A separator at the end of a well-formed ability is impossible, so that whatever goes on with
a separator goes on with more. -/
theorem isDescent_of_isWellFormed (h : required.isWellFormed = true)
    (eq : required.toList = text ++ separator :: rest) : isDescent (separator :: rest) = true := by
  cases rest with
  | nil =>
    have last : [] ∈ required.segments := by
      rw [Ability.segments, eq, segmentsOf_append]
      exact List.mem_append_right _ (List.mem_singleton_self _)
    exact absurd rfl (nonempty_of_isWellFormed h last)
  | cons c others => exact isDescent_iff.mpr ⟨c, others, rfl⟩

/-- Whatever allows something is the wildcard or begins it, segment by segment, well-formed or
not. The converse fails where no more than a separator follows. -/
theorem segments_prefix_of_allows (h : held.allows required = true) :
    held = wildcard ∨ held.segments <+: required.segments := by
  rw [Ability.segments, Ability.segments, segmentsOf_prefix_iff]
  obtain ⟨_, any | same | ⟨rest, descends, eq⟩⟩ := allows_iff.mp h
  · exact .inl any
  · exact .inr (.inl (congrArg String.toList same))
  · obtain ⟨c, others, rfl⟩ := isDescent_iff.mp descends
    exact .inr (.inr ⟨c :: others, eq⟩)

theorem allows_iff_prefix (broad : held.isWellFormed = true)
    (narrow : required.isWellFormed = true) :
    held.allows required = true ↔ held = wildcard ∨ held.segments <+: required.segments := by
  constructor
  · exact segments_prefix_of_allows
  · rw [allows_iff, Ability.segments, Ability.segments, segmentsOf_prefix_iff]
    rintro (any | same | ⟨rest, eq⟩)
    · exact ⟨ne_empty_of_isWellFormed broad, .inl any⟩
    · exact ⟨ne_empty_of_isWellFormed broad, .inr (.inl (String.toList_injective same))⟩
    · exact ⟨ne_empty_of_isWellFormed broad, .inr (.inr ⟨separator :: rest,
        isDescent_of_isWellFormed narrow eq, eq⟩)⟩

/-- A remainder continues a path if it is longer than a separator and begins with one. It is the
same whether bytes or characters are counted, as a separator is the single byte `2f`. -/
theorem isDescent_iff_bytes {rest : String} : isDescent rest.toList = true ↔
    1 < (Bytes.ofText rest).length ∧ (Bytes.ofText rest).head? = some 0x2f := by
  rw [isDescent_iff]
  constructor
  · rintro ⟨c, others, eq⟩
    have split : rest = "/" ++ String.ofList (c :: others) := by
      apply String.toList_injective
      simp [eq, separator]
    have more : 0 < (String.ofList (c :: others)).utf8ByteSize := by
      apply Nat.pos_of_ne_zero
      rw [Ne, String.utf8ByteSize_eq_zero_iff, String.ofList_eq_empty_iff]
      exact List.cons_ne_nil _ _
    rw [split, Bytes.ofText_append]
    refine ⟨?_, rfl⟩
    rw [List.length_append, Bytes.length_ofText, Bytes.length_ofText]
    exact Nat.add_lt_add_left more 1
  · rintro ⟨long, begins⟩
    obtain ⟨bytes, eq⟩ := List.head?_eq_some_iff.mp begins
    have slash : Bytes.ofText rest = Bytes.ofText "/" ++ bytes := eq
    obtain ⟨more, rfl, rfl⟩ := Bytes.exists_of_ofText_eq_append slash
    cases split : more.toList with
    | nil =>
      -- nothing but the separator
      rw [String.toList_eq_nil_iff.mp split] at long
      exact absurd long (by decide)
    | cons c others =>
      refine ⟨c, others, ?_⟩
      simp [split, separator]

/-- What continues a text is found on bytes as it is on characters. -/
theorem exists_isDescent_iff_bytes :
    (∃ rest, isDescent rest = true ∧ required.toList = held.toList ++ rest) ↔
      ∃ rest, Bytes.ofText required = Bytes.ofText held ++ rest ∧ 1 < rest.length ∧
        rest.head? = some 0x2f := by
  constructor
  · rintro ⟨rest, descends, eq⟩
    have split : required = held ++ String.ofList rest := by
      apply String.toList_injective
      rw [eq, String.toList_append, String.toList_ofList]
    rw [← String.toList_ofList (l := rest)] at descends
    refine ⟨Bytes.ofText (String.ofList rest), ?_, isDescent_iff_bytes.mp descends⟩
    rw [split, Bytes.ofText_append]
  · rintro ⟨rest, eq, descends⟩
    obtain ⟨more, rfl, rfl⟩ := Bytes.exists_of_ofText_eq_append eq
    exact ⟨more.toList, isDescent_iff_bytes.mpr descends, String.toList_append⟩

/-- Only the wildcard allows the wildcard, well-formed or not. -/
theorem allows_wildcard_iff : held.allows wildcard = true ↔ held = wildcard := by
  constructor
  · intro allows
    obtain ⟨nonempty, any | same | ⟨rest, descends, eq⟩⟩ := allows_iff.mp allows
    · exact any
    · exact same
    · exact absurd eq (wildcard_ne_append descends _)
  · rintro rfl
    rfl

/-- Well-formed are the wildcard and the paths of proper segments, at least one. The test whether
one ability allows another looks at bytes only. Among well-formed abilities the wildcard allows
everything, and a path allows just those that its segments begin. So only the wildcard allows the
wildcard, and a segment that begins like another is another all the same. -/
theorem allows_by_segments :
    (∀ ability : Ability, ability.isWellFormed = true ↔ ability = wildcard ∨
      ∃ segments ≠ [], (∀ segment ∈ segments, IsSegment segment) ∧
        ability = ofSegments segments) ∧
    (∀ segments ≠ [], (∀ segment ∈ segments, IsSegment segment) →
      (ofSegments segments).segments = segments) ∧
    (∀ held required : Ability, held.allows required = true ↔ held ≠ "" ∧
      (held = wildcard ∨ held = required ∨
        ∃ rest, Bytes.ofText required = Bytes.ofText held ++ rest ∧ 1 < rest.length ∧
          rest.head? = some 0x2f)) ∧
    (∀ held required : Ability, held.isWellFormed = true → required.isWellFormed = true →
      (held.allows required = true ↔ held = wildcard ∨ held.segments <+: required.segments)) ∧
    (∀ held : Ability, held.allows wildcard = true ↔ held = wildcard) ∧
    admin.allows "tlog/administer" = false := by
  have joined : ∀ segments ≠ [], (∀ segment ∈ segments, IsSegment segment) →
      (ofSegments segments).segments = segments := fun _ nonempty proper =>
    segments_ofSegments nonempty fun segment member => (proper segment member).separated
  refine ⟨?_, joined, ?_, fun _ _ => allows_iff_prefix, fun _ => allows_wildcard_iff, by decide⟩
  · intro ability
    rw [isWellFormed_iff]
    constructor
    · rintro (any | proper)
      · exact .inl any
      · exact .inr ⟨ability.segments, segmentsOf_ne_nil _, proper, (ofSegments_segments _).symm⟩
    · rintro (any | ⟨segments, nonempty, proper, rfl⟩)
      · exact .inl any
      · right
        rwa [joined segments nonempty proper]
  · intro held required
    rw [allows_iff, exists_isDescent_iff_bytes]

/-- A path of segments in any script, one of which begins with an asterisk. -/
def archive : List (List Char) := ["архив".toList, "*2024".toList]

theorem archive_allows : (ofSegments archive).isWellFormed = true ∧
    (ofSegments archive).allows (ofSegments (archive ++ ["🔒".toList])) = true ∧
    (ofSegments archive).allows (ofSegments ["архив".toList, "*2024🔒".toList]) = false := by
  obtain ⟨wellFormed, joined, _, allows, _, _⟩ := allows_by_segments
  have proper : ∀ segment ∈ archive, IsSegment segment := by decide
  have proper' : ∀ segment ∈ archive ++ ["🔒".toList], IsSegment segment := by decide
  have proper'' : ∀ segment ∈ ["архив".toList, "*2024🔒".toList], IsSegment segment := by decide
  have held : (ofSegments archive).isWellFormed = true :=
    (wellFormed _).mpr (.inr ⟨archive, by decide, proper, rfl⟩)
  have below : (ofSegments (archive ++ ["🔒".toList])).isWellFormed = true :=
    (wellFormed _).mpr (.inr ⟨_, by decide, proper', rfl⟩)
  have beside : (ofSegments ["архив".toList, "*2024🔒".toList]).isWellFormed = true :=
    (wellFormed _).mpr (.inr ⟨_, by decide, proper'', rfl⟩)
  refine ⟨held, (allows _ _ held below).mpr (.inr ?_), ?_⟩
  · rw [joined _ (by decide) proper, joined _ (by decide) proper']
    exact List.prefix_append _ _
  · rw [Bool.eq_false_iff, Ne, allows _ _ held beside, joined _ (by decide) proper,
      joined _ (by decide) proper'']
    decide

end DelegatedAuthority.Ability
