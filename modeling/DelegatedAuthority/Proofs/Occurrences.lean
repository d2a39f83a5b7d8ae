import Mathlib.Data.List.Induction
/-!
The first and the last in a list with a property, said by what stands before and after them.

Neither says how they are found. A list that grows at its front keeps its last, one that grows at
its end keeps its first, and how the other changes follows from the new element alone.
-/
namespace DelegatedAuthority

variable {α : Type} {p : α → Prop} {x y : α} {xs : List α}

def IsFirst (p : α → Prop) (xs : List α) (x : α) : Prop :=
  ∃ before after, xs = before ++ x :: after ∧ p x ∧ ∀ y ∈ before, ¬p y

def IsLast (p : α → Prop) (xs : List α) (x : α) : Prop :=
  ∃ before after, xs = before ++ x :: after ∧ p x ∧ ∀ y ∈ after, ¬p y

theorem find?_eq_some_iff_isFirst {p : α → Bool} :
    xs.find? p = some x ↔ IsFirst (fun x => p x = true) xs x := by
  simp only [List.find?_eq_some_iff_append, IsFirst, Bool.not_eq_true', Bool.not_eq_true]
  constructor
  · rintro ⟨holds, before, after, split, none⟩
    exact ⟨before, after, split, holds, none⟩
  · rintro ⟨before, after, split, holds, none⟩
    exact ⟨holds, before, after, split, none⟩

theorem IsFirst.holds (h : IsFirst p xs x) : p x := by
  obtain ⟨_, _, _, holds, _⟩ := h
  exact holds

theorem not_isFirst_nil : ¬IsFirst p [] x := by
  rintro ⟨before, after, split, _⟩
  exact List.append_ne_nil_of_right_ne_nil before (List.cons_ne_nil x after) split.symm

theorem isFirst_cons_iff : IsFirst p (y :: xs) x ↔ p y ∧ x = y ∨ ¬p y ∧ IsFirst p xs x := by
  constructor
  · rintro ⟨before, after, split, holds, none⟩
    cases before with
    | nil =>
      cases split
      exact .inl ⟨holds, rfl⟩
    | cons first before =>
      cases split
      obtain ⟨not, none⟩ := List.forall_mem_cons.mp none
      exact .inr ⟨not, before, after, rfl, holds, none⟩
  · rintro (⟨holds, rfl⟩ | ⟨not, before, after, rfl, holds, none⟩)
    · exact ⟨[], xs, rfl, holds, List.forall_mem_nil _⟩
    · exact ⟨y :: before, after, rfl, holds, List.forall_mem_cons.mpr ⟨not, none⟩⟩

theorem isLast_reverse_iff : IsLast p xs.reverse x ↔ IsFirst p xs x := by
  constructor
  · rintro ⟨before, after, split, holds, none⟩
    refine ⟨after.reverse, before.reverse, ?_, holds, ?_⟩
    · rw [← xs.reverse_reverse, split]
      simp
    · intro y member
      exact none y (List.mem_reverse.mp member)
  · rintro ⟨before, after, rfl, holds, none⟩
    refine ⟨after.reverse, before.reverse, by simp, holds, ?_⟩
    intro y member
    exact none y (List.mem_reverse.mp member)

theorem not_isLast_nil : ¬IsLast p [] x := by
  rintro ⟨before, after, split, _⟩
  exact List.append_ne_nil_of_right_ne_nil before (List.cons_ne_nil x after) split.symm

theorem isLast_concat_iff : IsLast p (xs ++ [y]) x ↔ p y ∧ x = y ∨ ¬p y ∧ IsLast p xs x := by
  rw [← xs.reverse_reverse, ← List.reverse_cons, isLast_reverse_iff, isFirst_cons_iff,
    isLast_reverse_iff]

theorem IsLast.mem (h : IsLast p xs x) : x ∈ xs := by
  obtain ⟨before, after, rfl, _, _⟩ := h
  exact List.mem_append_right before (List.mem_cons_self ..)

theorem IsLast.holds (h : IsLast p xs x) : p x := by
  obtain ⟨_, _, _, holds, _⟩ := h
  exact holds

/-- Where anything has the property, something is the last to have it. -/
theorem exists_isLast_iff : (∃ x, IsLast p xs x) ↔ ∃ x ∈ xs, p x := by
  constructor
  · rintro ⟨x, last⟩
    exact ⟨x, last.mem, last.holds⟩
  · rintro ⟨x, member, holds⟩
    induction xs using List.reverseRecOn with
    | nil => cases member
    | append_singleton xs y ih =>
      by_cases newest : p y
      · exact ⟨y, isLast_concat_iff.mpr (.inl ⟨newest, rfl⟩)⟩
      · rcases List.mem_append.mp member with earlier | here
        · obtain ⟨z, last⟩ := ih earlier
          exact ⟨z, isLast_concat_iff.mpr (.inr ⟨newest, last⟩)⟩
        · cases List.mem_singleton.mp here
          contradiction

end DelegatedAuthority
