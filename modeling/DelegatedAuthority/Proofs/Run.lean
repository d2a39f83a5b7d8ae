import DelegatedAuthority.Proofs.Descent
/-!
Runs of a search: what every step keeps holds at the end, and there is an end.

A step takes one entry off the stack and puts no more on it than it resolves. So entries and
resolutions that are left go down together, and a run of as many steps as there may be
resolutions leaves nothing to look at.
-/
namespace DelegatedAuthority

variable {κ α : Type}

namespace Search

theorem isOver_iff {s : Search κ α} : s.isOver = true ↔ s.reached ≠ none ∨ s.stack = [] := by
  simp [isOver, Option.ne_none_iff_isSome]

theorem not_isOver_iff {s : Search κ α} : s.isOver = false ↔
    s.reached = none ∧ ∃ entry rest, s.stack = entry :: rest := by
  simp [isOver, List.isEmpty_eq_false_iff, List.ne_nil_iff_exists_cons]

theorem outcome_eq_reached {s : Search κ α} {depth : Nat} :
    s.outcome = .reached depth ↔ s.reached = some depth := by
  unfold outcome
  cases s.reached with
  | some d => simp
  | none =>
    dsimp only
    split <;> simp

theorem outcome_eq_exhausted {s : Search κ α} : s.outcome = .exhausted ↔
    s.reached = none ∧ s.tooDeep = false ∧ s.tooMany = false := by
  unfold outcome
  cases s.reached with
  | some d => simp
  | none => cases s.tooDeep <;> cases s.tooMany <;> simp

theorem outcome_eq_truncated {s : Search κ α} : s.outcome = .truncated ↔
    s.reached = none ∧ (s.tooDeep = true ∨ s.tooMany = true) := by
  unfold outcome
  cases s.reached with
  | some d => simp
  | none => cases s.tooDeep <;> cases s.tooMany <;> simp

variable [DecidableEq κ]

/-- The entries on the stack and the resolutions that the bound still allows. -/
def remaining (limits : Limits) (s : Search κ α) : Nat :=
  s.stack.length + (limits.maxVisits.toNat - s.resolutions.length)

section

variable {graph : ProofGraph κ α} {limits : Limits} {quest : Quest α} {s : Search κ α}

theorem run_of_isOver {count : Nat} (ended : s.isOver = true) :
    run graph limits quest count s = s := by
  cases count with
  | zero => rfl
  | succ count => rw [run, if_pos ended]

theorem run_succ {count : Nat} (h : s.isOver = false) :
    run graph limits quest (count + 1) s =
      run graph limits quest count (s.step graph limits quest) := by
  rw [run, if_neg (by rw [h]; exact Bool.false_ne_true)]

/-- A run that has come to its end is not changed by more steps. -/
theorem run_of_le {count more : Nat} (le : count ≤ more)
    (ended : (run graph limits quest count s).isOver = true) :
    run graph limits quest more s = run graph limits quest count s := by
  induction count generalizing s more with
  | zero => exact run_of_isOver ended
  | succ count ih =>
    cases early : s.isOver with
    | true => rw [run_of_isOver early, run_of_isOver early]
    | false =>
      obtain ⟨extra, rfl⟩ := Nat.exists_eq_add_of_le' le
      rw [run_succ early] at ended ⊢
      rw [← Nat.add_assoc, run_succ early]
      exact ih (Nat.le_add_left count extra) ended

theorem run_induction {P : Search κ α → Prop}
    (kept : ∀ s entry rest, s.reached = none → s.stack = entry :: rest → P s →
      P (s.step graph limits quest)) (count : Nat) (h : P s) :
    P (run graph limits quest count s) := by
  induction count generalizing s with
  | zero => exact h
  | succ count ih =>
    cases ended : s.isOver with
    | true => rwa [run_of_isOver ended]
    | false =>
      obtain ⟨unreached, entry, rest, stack⟩ := not_isOver_iff.mp ended
      rw [run_succ ended]
      apply ih
      exact kept s entry rest unreached stack h

/-- Resolutions are only ever added. -/
theorem resolutions_prefix_run (graph : ProofGraph κ α) (limits : Limits) (quest : Quest α)
    (count : Nat) (s : Search κ α) :
    s.resolutions <+: (run graph limits quest count s).resolutions := by
  apply run_induction (P := fun t => s.resolutions <+: t.resolutions)
  · intro t entry rest _ stack earlier
    rcases step_cases graph limits quest stack with ⟨_, eq⟩ | ⟨_, eq⟩
    · rw [eq]
      exact earlier
    · obtain ⟨entries, resolved, below⟩ := descend_spec graph limits quest entry.node
        (entry.depth + 1) { t with stack := rest }
      rw [eq, below.resolutions]
      exact earlier.trans (List.prefix_append _ _)
  · exact List.prefix_refl _

theorem Descended.remaining_le {parent : α} {depth : Nat} {s' : Search κ α}
    {entries : List (Entry κ α)} {resolved : List κ}
    (h : Descended graph limits quest parent depth s entries resolved s') :
    s'.remaining limits ≤ s.remaining limits := by
  have fewer := h.entries_le
  have room := h.room
  simp only [remaining, h.stack, h.resolutions, List.length_append]
  omega

theorem remaining_step {entry : Entry κ α} {rest : List (Entry κ α)}
    (h : s.stack = entry :: rest) :
    (s.step graph limits quest).remaining limits < s.remaining limits := by
  have popped : ({ s with stack := rest } : Search κ α).remaining limits < s.remaining limits := by
    simp only [remaining, h, List.length_cons]
    omega
  rcases step_cases graph limits quest h with ⟨_, eq⟩ | ⟨_, eq⟩
  · rwa [eq]
  · -- what comes on the stack is no more than what is charged against the bound
    obtain ⟨entries, resolved, below⟩ := descend_spec graph limits quest entry.node
      (entry.depth + 1) { s with stack := rest }
    rw [eq]
    exact Nat.lt_of_le_of_lt below.remaining_le popped

theorem isOver_run (count : Nat) (enough : s.remaining limits ≤ count) :
    (run graph limits quest count s).isOver = true := by
  induction count generalizing s with
  | zero =>
    have empty : s.stack = [] := by
      unfold remaining at enough
      exact List.eq_nil_of_length_eq_zero (by omega)
    exact isOver_iff.mpr (.inr empty)
  | succ count ih =>
    cases ended : s.isOver with
    | true => rwa [run_of_isOver ended]
    | false =>
      obtain ⟨_, entry, rest, stack⟩ := not_isOver_iff.mp ended
      rw [run_succ ended]
      have less : (s.step graph limits quest).remaining limits < s.remaining limits :=
        remaining_step stack
      exact ih (by omega)

end

theorem remaining_first (graph : ProofGraph κ α) (limits : Limits) (quest : Quest α)
    (start : α) : (first graph limits quest start).remaining limits ≤ limits.maxVisits.toNat := by
  unfold first
  split
  · simp [remaining]
  · obtain ⟨entries, resolved, below⟩ := descend_spec graph limits quest start 1 {}
    simpa [remaining] using below.remaining_le

end Search

namespace ProofGraph

variable [DecidableEq κ] {graph : ProofGraph κ α} {limits : Limits} {quest : Quest α}

/-- The number of steps that a search is allowed is never what ends it. -/
theorem isOver_search (graph : ProofGraph κ α) (limits : Limits) (quest : Quest α) (start : α) :
    (graph.search limits quest start).isOver = true :=
  Search.isOver_run _ (Search.remaining_first graph limits quest start)

theorem stack_search {start : α} (unreached : (graph.search limits quest start).reached = none) :
    (graph.search limits quest start).stack = [] := by
  rcases Search.isOver_iff.mp (graph.isOver_search limits quest start) with reached | empty
  · contradiction
  · exact empty

/-- A start that satisfies the goal ends the search before anything is resolved. -/
theorem walk_of_goal {start : α} (goal : quest.goal start = true) (limits : Limits) :
    graph.walk limits quest start = ⟨.reached 0, []⟩ := by
  have found : Search.first graph limits quest start = { reached := some 0 } := if_pos goal
  rw [walk, search, found, Search.run_of_isOver rfl]
  rfl

/-- The search below `start` after a number of steps. -/
def searchAfter (graph : ProofGraph κ α) (limits : Limits) (quest : Quest α) (start : α)
    (count : Nat) : Search κ α :=
  Search.run graph limits quest count (Search.first graph limits quest start)

theorem searchAfter_of_isOver {start : α} {count more : Nat} (le : count ≤ more)
    (ended : (graph.searchAfter limits quest start count).isOver = true) :
    graph.searchAfter limits quest start more = graph.searchAfter limits quest start count :=
  Search.run_of_le le ended

theorem searchAfter_of_le {start : α} {count : Nat} (enough : limits.maxVisits.toNat ≤ count) :
    graph.searchAfter limits quest start count = graph.search limits quest start :=
  searchAfter_of_isOver enough (graph.isOver_search limits quest start)

/-- A search is a first look at the start, and then for each entry either a skip or a look at
the proofs of its node. -/
theorem searchAfter_induction {P : Search κ α → Prop} (start : α)
    (found : quest.goal start = true → P { reached := some 0 })
    (looked : ∀ entries resolved s, quest.goal start = false →
      Search.Descended graph limits quest start 1 {} entries resolved s → P s)
    (skipped : ∀ s entry rest, s.stack = entry :: rest → s.reached = none →
      s.followedAbove entry.key entry.depth = true → P s → P { s with stack := rest })
    (descended : ∀ s entry rest entries resolved s', s.stack = entry :: rest →
      s.reached = none → Search.Descended graph limits quest entry.node (entry.depth + 1)
        { s with stack := rest } entries resolved s' → P s → P s') (count : Nat) :
    P (graph.searchAfter limits quest start count) := by
  apply Search.run_induction
  · intro s entry rest unreached stack h
    rcases Search.step_cases graph limits quest stack with ⟨above, eq⟩ | ⟨_, eq⟩
    · rw [eq]
      exact skipped s entry rest stack unreached above h
    · obtain ⟨entries, resolved, below⟩ := Search.descend_spec graph limits quest entry.node
        (entry.depth + 1) { s with stack := rest }
      rw [eq]
      exact descended s entry rest entries resolved _ stack unreached below h
  · unfold Search.first
    cases goal : quest.goal start with
    | true => exact found goal
    | false =>
      obtain ⟨entries, resolved, below⟩ := Search.descend_spec graph limits quest start 1 {}
      exact looked entries resolved _ goal below

end ProofGraph

end DelegatedAuthority
