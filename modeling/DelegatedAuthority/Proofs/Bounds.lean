import DelegatedAuthority.Proofs.Run
import Mathlib.Data.Nat.Find
/-!
What a search costs at most, on any graph.

A key may be resolved many times and followed more than once, so neither the keys nor the stack
alone bound a search. But every hop below an entry costs at least one resolution, and so an entry
is never deeper than the number of resolutions that were made until it came on the stack.
-/
namespace DelegatedAuthority

variable {κ α : Type}

namespace Search

variable {graph : ProofGraph κ α} {limits : Limits} {quest : Quest α} {parent : α} {depth : Nat}
  {s s' : Search κ α}

/-- What the bounds leave a search, at any time. -/
structure Bounded (limits : Limits) (s : Search κ α) : Prop where
  resolutions : s.resolutions.length ≤ limits.maxVisits.toNat
  stack : ∀ e ∈ s.stack, 1 ≤ e.depth ∧ e.depth ≤ limits.maxDepth.toNat ∧
    e.depth ≤ s.resolutions.length
  receding : Receding s.followed

theorem Bounded.skip {entry : Entry κ α} {rest : List (Entry κ α)} (h : Bounded limits s)
    (stack : s.stack = entry :: rest) : Bounded limits { s with stack := rest } := by
  refine ⟨h.resolutions, ?_, h.receding⟩
  intro e member
  apply h.stack
  rw [stack]
  exact List.mem_cons_of_mem entry member

/-- What a step from `s` to `next` has put on the stack, in front of what it left there. -/
def pushed (s next : Search κ α) : List (Entry κ α) :=
  next.stack.take (next.stack.length - s.stack.tail.length)

theorem pushed_eq {entry : Entry κ α} {rest entries : List (Entry κ α)}
    (stack : s.stack = entry :: rest) (front : s'.stack = entries ++ rest) :
    pushed s s' = entries := by
  simp [pushed, stack, front]

/-- Entries as they are noted, the latest first. -/
def notes (entries : List (Entry κ α)) : List (κ × Nat) :=
  (entries.map fun e => (e.key, e.depth)).reverse

theorem notes_append (earlier later : List (Entry κ α)) :
    notes (earlier ++ later) = notes later ++ notes earlier := by
  simp [notes]

variable [DecidableEq κ]

/-- A look one hop below what the resolutions so far have paid for. -/
theorem Bounded.descend {entries : List (Entry κ α)} {resolved : List κ} (h : Bounded limits s)
    (below : Descended graph limits quest parent (depth + 1) s entries resolved s')
    (paid : depth ≤ s.resolutions.length) : Bounded limits s' := by
  have made : s'.resolutions.length = s.resolutions.length + resolved.length := by
    rw [below.resolutions, List.length_append]
  refine ⟨?_, ?_, below.receding h.receding⟩
  · have room := below.room
    have within := h.resolutions
    omega
  · intro e member
    rw [below.stack] at member
    rcases List.mem_append.mp member with new | old
    · obtain ⟨at_depth, _, _⟩ := below.edges e new
      have shallow := below.depth_le new
      -- an entry costs a resolution of this look, on top of what was paid for its parent
      have cost : 0 < resolved.length := List.length_pos_iff.mpr (below.resolved_ne_nil new)
      omega
    · obtain ⟨positive, shallow, earlier⟩ := h.stack e old
      exact ⟨positive, shallow, by omega⟩

/-- All that a run puts on the stack, step by step. -/
def pushes (graph : ProofGraph κ α) (limits : Limits) (quest : Quest α) :
    Nat → Search κ α → List (Entry κ α)
  | 0, _ => []
  | count + 1, s =>
    if s.isOver then []
    else
      let next := s.step graph limits quest
      pushed s next ++ pushes graph limits quest count next

theorem pushes_of_isOver {count : Nat} (ended : s.isOver = true) :
    pushes graph limits quest count s = [] := by
  cases count with
  | zero => rfl
  | succ count => rw [pushes, if_pos ended]

theorem pushes_succ {count : Nat} (h : s.isOver = false) :
    pushes graph limits quest (count + 1) s = pushed s (s.step graph limits quest) ++
      pushes graph limits quest count (s.step graph limits quest) := by
  rw [pushes, if_neg (by rw [h]; exact Bool.false_ne_true)]

theorem Descended.notes {entries : List (Entry κ α)} {resolved : List κ}
    (h : Descended graph limits quest parent depth s entries resolved s') :
    s'.followed = notes entries ++ s.followed := by
  have same : entries.map (fun e => (e.key, depth)) = entries.map fun e => (e.key, e.depth) := by
    apply List.map_congr_left
    intro e member
    rw [(h.edges e member).1]
  rw [h.followed, same]
  rfl

theorem notes_step {entry : Entry κ α} {rest : List (Entry κ α)} (stack : s.stack = entry :: rest) :
    (s.step graph limits quest).followed =
      notes (pushed s (s.step graph limits quest)) ++ s.followed := by
  rcases step_cases graph limits quest stack with ⟨_, eq⟩ | ⟨_, eq⟩
  · have none : pushed s { s with stack := rest } = [] := pushed_eq stack rfl
    rw [eq, none]
    rfl
  · obtain ⟨entries, resolved, below⟩ := descend_spec graph limits quest entry.node
      (entry.depth + 1) { s with stack := rest }
    rw [eq, pushed_eq stack below.stack]
    exact below.notes

theorem notes_run (count : Nat) : (run graph limits quest count s).followed =
    notes (pushes graph limits quest count s) ++ s.followed := by
  induction count generalizing s with
  | zero => rfl
  | succ count ih =>
    cases ended : s.isOver with
    | true =>
      rw [run_of_isOver ended, pushes_of_isOver ended]
      rfl
    | false =>
      obtain ⟨_, entry, rest, stack⟩ := not_isOver_iff.mp ended
      rw [run_succ ended, pushes_succ ended, ih, notes_step stack, notes_append, List.append_assoc]

theorem notes_first (graph : ProofGraph κ α) (limits : Limits) (quest : Quest α) (start : α) :
    (first graph limits quest start).followed =
      notes (first graph limits quest start).stack := by
  unfold first
  split
  · rfl
  · obtain ⟨entries, resolved, below⟩ := descend_spec graph limits quest start 1 {}
    rw [below.notes, below.stack]
    simp

end Search

namespace ProofGraph

variable [DecidableEq κ] {graph : ProofGraph κ α} {limits : Limits} {quest : Quest α} {start : α}

theorem bounded_searchAfter (graph : ProofGraph κ α) (limits : Limits) (quest : Quest α)
    (start : α) (count : Nat) :
    Search.Bounded limits (graph.searchAfter limits quest start count) := by
  have empty : Search.Bounded limits ({} : Search κ α) := ⟨Nat.zero_le _, nofun, .nil⟩
  apply searchAfter_induction
  · intro _
    exact ⟨Nat.zero_le _, nofun, .nil⟩
  · intro entries resolved s _ below
    exact empty.descend below (Nat.zero_le _)
  · intro s entry rest stack _ _ h
    exact h.skip stack
  · intro s entry rest entries resolved s' stack _ below h
    obtain ⟨_, _, paid⟩ := h.stack entry (by rw [stack]; exact List.mem_cons_self ..)
    exact (h.skip stack).descend below paid

/-- All entries that the search below `start` puts on the stack, in the order it does. -/
def pushes (graph : ProofGraph κ α) (limits : Limits) (quest : Quest α) (start : α) :
    List (Entry κ α) :=
  let s := Search.first graph limits quest start
  s.stack ++ Search.pushes graph limits quest limits.maxVisits.toNat s

theorem followed_search (graph : ProofGraph κ α) (limits : Limits) (quest : Quest α) (start : α) :
    (graph.search limits quest start).followed =
      Search.notes (graph.pushes limits quest start) := by
  rw [pushes, Search.notes_append, search, Search.notes_run, Search.notes_first]

theorem pushes_receding (graph : ProofGraph κ α) (limits : Limits) (quest : Quest α) (start : α) :
    (graph.pushes limits quest start).Pairwise fun earlier later =>
      earlier.key = later.key → later.depth < earlier.depth := by
  have receding := (graph.bounded_searchAfter limits quest start limits.maxVisits.toNat).receding
  rw [searchAfter_of_le (Nat.le_refl _), followed_search, Receding, Search.notes,
    List.pairwise_reverse, List.pairwise_map] at receding
  refine receding.imp ?_
  intro earlier later less same
  exact less same.symm

/-- The steps of a search can be counted, and are no more than the resolutions it is allowed. -/
theorem searchAfter_ends (graph : ProofGraph κ α) (limits : Limits) (quest : Quest α)
    (start : α) : ∃ count ≤ limits.maxVisits.toNat,
      (∀ i < count, (graph.searchAfter limits quest start i).isOver = false) ∧
        ∀ i, count ≤ i → (graph.searchAfter limits quest start i).isOver = true ∧
          graph.searchAfter limits quest start i = graph.search limits quest start := by
  have ends : ∃ count, (graph.searchAfter limits quest start count).isOver = true :=
    ⟨limits.maxVisits.toNat, graph.isOver_search limits quest start⟩
  have soon : Nat.find ends ≤ limits.maxVisits.toNat :=
    Nat.find_min' ends (graph.isOver_search limits quest start)
  refine ⟨Nat.find ends, soon, ?_, ?_⟩
  · intro i less
    exact Bool.eq_false_iff.mpr (Nat.find_min ends less)
  · intro i later
    have same : graph.searchAfter limits quest start i = graph.search limits quest start := by
      rw [searchAfter_of_isOver later (Nat.find_spec ends),
        ← searchAfter_of_isOver soon (Nat.find_spec ends)]
      rfl
    rw [same]
    exact ⟨graph.isOver_search limits quest start, rfl⟩

/-- The bounds that a search keeps on any graph, and the range of what it counts. -/
structure Bounds (graph : ProofGraph κ α) (limits : Limits) (quest : Quest α) (start : α) :
    Prop where
  /-- The search comes to an end, after no more steps than it may make resolutions. -/
  ends : ∃ count ≤ limits.maxVisits.toNat,
    (∀ i < count, (graph.searchAfter limits quest start i).isOver = false) ∧
      ∀ i, count ≤ i → (graph.searchAfter limits quest start i).isOver = true ∧
        graph.searchAfter limits quest start i = graph.search limits quest start
  resolutions : (graph.walk limits quest start).resolutions.length ≤ limits.maxVisits.toNat
  stack : ∀ count, ∀ e ∈ (graph.searchAfter limits quest start count).stack,
    1 ≤ e.depth ∧ e.depth ≤ limits.maxDepth.toNat ∧
      e.depth ≤ (graph.searchAfter limits quest start count).resolutions.length
  receding : (graph.pushes limits quest start).Pairwise fun earlier later =>
    earlier.key = later.key → later.depth < earlier.depth
  /-- Neither count leaves 64 bits: that of resolutions with each that is made, and that of hops
  with each entry that is descended below. -/
  counts : limits.maxDepth.toNat < UInt64.size - 1 ∨ limits.maxVisits.toNat < UInt64.size - 1 →
    (∀ earlier key later,
      (graph.walk limits quest start).resolutions = earlier ++ key :: later →
        earlier.length + 1 ≤ UInt64.size - 1) ∧
    ∀ count, ∀ e ∈ (graph.searchAfter limits quest start count).stack, e.depth + 1 ≤ UInt64.size - 1

theorem walk_bounded (graph : ProofGraph κ α) (limits : Limits) (quest : Quest α) (start : α) :
    Bounds graph limits quest start := by
  have bounded := graph.bounded_searchAfter limits quest start
  have spent : (graph.walk limits quest start).resolutions.length ≤ limits.maxVisits.toNat :=
    (bounded limits.maxVisits.toNat).resolutions
  constructor
  case ends => exact graph.searchAfter_ends limits quest start
  case resolutions => exact spent
  case stack =>
    intro count
    exact (bounded count).stack
  case receding => exact graph.pushes_receding limits quest start
  case counts =>
    intro finite
    have visits := limits.maxVisits.toNat_lt_size
    constructor
    · intro earlier key later made
      rw [made, List.length_append, List.length_cons] at spent
      omega
    · intro count e member
      -- the depth of an entry is within both bounds, so one of them is enough
      obtain ⟨_, shallow, paid⟩ := (bounded count).stack e member
      have made := (bounded count).resolutions
      omega

/-- A graph without end: every node lists the next one. -/
def endless : ProofGraph Nat Nat where
  proofs n := [n + 1]
  resolve := some

example : endless.walk ⟨18446744073709551615, 4⟩ ⟨fun _ _ => true, fun _ => false⟩ 0 =
    ⟨.truncated, [1, 2, 3, 4]⟩ := by decide

end ProofGraph

end DelegatedAuthority
