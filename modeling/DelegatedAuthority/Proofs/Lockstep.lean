import DelegatedAuthority.Proofs.Run
/-!
The same search under two limits, step by step.

Limits do not show until one of them is hit. A search that was not cut short is the same under
wider limits. Where only the bound on resolutions is wider, both searches are the same until the
narrower one has used up its resolutions; what it finds with the last of them the other finds as
well, and after that it finds nothing.
-/
namespace DelegatedAuthority

variable {κ α : Type}

/-- Neither bound of `wider` is below that of `limits`. -/
structure Limits.Within (limits wider : Limits) : Prop where
  depth : limits.maxDepth ≤ wider.maxDepth
  visits : limits.maxVisits ≤ wider.maxVisits

theorem Limits.Within.depth_le {limits wider : Limits} (h : limits.Within wider) {depth : Nat}
    (le : depth ≤ limits.maxDepth.toNat) : depth ≤ wider.maxDepth.toNat :=
  Nat.le_trans le (UInt64.le_iff_toNat_le.mp h.depth)

theorem Limits.Within.visits_le {limits wider : Limits} (h : limits.Within wider) :
    limits.maxVisits.toNat ≤ wider.maxVisits.toNat :=
  UInt64.le_iff_toNat_le.mp h.visits

namespace Search

def isCut (s : Search κ α) : Bool :=
  s.tooDeep || s.tooMany

theorem isCut_eq_false {s : Search κ α} :
    s.isCut = false ↔ s.tooDeep = false ∧ s.tooMany = false := by
  simp [isCut]

/-- The resolved proofs of `parent` include one that is followed and satisfies the goal. -/
def meetsGoal (quest : Quest α) (parent : α) (proofs : List (κ × α)) : Bool :=
  proofs.any fun p => quest.follow parent p.2 && quest.goal p.2

theorem meetsGoal_of_subset {quest : Quest α} {parent : α} {proofs more : List (κ × α)}
    (subset : proofs ⊆ more) (meets : meetsGoal quest parent proofs = true) :
    meetsGoal quest parent more = true := by
  obtain ⟨p, member, found⟩ := List.any_eq_true.mp meets
  exact List.any_eq_true.mpr ⟨p, subset member, found⟩

variable [DecidableEq κ] {graph : ProofGraph κ α} {limits wider : Limits} {quest : Quest α}
  {parent : α} {depth : Nat} {s t : Search κ α}

theorem accept_reached (quest : Quest α) (parent : α) (depth : Nat) (proofs : List (κ × α))
    (s : Search κ α) : (accept quest parent depth proofs s).2.reached =
      if meetsGoal quest parent proofs then some depth else s.reached := by
  unfold meetsGoal
  fun_induction accept quest parent depth proofs s with
  | case1 s => rfl
  | case2 key node rest s unlinked ih =>
    have ignored : quest.follow parent node = false := by simpa using unlinked
    rw [ih, List.any_cons, ignored, Bool.false_and, Bool.false_or]
  | case3 key node rest s linked goal =>
    have follows : quest.follow parent node = true := by simpa using linked
    simp [follows, goal]
  | case4 key node rest s linked noGoal known ih =>
    have missed : quest.goal node = false := by simpa using noGoal
    rw [ih, List.any_cons, missed, Bool.and_false, Bool.false_or]
  | case5 key node rest s linked noGoal fresh entries s' eq ih =>
    -- that the key is noted here has no bearing on the proofs behind it
    have missed : quest.goal node = false := by simpa using noGoal
    rw [eq] at ih
    rw [ih, List.any_cons, missed, Bool.and_false, Bool.false_or]

/-- What a look at the proofs of a node tells, said of the resolutions it makes. -/
theorem descend_fields (graph : ProofGraph κ α) (limits : Limits) (quest : Quest α) (parent : α)
    (depth : Nat) (s : Search κ α) :
    (s.descend graph limits quest parent depth).resolutions =
        (s.expand graph limits parent depth).2.resolutions ∧
      (s.descend graph limits quest parent depth).tooDeep =
        (s.expand graph limits parent depth).2.tooDeep ∧
      (s.descend graph limits quest parent depth).tooMany =
        (s.expand graph limits parent depth).2.tooMany ∧
      (s.descend graph limits quest parent depth).reached =
        if meetsGoal quest parent (s.expand graph limits parent depth).1 then some depth
        else (s.expand graph limits parent depth).2.reached := by
  rw [descend_of_expand rfl]
  have tested := accept_spec quest parent depth (s.expand graph limits parent depth).1
    (s.expand graph limits parent depth).2
  exact ⟨tested.resolutions, tested.tooDeep, tested.tooMany, accept_reached ..⟩

theorem expand_reached : (s.expand graph limits parent depth).2.reached = s.reached := by
  unfold expand
  split
  · rfl
  · split <;> rfl

theorem admitted_within (within : limits.Within wider)
    (all : ¬ (s.admitted graph limits parent depth).length <
      (s.eligible graph parent depth).length) :
    s.admitted graph wider parent depth = s.admitted graph limits parent depth := by
  have visits := within.visits_le
  have narrow := length_admitted graph limits parent depth s
  have wide := length_admitted graph wider parent depth s
  rw [admitted_eq_eligible all, admitted_eq_eligible (by omega)]

/-- A look that is stopped by neither bound is the same under wider limits. It is enough that
the bound on hops stays as it is. -/
theorem expand_within (within : limits.Within wider)
    (shallow : wider.maxDepth = limits.maxDepth ∨
      (s.expand graph limits parent depth).2.tooDeep = false)
    (all : (s.expand graph limits parent depth).2.tooMany = false) :
    s.expand graph wider parent depth = s.expand graph limits parent depth := by
  by_cases none : graph.proofs parent = []
  · rw [expand_of_isEmpty none, expand_of_isEmpty none]
  · by_cases le : depth ≤ limits.maxDepth.toNat
    · rw [expand_of_le none le] at all ⊢
      have room := (Bool.or_eq_false_iff.mp all).2
      have same : s.admitted graph wider parent depth = s.admitted graph limits parent depth :=
        admitted_within within (of_decide_eq_false room)
      rw [expand_of_le none (within.depth_le le), loaded, charged, same]
      rfl
    · have below : limits.maxDepth.toNat < depth := Nat.lt_of_not_le le
      rcases shallow with same | shallow
      · rw [expand_of_tooDeep none below, expand_of_tooDeep none (same ▸ below)]
      · rw [expand_of_tooDeep none below] at shallow
        cases shallow

theorem descend_within (within : limits.Within wider)
    (shallow : wider.maxDepth = limits.maxDepth ∨
      (s.descend graph limits quest parent depth).tooDeep = false)
    (all : (s.descend graph limits quest parent depth).tooMany = false) :
    s.descend graph wider quest parent depth = s.descend graph limits quest parent depth := by
  obtain ⟨_, deep, many, _⟩ := descend_fields graph limits quest parent depth s
  rw [deep] at shallow
  rw [many] at all
  rw [descend, descend, expand_within within shallow all]

theorem expand_subset (within : limits.Within wider) :
    (s.expand graph limits parent depth).1 ⊆ (s.expand graph wider parent depth).1 := by
  by_cases none : graph.proofs parent = []
  · rw [expand_of_isEmpty none, expand_of_isEmpty none]
    exact List.Subset.refl _
  · by_cases le : depth ≤ limits.maxDepth.toNat
    · rw [expand_of_le none le, expand_of_le none (within.depth_le le)]
      have visits := within.visits_le
      have fewer : (s.admitted graph limits parent depth).Sublist
          (s.admitted graph wider parent depth) :=
        (List.take_prefix_take_left (by omega)).sublist
      exact (fewer.filterMap _).subset
    · have below : limits.maxDepth.toNat < depth := Nat.lt_of_not_le le
      rw [expand_of_tooDeep none below]
      exact List.nil_subset _

theorem reached_descend_within (within : limits.Within wider) (unreached : s.reached = none)
    {d : Nat} (found : (s.descend graph limits quest parent depth).reached = some d) :
    (s.descend graph wider quest parent depth).reached = some d := by
  obtain ⟨_, _, _, narrow⟩ := descend_fields graph limits quest parent depth s
  obtain ⟨_, _, _, wide⟩ := descend_fields graph wider quest parent depth s
  rw [expand_reached, unreached] at narrow wide
  rw [narrow] at found
  cases meets : meetsGoal quest parent (s.expand graph limits parent depth).1 with
  | false =>
    rw [meets] at found
    cases found
  | true =>
    rw [meets] at found
    rw [wide, meetsGoal_of_subset (expand_subset within) meets]
    exact found

/-- All resolutions that the bound allows have been made. -/
def Spent (limits : Limits) (s : Search κ α) : Prop :=
  limits.maxVisits.toNat ≤ s.resolutions.length

theorem Spent.expand (h : Spent limits s) (graph : ProofGraph κ α) (parent : α) (depth : Nat) :
    (s.expand graph limits parent depth).1 = [] ∧
      Spent limits (s.expand graph limits parent depth).2 := by
  by_cases none : graph.proofs parent = []
  · rw [expand_of_isEmpty none]
    exact ⟨rfl, h⟩
  · by_cases le : depth ≤ limits.maxDepth.toNat
    · have empty : s.admitted graph limits parent depth = [] := by
        rw [admitted, Nat.sub_eq_zero_of_le h, List.take_zero]
      rw [expand_of_le none le, loaded, charged, empty]
      exact ⟨rfl, by rwa [Spent, List.append_nil]⟩
    · rw [expand_of_tooDeep none (Nat.lt_of_not_le le)]
      exact ⟨rfl, h⟩

theorem Spent.descend (h : Spent limits s) (graph : ProofGraph κ α) (quest : Quest α) (parent : α)
    (depth : Nat) : (s.descend graph limits quest parent depth).reached = s.reached ∧
      Spent limits (s.descend graph limits quest parent depth) := by
  obtain ⟨none, spent⟩ := h.expand graph parent depth
  obtain ⟨resolutions, _, _, reached⟩ := descend_fields graph limits quest parent depth s
  constructor
  · rw [reached, none, expand_reached]
    rfl
  · rw [Spent, resolutions]
    exact spent

/-- A look that is the first to be stopped for want of resolutions has made them all. -/
theorem spent_of_tooMany (all : s.tooMany = false)
    (cut : (s.descend graph limits quest parent depth).tooMany = true) :
    Spent limits (s.descend graph limits quest parent depth) := by
  obtain ⟨resolutions, _, many, _⟩ := descend_fields graph limits quest parent depth s
  rw [many] at cut
  rw [Spent, resolutions]
  by_cases none : graph.proofs parent = []
  · rw [expand_of_isEmpty none, all] at cut
    cases cut
  · by_cases le : depth ≤ limits.maxDepth.toNat
    · rw [expand_of_le none le] at cut ⊢
      have stopped : (s.admitted graph limits parent depth).length <
          (s.eligible graph parent depth).length := by
        simpa [charged, all] using cut
      have size := length_admitted graph limits parent depth s
      simp only [charged, List.length_append]
      omega
    · rw [expand_of_tooDeep none (Nat.lt_of_not_le le), all] at cut
      cases cut

/-- One more step, unless the search is over. -/
def advance (graph : ProofGraph κ α) (limits : Limits) (quest : Quest α) (s : Search κ α) :
    Search κ α :=
  if s.isOver then s else s.step graph limits quest

theorem advance_of_isOver (ended : s.isOver = true) : s.advance graph limits quest = s := by
  rw [advance, if_pos ended]

theorem run_advance {count : Nat} : run graph limits quest (count + 1) s =
    run graph limits quest count (s.advance graph limits quest) := by
  unfold advance
  cases ended : s.isOver with
  | true => rw [if_pos rfl, run_of_isOver ended, run_of_isOver ended]
  | false => rw [if_neg Bool.false_ne_true, run_succ ended]

section

variable {graph' : ProofGraph κ α} {limits' : Limits} {quest' : Quest α}

/-- What two searches make of the same state: both leave it, both skip an entry, or both descend
below it. -/
theorem advance_both (graph' : ProofGraph κ α) (limits' : Limits) (quest' : Quest α)
    {P : Search κ α → Search κ α → Prop} (stays : P s s)
    (skipped : ∀ rest, P { s with stack := rest } { s with stack := rest })
    (descended : ∀ (entry : Entry κ α) (rest : List (Entry κ α)), s.reached = none →
      P (Search.descend graph limits quest entry.node (entry.depth + 1) { s with stack := rest })
        (Search.descend graph' limits' quest' entry.node (entry.depth + 1)
          { s with stack := rest })) :
    P (s.advance graph limits quest) (s.advance graph' limits' quest') := by
  unfold advance
  cases ended : s.isOver with
  | true => exact stays
  | false =>
    obtain ⟨unreached, entry, rest, stack⟩ := not_isOver_iff.mp ended
    simp only [Bool.false_eq_true, if_false, step, stack]
    split
    · exact skipped rest
    · exact descended entry rest unreached

theorem advance_elim {P : Search κ α → Prop} (stays : P s)
    (skipped : ∀ rest, P { s with stack := rest })
    (descended : ∀ (entry : Entry κ α) (rest : List (Entry κ α)), s.reached = none →
      P (Search.descend graph limits quest entry.node (entry.depth + 1)
        { s with stack := rest })) : P (s.advance graph limits quest) :=
  advance_both (P := fun t _ => P t) graph limits quest stays skipped descended

/-- What holds of two searches after every step of both holds of them in the end. -/
theorem run_lockstep {R : Search κ α → Search κ α → Prop}
    (kept : ∀ s t, R s t → R (s.advance graph limits quest) (t.advance graph' limits' quest'))
    (count : Nat) (h : R s t) :
    R (run graph limits quest count s) (run graph' limits' quest' count t) := by
  induction count generalizing s t with
  | zero => exact h
  | succ count ih =>
    rw [run_advance, run_advance]
    exact ih (kept s t h)

theorem first_both {P : Search κ α → Search κ α → Prop} {start : α}
    (found : P { reached := some 0 } { reached := some 0 })
    (looked : P (Search.descend graph limits quest start 1 {})
      (Search.descend graph' limits' quest start 1 {})) :
    P (first graph limits quest start) (first graph' limits' quest start) := by
  unfold first
  split
  · exact found
  · exact looked

end

theorem descend_uncut (within : limits.Within wider) :
    (s.descend graph limits quest parent depth).isCut = true ∨
      s.descend graph wider quest parent depth = s.descend graph limits quest parent depth := by
  cases cut : (s.descend graph limits quest parent depth).isCut with
  | true => exact .inl rfl
  | false =>
    obtain ⟨shallow, all⟩ := isCut_eq_false.mp cut
    exact .inr (descend_within within (.inr shallow) all)

theorem Descended.isCut {entries : List (Entry κ α)} {resolved : List κ}
    (h : Descended graph limits quest parent depth s entries resolved t) (cut : s.isCut = true) :
    t.isCut = true := by
  rcases Bool.or_eq_true_iff.mp cut with deep | many
  · rw [Search.isCut, h.tooDeep deep, Bool.true_or]
  · rw [Search.isCut, h.tooMany many, Bool.or_true]

theorem isCut_descend (cut : s.isCut = true) :
    (s.descend graph limits quest parent depth).isCut = true := by
  obtain ⟨entries, resolved, below⟩ := descend_spec graph limits quest parent depth s
  exact below.isCut cut

theorem isCut_advance (cut : s.isCut = true) : (s.advance graph limits quest).isCut = true := by
  apply advance_elim (P := fun t => t.isCut = true)
  · exact cut
  · intro rest
    exact cut
  · intro entry rest _
    exact isCut_descend cut

theorem advance_uncut (within : limits.Within wider) (h : s.isCut = true ∨ t = s) :
    (s.advance graph limits quest).isCut = true ∨
      t.advance graph wider quest = s.advance graph limits quest := by
  rcases h with cut | rfl
  · exact .inl (isCut_advance cut)
  · apply advance_both (P := fun s t => s.isCut = true ∨ t = s)
    · exact .inr rfl
    · intro rest
      exact .inr rfl
    · intro entry rest _
      exact descend_uncut within

/-- Two searches of which the first allows fewer resolutions: they are the same, or the first has
made all of its resolutions, and what it has reached the other has reached. -/
def Ahead (limits : Limits) (s t : Search κ α) : Prop :=
  (t = s ∧ s.tooMany = false) ∨
    (Spent limits s ∧ ∀ depth, s.reached = some depth → t.reached = some depth)

theorem descend_ahead (within : limits.Within wider) (same : wider.maxDepth = limits.maxDepth)
    (all : s.tooMany = false) (unreached : s.reached = none) :
    Ahead limits (s.descend graph limits quest parent depth)
      (s.descend graph wider quest parent depth) := by
  cases many : (s.descend graph limits quest parent depth).tooMany with
  | false => exact .inl ⟨descend_within within (.inl same) many, many⟩
  | true =>
    refine .inr ⟨spent_of_tooMany all many, ?_⟩
    intro d found
    exact reached_descend_within within unreached found

theorem Spent.advance (h : Spent limits s) (graph : ProofGraph κ α) (quest : Quest α) :
    (s.advance graph limits quest).reached = s.reached ∧
      Spent limits (s.advance graph limits quest) := by
  apply advance_elim (P := fun t => t.reached = s.reached ∧ Spent limits t)
  · exact ⟨rfl, h⟩
  · intro rest
    exact ⟨rfl, h⟩
  · intro entry rest _
    have popped : Spent limits { s with stack := rest } := h
    exact popped.descend graph quest entry.node (entry.depth + 1)

theorem advance_ahead (within : limits.Within wider) (same : wider.maxDepth = limits.maxDepth)
    (h : Ahead limits s t) :
    Ahead limits (s.advance graph limits quest) (t.advance graph wider quest) := by
  rcases h with ⟨rfl, all⟩ | ⟨spent, found⟩
  · apply advance_both (P := Ahead limits)
    · exact .inl ⟨rfl, all⟩
    · intro rest
      exact .inl ⟨rfl, all⟩
    · intro entry rest unreached
      exact descend_ahead within same all unreached
  · -- from here on the first search finds nothing new, and what it had found has ended the other
    obtain ⟨reached, spent'⟩ := spent.advance graph quest
    refine .inr ⟨spent', ?_⟩
    intro depth now
    have ahead : t.reached = some depth := found depth (reached ▸ now)
    have ended : t.isOver = true := isOver_iff.mpr (.inl (by rw [ahead]; exact Option.some_ne_none _))
    rw [advance_of_isOver ended]
    exact ahead

end Search

namespace ProofGraph

variable [DecidableEq κ] {graph : ProofGraph κ α} {limits wider : Limits} {quest : Quest α}
  {start : α}

/-- A search that was not cut short is the same under wider limits. -/
theorem search_within (within : limits.Within wider)
    (whole : (graph.search limits quest start).isCut = false) :
    graph.search wider quest start = graph.search limits quest start := by
  have both : (graph.search limits quest start).isCut = true ∨
      graph.search wider quest start = graph.search limits quest start := by
    rw [← searchAfter_of_le within.visits_le]
    apply Search.run_lockstep (R := fun s t => s.isCut = true ∨ t = s)
    · intro s t h
      exact Search.advance_uncut within h
    · apply Search.first_both (P := fun s t => s.isCut = true ∨ t = s)
      · exact .inr rfl
      · exact Search.descend_uncut within
  rcases both with cut | same
  · rw [whole] at cut
    cases cut
  · exact same

/-- What a search has reached it reaches as well where more resolutions are allowed. -/
theorem search_reached_within (within : limits.Within wider)
    (same : wider.maxDepth = limits.maxDepth) {depth : Nat}
    (found : (graph.search limits quest start).reached = some depth) :
    (graph.search wider quest start).reached = some depth := by
  have both : Search.Ahead limits (graph.search limits quest start)
      (graph.search wider quest start) := by
    rw [← searchAfter_of_le within.visits_le]
    apply Search.run_lockstep (R := Search.Ahead limits)
    · intro s t h
      exact Search.advance_ahead within same h
    · apply Search.first_both (P := Search.Ahead limits)
      · exact .inl ⟨rfl, rfl⟩
      · exact Search.descend_ahead within same rfl rfl
  rcases both with ⟨eq, _⟩ | ⟨_, ahead⟩
  · rw [eq]
    exact found
  · exact ahead depth found

theorem walk_exhausted_within (within : limits.Within wider)
    (exhausted : (graph.walk limits quest start).traversal = .exhausted) :
    graph.walk wider quest start = graph.walk limits quest start := by
  obtain ⟨_, whole⟩ := Search.outcome_eq_exhausted.mp exhausted
  rw [walk, walk, search_within within (Search.isCut_eq_false.mpr whole)]

theorem walk_reached_within (within : limits.Within wider)
    (same : wider.maxDepth = limits.maxDepth) {depth : Nat}
    (reached : (graph.walk limits quest start).traversal = .reached depth) :
    (graph.walk wider quest start).traversal = .reached depth := by
  have found := Search.outcome_eq_reached.mp reached
  exact Search.outcome_eq_reached.mpr (search_reached_within within same found)

end ProofGraph

end DelegatedAuthority
