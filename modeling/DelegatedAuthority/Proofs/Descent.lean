import DelegatedAuthority.Proofs.Path
/-!
What one look at the proofs of a node does to a search.

`Accepted` tells all that the test of resolved proofs does, `Descended` all that a look at the
proofs of a node does, its resolutions included, and `step_cases` what a step is. Invariants of
a search are derived from these three, not from the definitions.
-/
namespace DelegatedAuthority

open ProofGraph

variable {κ α : Type}

/-- The latest comes first; a key that is followed again is followed at a smaller depth. -/
def Receding (followed : List (κ × Nat)) : Prop :=
  followed.Pairwise fun later earlier => later.1 = earlier.1 → later.2 < earlier.2

theorem Receding.cons {followed : List (κ × Nat)} {key : κ} {depth : Nat} (h : Receding followed)
    (fresh : ∀ e ∈ followed, e.1 = key → depth < e.2) : Receding ((key, depth) :: followed) :=
  List.pairwise_cons.mpr ⟨fun e member same => fresh e member same.symm, h⟩

namespace Search

variable [DecidableEq κ] {graph : ProofGraph κ α} {limits : Limits} {quest : Quest α}
  {parent : α} {key : κ} {node : α} {depth : Nat} {s s' : Search κ α}

theorem followedWithin_iff : s.followedWithin key depth = true ↔
    ∃ e ∈ s.followed, e.1 = key ∧ e.2 ≤ depth := by
  simp [followedWithin]

theorem followedAbove_iff : s.followedAbove key depth = true ↔
    ∃ e ∈ s.followed, e.1 = key ∧ e.2 < depth := by
  simp [followedAbove]

theorem followedWithin_mono {deeper : Nat} (kept : s.followed ⊆ s'.followed)
    (le : depth ≤ deeper) (h : s.followedWithin key depth = true) :
    s'.followedWithin key deeper = true := by
  obtain ⟨e, member, same, within⟩ := followedWithin_iff.mp h
  exact followedWithin_iff.mpr ⟨e, kept member, same, Nat.le_trans within le⟩

theorem followedAbove_mono (kept : s.followed ⊆ s'.followed)
    (h : s.followedAbove key depth = true) : s'.followedAbove key depth = true := by
  obtain ⟨e, member, same, above⟩ := followedAbove_iff.mp h
  exact followedAbove_iff.mpr ⟨e, kept member, same, above⟩

/-- All that the test of resolved proofs does to a search: `entries` are handed back. -/
structure Accepted (quest : Quest α) (parent : α) (depth : Nat) (proofs : List (κ × α))
    (s : Search κ α) (entries : List (Entry κ α)) (s' : Search κ α) : Prop where
  stack : s'.stack = s.stack
  resolutions : s'.resolutions = s.resolutions
  tooDeep : s'.tooDeep = s.tooDeep
  tooMany : s'.tooMany = s.tooMany
  followed : s'.followed = (entries.map fun e => (e.key, depth)).reverse ++ s.followed
  sublist : (entries.map fun e => (e.key, e.node)).Sublist proofs
  linked : ∀ e ∈ entries,
    e.depth = depth ∧ quest.follow parent e.node = true ∧ quest.goal e.node = false
  receding : Receding s.followed → Receding s'.followed
  verdict : (s'.reached = s.reached ∧ ∀ p ∈ proofs,
      quest.follow parent p.2 = true → s'.followedWithin p.1 depth = true) ∨
    (s'.reached = some depth ∧
      ∃ p ∈ proofs, quest.follow parent p.2 = true ∧ quest.goal p.2 = true)

theorem Accepted.kept {proofs : List (κ × α)} {entries : List (Entry κ α)}
    (h : Accepted quest parent depth proofs s entries s') : s.followed ⊆ s'.followed := by
  rw [h.followed]
  exact List.subset_append_right _ _

theorem Accepted.pass {proofs : List (κ × α)} {entries : List (Entry κ α)}
    (h : Accepted quest parent depth proofs s entries s')
    (known : quest.follow parent node = true → s.followedWithin key depth = true) :
    Accepted quest parent depth ((key, node) :: proofs) s entries s' := by
  -- a proof that is not followed, or was followed before, may stand in front
  refine { h with sublist := h.sublist.cons _, verdict := ?_ }
  rcases h.verdict with ⟨same, all⟩ | ⟨found, p, member, goal⟩
  · refine .inl ⟨same, List.forall_mem_cons.mpr ⟨?_, all⟩⟩
    intro follows
    exact followedWithin_mono h.kept (Nat.le_refl _) (known follows)
  · exact .inr ⟨found, p, List.mem_cons_of_mem _ member, goal⟩

theorem accept_spec (quest : Quest α) (parent : α) (depth : Nat) (proofs : List (κ × α))
    (s : Search κ α) :
    Accepted quest parent depth proofs s (accept quest parent depth proofs s).1
      (accept quest parent depth proofs s).2 := by
  fun_induction accept quest parent depth proofs s with
  | case1 s => exact ⟨rfl, rfl, rfl, rfl, rfl, .slnil, nofun, id, .inl ⟨rfl, nofun⟩⟩
  | case2 key node rest s unlinked ih =>
    apply ih.pass
    intro follows
    simp [follows] at unlinked
  | case3 key node rest s linked goal =>
    have follows : quest.follow parent node = true := by simpa using linked
    exact ⟨rfl, rfl, rfl, rfl, rfl, List.nil_sublist _, nofun, id,
      .inr ⟨rfl, (key, node), List.mem_cons_self .., follows, goal⟩⟩
  | case4 key node rest s linked noGoal known ih =>
    apply ih.pass
    intro _
    exact known
  | case5 key node rest s linked noGoal fresh entries s' eq ih =>
    rw [eq] at ih
    have follows : quest.follow parent node = true := by simpa using linked
    have missed : quest.goal node = false := by simpa using noGoal
    have recorded : s'.followedWithin key depth = true :=
      followedWithin_iff.mpr ⟨(key, depth), ih.kept (List.mem_cons_self ..), rfl, Nat.le_refl _⟩
    constructor
    case stack => exact ih.stack
    case resolutions => exact ih.resolutions
    case tooDeep => exact ih.tooDeep
    case tooMany => exact ih.tooMany
    case followed => simpa using ih.followed
    case sublist => exact ih.sublist.cons_cons _
    case linked => exact List.forall_mem_cons.mpr ⟨⟨rfl, follows, missed⟩, ih.linked⟩
    case receding =>
      intro receding
      apply ih.receding
      apply receding.cons
      intro e member same
      apply Nat.lt_of_not_le
      intro le
      exact fresh (followedWithin_iff.mpr ⟨e, member, same, le⟩)
    case verdict =>
      rcases ih.verdict with ⟨same, all⟩ | ⟨found, p, member, goal⟩
      · exact .inl ⟨same, List.forall_mem_cons.mpr ⟨fun _ => recorded, all⟩⟩
      · exact .inr ⟨found, p, List.mem_cons_of_mem _ member, goal⟩

/-- The proofs of `parent` that were not followed at `depth` or above. -/
def eligible (graph : ProofGraph κ α) (parent : α) (depth : Nat) (s : Search κ α) : List κ :=
  (graph.proofs parent).filter fun key => !s.followedWithin key depth

/-- Those among them that the bound on resolutions leaves room for. -/
def admitted (graph : ProofGraph κ α) (limits : Limits) (parent : α) (depth : Nat)
    (s : Search κ α) : List κ :=
  (s.eligible graph parent depth).take (limits.maxVisits.toNat - s.resolutions.length)

/-- What the admitted proofs resolve to. -/
def loaded (graph : ProofGraph κ α) (limits : Limits) (parent : α) (depth : Nat)
    (s : Search κ α) : List (κ × α) :=
  (s.admitted graph limits parent depth).filterMap fun key =>
    (graph.resolve key).map fun node => (key, node)

/-- The search once the admitted proofs have been resolved. -/
def charged (graph : ProofGraph κ α) (limits : Limits) (parent : α) (depth : Nat)
    (s : Search κ α) : Search κ α :=
  { s with
    resolutions := s.resolutions ++ s.admitted graph limits parent depth
    tooMany := s.tooMany || (s.admitted graph limits parent depth).length <
      (s.eligible graph parent depth).length }

theorem expand_of_isEmpty (h : graph.proofs parent = []) :
    s.expand graph limits parent depth = ([], s) := by
  rw [expand, h]
  rfl

theorem expand_of_tooDeep (h : graph.proofs parent ≠ [])
    (deep : limits.maxDepth.toNat < depth) :
    s.expand graph limits parent depth = ([], { s with tooDeep := true }) := by
  rw [expand, if_neg (by simpa using h), if_pos deep]

theorem expand_of_le (h : graph.proofs parent ≠ []) (le : depth ≤ limits.maxDepth.toNat) :
    s.expand graph limits parent depth =
      (s.loaded graph limits parent depth, s.charged graph limits parent depth) := by
  rw [expand, if_neg (by simpa using h), if_neg (Nat.not_lt.mpr le)]
  rfl

theorem length_eligible_le (graph : ProofGraph κ α) (parent : α) (depth : Nat)
    (s : Search κ α) :
    (s.eligible graph parent depth).length ≤ (graph.proofs parent).length :=
  List.length_filter_le _ _

theorem length_admitted (graph : ProofGraph κ α) (limits : Limits) (parent : α) (depth : Nat)
    (s : Search κ α) : (s.admitted graph limits parent depth).length =
      min (limits.maxVisits.toNat - s.resolutions.length)
        (s.eligible graph parent depth).length :=
  List.length_take

/-- Where the bound does not show, all that is eligible is admitted. -/
theorem admitted_eq_eligible (all : ¬ (s.admitted graph limits parent depth).length <
      (s.eligible graph parent depth).length) :
    s.admitted graph limits parent depth = s.eligible graph parent depth :=
  (List.take_sublist _ _).eq_of_length_le (Nat.le_of_not_lt all)

theorem mem_loaded {p : κ × α} (h : p ∈ s.loaded graph limits parent depth) :
    p.1 ∈ graph.proofs parent ∧ graph.resolve p.1 = some p.2 := by
  obtain ⟨key, member, found⟩ := List.mem_filterMap.mp h
  obtain ⟨node, resolves, rfl⟩ := Option.map_eq_some_iff.mp found
  exact ⟨(List.mem_filter.mp (List.mem_of_mem_take member)).1, resolves⟩

/-- Unless the bound is hit, all that makes an edge was followed before or is loaded now. -/
theorem edge_loaded (all : ¬ (s.admitted graph limits parent depth).length <
      (s.eligible graph parent depth).length) (edge : graph.Edge quest parent key node) :
    s.followedWithin key depth = true ∨ (key, node) ∈ s.loaded graph limits parent depth := by
  cases known : s.followedWithin key depth with
  | true => exact .inl rfl
  | false =>
    refine .inr (List.mem_filterMap.mpr ⟨key, ?_, by rw [edge.resolves]; rfl⟩)
    rw [admitted_eq_eligible all]
    exact List.mem_filter.mpr ⟨edge.listed, by rw [known]; rfl⟩

/-- The proofs of `parent` have been dealt with: each that an accepted edge leads to was followed
at `depth` or above. Or else they lie too deep, and this was noted. -/
def Explored (graph : ProofGraph κ α) (limits : Limits) (quest : Quest α) (s : Search κ α)
    (parent : α) (depth : Nat) : Prop :=
  (limits.maxDepth.toNat < depth ∧ s.tooDeep = true) ∨
    ∀ key node, graph.Edge quest parent key node → s.followedWithin key depth = true

theorem Explored.mono (h : s.Explored graph limits quest parent depth)
    (kept : s.followed ⊆ s'.followed) (deep : s.tooDeep = true → s'.tooDeep = true) :
    s'.Explored graph limits quest parent depth := by
  rcases h with ⟨below, noted⟩ | all
  · exact .inl ⟨below, deep noted⟩
  · right
    intro key node edge
    exact followedWithin_mono kept (Nat.le_refl _) (all key node edge)

/-- All that a look at the proofs of `parent`, which sit at `depth`, does to a search. -/
structure Descended (graph : ProofGraph κ α) (limits : Limits) (quest : Quest α) (parent : α)
    (depth : Nat) (s : Search κ α) (entries : List (Entry κ α)) (resolved : List κ)
    (s' : Search κ α) : Prop where
  stack : s'.stack = entries ++ s.stack
  followed : s'.followed = (entries.map fun e => (e.key, depth)).reverse ++ s.followed
  resolutions : s'.resolutions = s.resolutions ++ resolved
  edges : ∀ e ∈ entries, e.depth = depth ∧ graph.Edge quest parent e.key e.node ∧
    quest.goal e.node = false
  entries_le : entries.length ≤ resolved.length
  resolved_le : resolved.length ≤ (graph.proofs parent).length
  room : resolved.length ≤ limits.maxVisits.toNat - s.resolutions.length
  within : resolved = [] ∨ depth ≤ limits.maxDepth.toNat
  receding : Receding s.followed → Receding s'.followed
  noted : s'.tooDeep = true ↔
    s.tooDeep = true ∨ graph.proofs parent ≠ [] ∧ limits.maxDepth.toNat < depth
  tooMany : s.tooMany = true → s'.tooMany = true
  ample : (graph.proofs parent).length ≤ limits.maxVisits.toNat - s.resolutions.length →
    s'.tooMany = s.tooMany
  verdict : (s'.reached = s.reached ∧
      (s'.tooMany = true ∨ s'.Explored graph limits quest parent depth)) ∨
    (s'.reached = some depth ∧ depth ≤ limits.maxDepth.toNat ∧
      ∃ key node, graph.Edge quest parent key node ∧ quest.goal node = true)

theorem Descended.kept {entries : List (Entry κ α)} {resolved : List κ}
    (h : Descended graph limits quest parent depth s entries resolved s') :
    s.followed ⊆ s'.followed := by
  rw [h.followed]
  exact List.subset_append_right _ _

theorem Descended.tooDeep {entries : List (Entry κ α)} {resolved : List κ}
    (h : Descended graph limits quest parent depth s entries resolved s')
    (was : s.tooDeep = true) : s'.tooDeep = true :=
  h.noted.mpr (.inl was)

theorem Descended.resolved_ne_nil {entries : List (Entry κ α)} {resolved : List κ}
    (h : Descended graph limits quest parent depth s entries resolved s') {e : Entry κ α}
    (member : e ∈ entries) : resolved ≠ [] := by
  rintro rfl
  have empty : entries = [] := List.eq_nil_of_length_eq_zero (Nat.le_zero.mp h.entries_le)
  rw [empty] at member
  cases member

theorem Descended.depth_le {entries : List (Entry κ α)} {resolved : List κ}
    (h : Descended graph limits quest parent depth s entries resolved s') {e : Entry κ α}
    (member : e ∈ entries) : depth ≤ limits.maxDepth.toNat :=
  h.within.resolve_left (h.resolved_ne_nil member)

theorem descend_of_expand {proofs : List (κ × α)}
    (h : s.expand graph limits parent depth = (proofs, s')) :
    s.descend graph limits quest parent depth =
      { (accept quest parent depth proofs s').2 with
        stack := (accept quest parent depth proofs s').1 ++
          (accept quest parent depth proofs s').2.stack } := by
  rw [descend, h]

/-- A look that resolves nothing leaves the search as it was, but for what it notes. -/
theorem descended_of_nothing {deep : Bool} (noted : deep = true ↔
      s.tooDeep = true ∨ graph.proofs parent ≠ [] ∧ limits.maxDepth.toNat < depth)
    (explored : ({ s with tooDeep := deep } : Search κ α).Explored graph limits quest parent
      depth) :
    Descended graph limits quest parent depth s [] [] { s with tooDeep := deep } where
  stack := rfl
  followed := rfl
  resolutions := (List.append_nil _).symm
  edges := nofun
  entries_le := Nat.le_refl _
  resolved_le := Nat.zero_le _
  room := Nat.zero_le _
  within := .inl rfl
  receding := id
  noted := noted
  tooMany := id
  ample _ := rfl
  verdict := .inl ⟨rfl, .inr explored⟩

theorem descended_of_isEmpty (h : graph.proofs parent = []) :
    Descended graph limits quest parent depth s [] []
      (s.descend graph limits quest parent depth) := by
  rw [descend_of_expand (expand_of_isEmpty h)]
  apply descended_of_nothing (by simp [h, accept])
  right
  intro key node edge
  have listed := edge.listed
  rw [h] at listed
  cases listed

theorem descended_of_tooDeep (h : graph.proofs parent ≠ [])
    (deep : limits.maxDepth.toNat < depth) :
    Descended graph limits quest parent depth s [] []
      (s.descend graph limits quest parent depth) := by
  rw [descend_of_expand (expand_of_tooDeep h deep)]
  exact descended_of_nothing (by simp [h, deep, accept]) (.inl ⟨deep, rfl⟩)

theorem descended_of_le (h : graph.proofs parent ≠ []) (le : depth ≤ limits.maxDepth.toNat) :
    ∃ entries, Descended graph limits quest parent depth s entries
      (s.admitted graph limits parent depth) (s.descend graph limits quest parent depth) := by
  rw [descend_of_expand (expand_of_le h le)]
  have tested := accept_spec quest parent depth (s.loaded graph limits parent depth)
    (s.charged graph limits parent depth)
  generalize accept quest parent depth (s.loaded graph limits parent depth)
    (s.charged graph limits parent depth) = result at tested ⊢
  obtain ⟨entries, s'⟩ := result
  have marked : s'.tooMany = (s.tooMany || decide ((s.admitted graph limits parent depth).length <
      (s.eligible graph parent depth).length)) := tested.tooMany
  have size := length_admitted graph limits parent depth s
  have fewer := length_eligible_le graph parent depth s
  refine ⟨entries, ?_⟩
  constructor
  case stack => exact congrArg (entries ++ ·) tested.stack
  case followed => exact tested.followed
  case resolutions => exact tested.resolutions
  case edges =>
    intro e member
    obtain ⟨at_depth, follows, missed⟩ := tested.linked e member
    obtain ⟨listed, resolves⟩ := mem_loaded (tested.sublist.subset (List.mem_map_of_mem member))
    exact ⟨at_depth, ⟨listed, resolves, follows⟩, missed⟩
  case entries_le =>
    have handed := tested.sublist.length_le
    rw [List.length_map] at handed
    exact Nat.le_trans handed (List.length_filterMap_le _ _)
  case resolved_le => omega
  case room => omega
  case within => exact .inr le
  case receding => exact tested.receding
  case noted =>
    have same : s'.tooDeep = s.tooDeep := tested.tooDeep
    simp [same, Nat.not_lt.mpr le]
  case tooMany =>
    intro was
    rw [marked, was, Bool.true_or]
  case ample =>
    intro ample
    rw [marked, decide_eq_false (by omega), Bool.or_false]
  case verdict =>
    rcases tested.verdict with ⟨same, all⟩ | ⟨found, p, member, follows, goal⟩
    · refine .inl ⟨same, ?_⟩
      by_cases cut : (s.admitted graph limits parent depth).length <
          (s.eligible graph parent depth).length
      · left
        rw [marked, decide_eq_true cut, Bool.or_true]
      · refine .inr (.inr ?_)
        intro key node edge
        rcases edge_loaded cut edge with known | member
        · exact followedWithin_mono tested.kept (Nat.le_refl _) known
        · exact all (key, node) member edge.followed
    · obtain ⟨listed, resolves⟩ := mem_loaded member
      exact .inr ⟨found, le, p.1, p.2, ⟨listed, resolves, follows⟩, goal⟩

theorem descend_spec (graph : ProofGraph κ α) (limits : Limits) (quest : Quest α) (parent : α)
    (depth : Nat) (s : Search κ α) :
    ∃ entries resolved, Descended graph limits quest parent depth s entries resolved
      (s.descend graph limits quest parent depth) := by
  by_cases none : graph.proofs parent = []
  · exact ⟨[], [], descended_of_isEmpty none⟩
  · by_cases le : depth ≤ limits.maxDepth.toNat
    · obtain ⟨entries, h⟩ := descended_of_le none le
      exact ⟨entries, _, h⟩
    · exact ⟨[], [], descended_of_tooDeep none (Nat.lt_of_not_le le)⟩

/-- A step skips an entry whose key has since been followed above it, or descends below it. -/
theorem step_cases (graph : ProofGraph κ α) (limits : Limits) (quest : Quest α)
    {entry : Entry κ α} {rest : List (Entry κ α)} (h : s.stack = entry :: rest) :
    (s.followedAbove entry.key entry.depth = true ∧
      s.step graph limits quest = { s with stack := rest }) ∨
    (s.followedAbove entry.key entry.depth = false ∧
      s.step graph limits quest = Search.descend graph limits quest entry.node (entry.depth + 1)
        { s with stack := rest }) := by
  simp only [step, h]
  split
  · rename_i above
    exact .inl ⟨above, rfl⟩
  · rename_i below
    exact .inr ⟨Bool.of_not_eq_true below, rfl⟩

end Search

end DelegatedAuthority
