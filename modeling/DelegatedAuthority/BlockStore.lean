import DelegatedAuthority.Resolver
/-!
Block stores: blocks under identifiers, each at most once.

`put` and `insert` store a block under its own identifier, `putAt` under any. Nothing checks
that an identifier addresses the block under it.
-/
namespace DelegatedAuthority

/-- Blocks and the identifiers they are stored under, the latest first. -/
structure BlockStore where
  blocks : List (Cid × Bytes) := []
  nodup : (blocks.map (·.1)).Nodup := by decide

namespace BlockStore

def empty : BlockStore := {}

/-- Stores a block in place of the one it replaces. -/
def putAt (store : BlockStore) (cid : Cid) (block : Bytes) : BlockStore where
  blocks := (cid, block) :: store.blocks.filter fun entry => entry.1 ≠ cid
  nodup := by
    refine List.nodup_cons.2 ⟨fun h => ?_, store.nodup.sublist (List.filter_sublist.map _)⟩
    obtain ⟨entry, found, same⟩ := List.mem_map.1 h
    simp [same] at found

def get? (store : BlockStore) (cid : Cid) : Option Bytes :=
  store.blocks.lookup cid

theorem lookup_filter_ne {cid other : Cid} (h : other ≠ cid) (blocks : List (Cid × Bytes)) :
    (blocks.filter fun entry => entry.1 ≠ cid).lookup other = blocks.lookup other := by
  induction blocks with
  | nil => rfl
  | cons entry rest ih =>
    obtain ⟨key, block⟩ := entry
    by_cases dropped : key = cid
    · have missed : (other == key) = false := beq_eq_false_iff_ne.2 (dropped ▸ h)
      rw [List.filter_cons_of_neg (by simpa using dropped), ih, List.lookup_cons, missed]
    · rw [List.filter_cons_of_pos (by simpa using dropped), List.lookup_cons, List.lookup_cons, ih]

theorem get?_putAt (store : BlockStore) (cid other : Cid) (block : Bytes) :
    (store.putAt cid block).get? other = if other = cid then some block else store.get? other := by
  rw [get?, putAt, List.lookup_cons]
  by_cases same : other = cid
  · simp [same]
  · rw [beq_eq_false_iff_ne.2 same, if_neg same]
    exact lookup_filter_ne same store.blocks

/-- The block under an identifier, or why there is none. -/
def get (store : BlockStore) (cid : Cid) : Except AuthorizationError Bytes :=
  match store.get? cid with
  | some block => .ok block
  | none => .error (.notFound cid.toText)

theorem get_ok_iff {store : BlockStore} {cid : Cid} {block : Bytes} :
    store.get cid = .ok block ↔ store.get? cid = some block := by
  unfold get
  cases store.get? cid <;> simp

def size (store : BlockStore) : Nat :=
  store.blocks.length

def isEmpty (store : BlockStore) : Bool :=
  store.blocks.isEmpty

inductive Write where
  | put (block : Bytes)
  | insert (d : Delegation)
  | putAt (cid : Cid) (block : Bytes)

namespace Write

def block : Write → Bytes
  | put block => block
  | insert d => d.encode
  | putAt _ block => block

def cid : Write → Cid
  | put block => Cid.ofBlock block
  | insert d => d.cid
  | putAt cid _ => cid

end Write

def write (store : BlockStore) (w : Write) : BlockStore :=
  store.putAt w.cid w.block

/-- The store after a run of writes, the first one first. -/
def replay (store : BlockStore) : List Write → BlockStore
  | [] => store
  | w :: rest => (store.write w).replay rest

theorem replay_append (store : BlockStore) (before after : List Write) :
    store.replay (before ++ after) = (store.replay before).replay after := by
  induction before generalizing store with
  | nil => rfl
  | cons w before ih => exact ih (store.write w)

/-- Writes under other identifiers do not show. -/
theorem get_replay {writes : List Write} {cid : Cid} (untouched : ∀ w ∈ writes, cid ≠ w.cid)
    (store : BlockStore) : (store.replay writes).get cid = store.get cid := by
  induction writes generalizing store with
  | nil => rfl
  | cons w rest ih =>
    obtain ⟨other, later⟩ := List.forall_mem_cons.mp untouched
    rw [replay, ih later, write, get, get?_putAt, if_neg other, get]

/-- Reads delegations from the store without a look at signatures. -/
def resolver (store : BlockStore) : Resolver :=
  .ofBlocks store.get fun _ => .ok ()

end BlockStore

end DelegatedAuthority
