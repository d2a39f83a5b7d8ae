import DelegatedAuthority.Authorizer
import DelegatedAuthority.BlockStore
import DelegatedAuthority.Proofs.Blocks
import Mathlib.Data.Finset.Card
/-!
What a run of writes leaves in a block store.

The last write under an identifier is what is read there, and nothing else is. Where no block was
put under an identifier of choice, identifiers address what is under them, and a delegation that
was inserted can be loaded from then on.
-/
namespace DelegatedAuthority

namespace BlockStore

variable {store : BlockStore} {writes : List Write} {cid : Cid} {block : Bytes} {d : Delegation}

theorem get?_write (store : BlockStore) (w : Write) (cid : Cid) :
    (store.write w).get? cid = if cid = w.cid then some w.block else store.get? cid :=
  get?_putAt store w.cid cid w.block

/-- The last write under an identifier is what is read there. -/
theorem get_last {before after : List Write} {w : Write}
    (last : ∀ later ∈ after, later.cid ≠ w.cid) (store : BlockStore) :
    (store.replay (before ++ w :: after)).get w.cid = .ok w.block := by
  rw [replay_append, replay, get_replay fun later member => (last later member).symm]
  rw [get_ok_iff, get?_write, if_pos rfl]

/-- The identifiers that have a block. -/
def cids (store : BlockStore) : Finset Cid :=
  (store.blocks.map (·.1)).toFinset

theorem size_eq_card (store : BlockStore) : store.size = store.cids.card := by
  rw [cids, List.toFinset_card_of_nodup store.nodup, List.length_map, size]

theorem cids_write (store : BlockStore) (w : Write) :
    (store.write w).cids = insert w.cid store.cids := by
  ext cid
  by_cases same : cid = w.cid
  · simp [cids, write, putAt, same]
  · simp [cids, write, putAt, same]

theorem cids_replay (store : BlockStore) (writes : List Write) :
    (store.replay writes).cids = store.cids ∪ (writes.map Write.cid).toFinset := by
  induction writes generalizing store with
  | nil => simp [replay]
  | cons w rest ih =>
    rw [replay, ih, cids_write, List.map_cons, List.toFinset_cons, Finset.insert_union,
      Finset.union_insert]

/-- What is read from a store was in it before, or was written since. -/
theorem written_of_get? (h : (store.replay writes).get? cid = some block) :
    store.get? cid = some block ∨ ∃ w ∈ writes, w.cid = cid ∧ w.block = block := by
  induction writes generalizing store with
  | nil => exact .inl h
  | cons w rest ih =>
    rcases ih h with before | ⟨later, member, written⟩
    · rw [get?_write] at before
      split at before
      · rename_i same
        cases before
        exact .inr ⟨w, List.mem_cons_self .., same.symm, rfl⟩
      · exact .inl before
    · exact .inr ⟨later, List.mem_cons_of_mem w member, written⟩

/-- The one block ever written under an identifier is what is read there. -/
theorem get?_of_only (only : ∀ w ∈ writes, w.cid = cid → w.block = block)
    (h : store.get? cid = some block ∨ ∃ w ∈ writes, w.cid = cid) :
    (store.replay writes).get? cid = some block := by
  induction writes generalizing store with
  | nil =>
    rcases h with there | ⟨w, member, _⟩
    · exact there
    · cases member
  | cons w rest ih =>
    obtain ⟨now, later⟩ := List.forall_mem_cons.mp only
    apply ih later
    rw [get?_write]
    by_cases same : cid = w.cid
    · left
      rw [if_pos same, now same.symm]
    · rw [if_neg same]
      rcases h with there | ⟨w', member, written⟩
      · exact .inl there
      · rcases List.mem_cons.mp member with rfl | member
        · exact absurd written.symm same
        · exact .inr ⟨w', member, written⟩

theorem Write.cid_eq {w : Write} (h : ∀ cid block, w ≠ .putAt cid block) :
    w.cid = Cid.ofBlock w.block := by
  cases w with
  | put block => rfl
  | insert d => rfl
  | putAt cid block => exact absurd rfl (h cid block)

theorem load_of_get? (stored : store.get? cid = some block)
    (decoded : Delegation.decode block = .ok d) : store.resolver.load cid = .ok d := by
  have fetched := get_ok_iff.mpr stored
  simp only [resolver, Resolver.ofBlocks, fetched, bind, Except.bind, decoded]
  rfl

theorem authorizeRevocationOf_of_load {a : Authorizer} (loaded : a.resolver.load cid = .ok d)
    (revoker : Principal) : a.authorizeRevocationOf revoker cid =
      ⟨(a.authorizeRevocation revoker d).verdict,
        cid :: (a.authorizeRevocation revoker d).resolutions⟩ := by
  simp only [Authorizer.authorizeRevocationOf, Resolver.authorizeRevocationOf, loaded,
    Authorizer.authorizeRevocation]

/-- Among blocks that are all addressed by their identifiers, and none of which collide, a
delegation that was inserted is the only one under its identifier. -/
theorem load_inserted (addressed : ∀ cid block, .putAt cid block ∉ writes)
    (distinct : ∀ w ∈ writes, ∀ w' ∈ writes,
      Cid.ofBlock w.block = Cid.ofBlock w'.block → w.block = w'.block)
    (inserted : .insert d ∈ writes) (fits : d.Encodable) :
    (empty.replay writes).resolver.load d.cid = .ok d := by
  have only : ∀ w ∈ writes, w.cid = d.cid → w.block = d.encode := by
    intro w member same
    rw [Write.cid_eq fun cid block eq => addressed cid block (eq ▸ member)] at same
    exact distinct w member (.insert d) inserted same
  have stored : (empty.replay writes).get? d.cid = some d.encode :=
    get?_of_only only (.inr ⟨.insert d, inserted, rfl⟩)
  exact load_of_get? stored (Delegation.decode_encode fits)

/-- After any run of writes to an empty store, the last write under an identifier is what is read
there, nothing else is, and there are as many blocks as identifiers were written under. Where
no identifier was of choice, each addresses its block, and if no two blocks of the run collide,
then from its insertion on a delegation can be loaded, and revoked, by its identifier as well as
by itself. -/
theorem content_addressed (writes : List Write) :
    (∀ before w after, writes = before ++ w :: after → (∀ later ∈ after, later.cid ≠ w.cid) →
      (empty.replay writes).get w.cid = .ok w.block) ∧
    (∀ cid, (∀ w ∈ writes, w.cid ≠ cid) →
      (empty.replay writes).get cid = .error (.notFound cid.toText)) ∧
    (empty.replay writes).size = (writes.map Write.cid).toFinset.card ∧
    ((∀ cid block, .putAt cid block ∉ writes) →
      (∀ cid block, (empty.replay writes).get cid = .ok block → cid = Cid.ofBlock block) ∧
      ((∀ w ∈ writes, ∀ w' ∈ writes,
          Cid.ofBlock w.block = Cid.ofBlock w'.block → w.block = w'.block) →
        ∀ upto, upto <+: writes → ∀ d, .insert d ∈ upto → d.Encodable →
          (empty.replay upto).resolver.load d.cid = .ok d ∧
          ∀ config revoker,
            Authorizer.authorizeRevocationOf ⟨config, (empty.replay upto).resolver⟩ revoker d.cid =
              let decision := Authorizer.authorizeRevocation
                ⟨config, (empty.replay upto).resolver⟩ revoker d
              ⟨decision.verdict, d.cid :: decision.resolutions⟩)) := by
  refine ⟨?_, ?_, ?_, ?_⟩
  · rintro before w after rfl last
    exact get_last last empty
  · intro cid untouched
    exact get_replay (fun w member => (untouched w member).symm) empty
  · rw [size_eq_card, cids_replay]
    rfl
  · intro addressed
    constructor
    · intro cid block stored
      rcases written_of_get? (get_ok_iff.mp stored) with before | ⟨w, member, rfl, rfl⟩
      · cases before
      · exact Write.cid_eq fun cid block eq => addressed cid block (eq ▸ member)
    · intro distinct upto earlier d inserted fits
      have known : ∀ w ∈ upto, w ∈ writes := fun w member => earlier.subset member
      have loaded : (empty.replay upto).resolver.load d.cid = .ok d := by
        apply load_inserted _ _ inserted fits
        · intro cid block member
          exact addressed cid block (known _ member)
        · intro w member w' member'
          exact distinct w (known w member) w' (known w' member')
      refine ⟨loaded, ?_⟩
      intro config revoker
      exact authorizeRevocationOf_of_load loaded revoker

open Delegation (slip)

/-- A delegation is inserted twice, and a block that is none is put in between. -/
def ledger : List Write :=
  [.insert slip, .put [0xf6], .insert slip]

theorem ledger_addressed : slip.Encodable ∧ (empty.replay ledger).size = 2 ∧
    (empty.replay ledger).get (Cid.ofBlock [0xf6]) = .ok [0xf6] ∧
    (empty.replay (ledger.take 2)).resolver.load slip.cid = .ok slip ∧
    (Authorizer.authorizeRevocationOf ⟨{ audience := "service" },
      (empty.replay ledger).resolver⟩ "a" slip.cid).verdict = .ok () := by
  obtain ⟨last, _, counted, sound⟩ := content_addressed ledger
  have fits : slip.Encodable := by
    refine ⟨by decide, by decide, by decide, ?_, by decide⟩
    exact List.forall_mem_nil _
  have addressed : ∀ cid block, .putAt cid block ∉ ledger := by
    intro cid block
    simp [ledger]
  have distinct : ∀ w ∈ ledger, ∀ w' ∈ ledger,
      Cid.ofBlock w.block = Cid.ofBlock w'.block → w.block = w'.block := by decide +kernel
  have two : (ledger.map Write.cid).toFinset.card = 2 := by decide +kernel
  have other : ∀ later ∈ [Write.insert slip], later.cid ≠ Cid.ofBlock [0xf6] := by decide +kernel
  obtain ⟨_, loads⟩ := sound addressed
  have soon := loads distinct (ledger.take 2) (List.take_prefix 2 ledger) slip
    (List.mem_cons_self ..) fits
  have late := loads distinct ledger (List.prefix_refl ledger) slip (List.mem_cons_self ..) fits
  refine ⟨fits, counted.trans two, ?_, soon.1, ?_⟩
  · exact last [.insert slip] (.put [0xf6]) [.insert slip] rfl other
  · rw [late.2]
    rfl

end BlockStore

end DelegatedAuthority
