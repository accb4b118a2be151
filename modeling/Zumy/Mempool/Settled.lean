/-
  Zumy.Mempool.Settled — the pool between two blocks: its links are what the transactions
  spend, and no transaction depends on itself (txmempool.cpp, main.cpp).

  - `settled_removeStaged`, `settled_added`: the two changes that the calls are made of.
  - `add_spec`, `accept_conflicts`: a new transaction, for any links; the transactions it
    conflicts with leave with their descendants, and none of its ancestors does.
  - `PoolInv` follows (`Settled.poolInv`).
-/
import Zumy.Mempool.Prioritise
import Zumy.Mempool.Removal

namespace Zumy.Mempool

open Zumy.Lib

namespace CTxMemPool

variable {s t : CTxMemPool} {L : Uint256 → Uint256 → Prop} {S A set : SetEntries} {p c it a x y : Uint256} {e : CTxMemPoolEntry}
variable {tx : CTransaction} {nFee : CAmount} {nTime nTxSize : Int}

structure Settled (s : CTxMemPool) : Prop where
  sound : s.Sound
  linked : Linked s.Spends s
  acyclic : ∀ a, ¬ Relation.TransGen s.Spends a a

/-! ## Descendants -/

theorem Linked.reach (h : Linked L s) : Reach s.getMemPoolChildren x y ↔ Relation.ReflTransGen L x y := by
  have hedge : (fun a b => b ∈ s.getMemPoolChildren a) = L := by
    funext a b
    exact propext (h.children a b)
  rw [Reach, hedge]

theorem Linked.mem_calculateDescendants (h : Linked L s) (hx : x ∈ s.ids) (hclosed : ∀ a ∈ A, ∀ b, L a b → b ∈ A) :
    y ∈ s.calculateDescendants A x ↔ y ∈ A ∨ Relation.ReflTransGen L x y := by
  have hnext : ∀ k ∈ s.ids, s.getMemPoolChildren k ⊆ s.ids := fun k _ c hc => (h.within k c ((h.children k c).1 hc)).2
  have hfrontier {stage : SetEntries} : ∀ a ∈ A, ∀ b ∈ s.getMemPoolChildren a, b ∈ A ∨ b ∈ stage :=
    fun a ha b hb => .inl (hclosed a ha b ((h.children a b).1 hb))
  unfold calculateDescendants
  by_cases hin : x ∈ A
  · have hstart : Searching s.getMemPoolChildren s.ids ∅ A := ⟨Finset.empty_subset _, Finset.disjoint_empty_left A, hfrontier⟩
    rw [if_pos hin, mem_explore hnext hstart card_ids.le]
    constructor
    · rintro (hy | ⟨a, ha, -⟩)
      · exact .inl hy
      · exact absurd ha (Finset.notMem_empty a)
    · rintro (hy | hreach)
      · exact .inl hy
      · left
        induction hreach with
        | refl => exact hin
        | tail _ hstep ih => exact hclosed _ ih _ hstep
  · have hstart : Searching s.getMemPoolChildren s.ids {x} A :=
      ⟨Finset.singleton_subset_iff.2 hx, Finset.disjoint_singleton_left.2 hin, hfrontier⟩
    rw [if_neg hin, mem_explore hnext hstart card_ids.le]
    simp only [Finset.mem_singleton, exists_eq_left, h.reach]

theorem Linked.mem_calculateAllDescendants (h : Linked L s) (hset : set ⊆ s.ids) :
    y ∈ s.calculateAllDescendants set ↔ ∃ x ∈ set, Relation.ReflTransGen L x y := by
  have hfold (l : List Uint256) (A : SetEntries) (hl : ∀ x ∈ l, x ∈ s.ids) (hclosed : ∀ a ∈ A, ∀ b, L a b → b ∈ A) :
      y ∈ l.foldl s.calculateDescendants A ↔ y ∈ A ∨ ∃ x ∈ l, Relation.ReflTransGen L x y := by
    induction l generalizing A with
    | nil => simp
    | cons x l ih =>
      have hx := hl x (by simp)
      have hclosed' : ∀ a ∈ s.calculateDescendants A x, ∀ b, L a b → b ∈ s.calculateDescendants A x := by
        intro a ha b hab
        rw [h.mem_calculateDescendants hx hclosed] at ha ⊢
        exact ha.imp (fun ha => hclosed a ha b hab) fun hreach => hreach.tail hab
      rw [List.foldl_cons, ih _ (fun z hz => hl z (List.mem_cons_of_mem x hz)) hclosed',
        h.mem_calculateDescendants hx hclosed, or_assoc]
      simp
  rw [calculateAllDescendants, hfold _ _ (fun x hx => hset ((Finset.mem_sort _).1 hx)) fun a ha => absurd ha (Finset.notMem_empty a)]
  simp

theorem Linked.calculateAllDescendants_subset (h : Linked L s) (hset : set ⊆ s.ids) : s.calculateAllDescendants set ⊆ s.ids := by
  intro y hy
  obtain ⟨x, hx, hreach⟩ := (h.mem_calculateAllDescendants hset).1 hy
  rcases hreach.cases_tail with rfl | ⟨b, -, hstep⟩
  · exact hset hx
  · exact (h.within b y hstep).2

theorem Linked.leaves_calculateAllDescendants (h : Linked L s) (hset : set ⊆ s.ids) (a : Uint256) :
    LeavesWithin L (s.calculateAllDescendants set) a := by
  intro y hy _ d hd
  obtain ⟨x, hx, hreach⟩ := (h.mem_calculateAllDescendants hset).1 hy
  exact (h.mem_calculateAllDescendants hset).2 ⟨x, hx, hreach.tail hd⟩

/-! ## Removal -/

theorem settled_removeStaged (h : s.Settled) (hS : S ⊆ s.ids) (hleaves : ∀ a ∉ S, LeavesWithin s.Spends S a) :
    (s.removeStaged S).Settled := by
  have hspends : (s.removeStaged S).Spends = fun p c => s.Spends p c ∧ p ∉ S ∧ c ∉ S := by
    funext p c
    exact propext (spends_removeStaged hS)
  refine ⟨sound_removeStaged h.sound, ?_, fun a ha => ?_⟩
  · rw [hspends]
    exact linked_removeStaged h.linked hS hleaves
  · rw [hspends] at ha
    exact h.acyclic a (Relation.TransGen.mono (fun _ _ hl => hl.1) a a ha)

theorem settled_removeAll (h : s.Settled) (hset : set ⊆ s.ids) : (s.removeStaged (s.calculateAllDescendants set)).Settled :=
  settled_removeStaged h (h.linked.calculateAllDescendants_subset hset) fun a _ => h.linked.leaves_calculateAllDescendants hset a

/-- What `remove` starts from. -/
def toRemove (s : CTxMemPool) (origTx : CTransaction) (fRecursive : Bool) : SetEntries :=
  if s.mapTx.contains origTx.hash then {origTx.hash} else if fRecursive then s.spendersOf origTx else ∅

theorem toRemove_subset (tx : CTransaction) (hs : s.Sound) (fRecursive : Bool) : s.toRemove tx fRecursive ⊆ s.ids := by
  unfold toRemove
  split
  next h => exact Finset.singleton_subset_iff.2 (mem_ids.2 (contains_iff.1 h))
  · split
    · intro c hc
      obtain ⟨i, -, hi⟩ := List.mem_filterMap.1 (List.mem_toFinset.1 hc)
      exact hs.mem_of_next hi
    · exact Finset.empty_subset _

theorem remove_recursive : s.remove tx true = s.removeStaged (s.calculateAllDescendants (s.toRemove tx true)) := rfl

theorem remove_single : s.remove tx false = s.removeStaged (s.toRemove tx false) := rfl

theorem settled_remove_recursive (h : s.Settled) (tx : CTransaction) : (s.remove tx true).Settled :=
  settled_removeAll h (toRemove_subset tx h.sound true)

theorem settled_remove (h : s.Settled) (hparents : ∀ p, ¬ s.Spends p tx.hash) : (s.remove tx false).Settled := by
  rw [remove_single]
  refine settled_removeStaged h (toRemove_subset tx h.sound false) fun a ha x hx hreach => ?_
  have hxtx : x = tx.hash := by
    unfold toRemove at hx
    split at hx
    · exact Finset.mem_singleton.1 hx
    · simp at hx
  rcases hreach.cases_tail with rfl | ⟨p, -, hstep⟩
  · exact absurd hx ha
  · exact absurd (hxtx ▸ hstep) (hparents p)

theorem sound_clearPrioritisation (hs : s.Sound) (hout : it ∉ s.ids) : (s.clearPrioritisation it).Sound := by
  refine ⟨hs.keyed, hs.sized, fun x e he => ?_, hs.spent, hs.total⟩
  have hne : x ≠ it := by
    rintro rfl
    exact hout (mem_ids.2 ⟨e, he⟩)
  show e.feeDelta = ((s.mapDeltas.erase it)[x]?).getD 0
  rw [lookup_erase, if_neg hne]
  exact hs.prioritised x e he

theorem linked_clearPrioritisation (h : Linked L s) : Linked L (s.clearPrioritisation it) :=
  ⟨h.within, h.parents, h.children, h.counted⟩

theorem settled_clearPrioritisation (h : s.Settled) (hout : it ∉ s.ids) : (s.clearPrioritisation it).Settled :=
  ⟨sound_clearPrioritisation h.sound hout, linked_clearPrioritisation h.linked, h.acyclic⟩

/-! ## A new transaction -/

/-- The transaction with id `c` spends an output of `x`, in the pool or not. -/
def Mentions (s : CTxMemPool) (x c : Uint256) : Prop :=
  ∃ e : CTxMemPoolEntry, s.mapTx[c]? = some e ∧ ∃ txin ∈ e.tx.vin, txin.prevout.hash = x

theorem Spends.mentions (h : s.Spends p c) : s.Mentions p c := by
  obtain ⟨e, he, hp⟩ := h
  exact ⟨e, he, (mem_parentsOf.1 hp).2⟩

/-- The pool with one transaction more, for the links `L` before. -/
structure Added (L : Uint256 → Uint256 → Prop) (s : CTxMemPool) (tx : CTransaction) (t : CTxMemPool) : Prop where
  sound : t.Sound
  linked : Linked (fun p c => L p c ∨ (c = tx.hash ∧ p ∈ s.parentsOf tx)) t
  entries : ∀ (it : Uint256) (e : CTxMemPoolEntry), t.mapTx[it]? = some e →
    (it = tx.hash ∧ e.tx = tx) ∨ (it ≠ tx.hash ∧ ∃ e₀ : CTxMemPoolEntry, s.mapTx[it]? = some e₀ ∧ e.tx = e₀.tx)
  spends : ∀ p c, t.Spends p c ↔ s.Spends p c ∨ (c = tx.hash ∧ p ∈ s.parentsOf tx) ∨ (p = tx.hash ∧ s.Mentions p c)

theorem Added.same {t' : CTxMemPool} (h : Added L s tx t) (hmap : t'.mapTx = t.mapTx) (hlinks : t'.mapLinks = t.mapLinks)
    (hnext : t'.mapNextTx = t.mapNextTx) (hdeltas : t'.mapDeltas = t.mapDeltas) (htotal : t'.totalTxSize = t.totalTxSize) :
    Added L s tx t' := by
  have halike : Alike t t' := ⟨fun it => by rw [hmap], hnext, hdeltas, htotal⟩
  refine ⟨halike.sound h.sound, ⟨fun p c hl => ?_, fun p c => ?_, fun p c => ?_, fun a e he => ?_⟩, fun it e he => ?_,
    fun p c => ?_⟩
  · rw [halike.ids]
    exact h.linked.within p c hl
  · rw [getMemPoolParents, links_of_mapLinks hlinks]
    exact h.linked.parents p c
  · rw [getMemPoolChildren, links_of_mapLinks hlinks]
    exact h.linked.children p c
  · rw [hmap] at he
    rw [halike.ids, halike.weight]
    exact h.linked.counted a e he
  · rw [hmap] at he
    exact h.entries it e he
  · rw [halike.spends]
    exact h.spends p c

theorem add_spec (hs : s.Sound) (h : Linked L s) (hnew : s.mapTx[tx.hash]? = none)
    (hfree : ∀ txin ∈ tx.vin, s.mapNextTx[txin.prevout]? = none) (hself : ∀ txin ∈ tx.vin, txin.prevout.hash ≠ tx.hash)
    (hsize : 0 ≤ nTxSize) (hA : ∀ a, a ∈ A ↔ ∃ p ∈ s.parentsOf tx, Relation.ReflTransGen L a p) :
    Added L s tx (s.addUnchecked (.new tx nFee nTime nTxSize) A) := by
  have halike : Alike (s.insertEntry (.new tx nFee nTime nTxSize)) (s.addUnchecked (.new tx nFee nTime nTxSize) A) :=
    alike_linkParents.trans (alike_updateAncestorsOf true)
  have htx := (newEntry_new s tx nFee nTime nTxSize).1
  refine ⟨halike.sound (sound_insertEntry hnew hs hfree hsize), linked_add hnew h hA, fun it e he => ?_, fun p c => ?_⟩
  · obtain ⟨e₀, he₀, hblank⟩ := halike.entry he
    rw [lookup_insertEntry hnew] at he₀
    have hetx := CTxMemPoolEntry.tx_of_blank hblank
    split at he₀
    next hit =>
      cases he₀
      exact .inl ⟨hit, hetx.trans htx⟩
    next hne => exact .inr ⟨hne, e₀, he₀, hetx⟩
  · have hparents (tx' : CTransaction) : p ∈ (s.insertEntry (.new tx nFee nTime nTxSize)).parentsOf tx' ↔
        p ∈ s.parentsOf tx' ∨ (p = tx.hash ∧ ∃ txin ∈ tx'.vin, txin.prevout.hash = p) := by
      rw [mem_parentsOf, mem_parentsOf, ids_insertEntry hnew, Finset.mem_insert, or_and_right, or_comm]
    rw [halike.spends]
    constructor
    · rintro ⟨e, he, hp⟩
      rw [lookup_insertEntry hnew] at he
      rw [hparents] at hp
      split at he
      next hc =>
        cases he
        rw [htx] at hp
        rcases hp with hp | ⟨hpx, txin, htxin, hhash⟩
        · exact .inr (.inl ⟨hc, hp⟩)
        · exact absurd (hhash.trans hpx) (hself txin htxin)
      next hc =>
        rcases hp with hp | ⟨hpx, hin⟩
        · exact .inl ⟨e, he, hp⟩
        · exact .inr (.inr ⟨hpx, e, he, hin⟩)
    · have hold {e : CTxMemPoolEntry} (he : s.mapTx[c]? = some e) :
          (s.insertEntry (.new tx nFee nTime nTxSize)).mapTx[c]? = some e := by
        have hne : c ≠ tx.hash := by
          rintro rfl
          cases hnew.symm.trans he
        rw [lookup_insertEntry hnew, if_neg hne, he]
      rintro (⟨e, he, hp⟩ | ⟨hc, hp⟩ | ⟨hpx, e, he, hin⟩)
      · exact ⟨e, hold he, (hparents e.tx).2 (.inl hp)⟩
      · refine ⟨_, by rw [lookup_insertEntry hnew, if_pos hc], ?_⟩
        rw [htx]
        exact (hparents tx).2 (.inl hp)
      · exact ⟨e, hold he, (hparents e.tx).2 (.inr ⟨hpx, hin⟩)⟩

theorem conflictsOf_subset (hs : s.Sound) : conflictsOf s tx ⊆ s.ids := by
  intro c hc
  obtain ⟨txin, -, hnext⟩ := mem_conflictsOf.1 hc
  exact hs.mem_of_next hnext

/-- The transactions that conflict leave before it, with all that depends on them; what it
    depends on does not. -/
theorem accept_conflicts (GetOutputFor : COutPoint → CTxOut) (hs : s.Sound) (h : Linked L s)
    (haccepts : accepts s (.new tx nFee nTime nTxSize) = true) (hself : ∀ txin ∈ tx.vin, txin.prevout.hash ≠ tx.hash)
    (hsize : 0 ≤ nTxSize) :
    Added (fun p c => L p c ∧ p ∉ s.calculateAllDescendants (conflictsOf s tx) ∧ c ∉ s.calculateAllDescendants (conflictsOf s tx))
      (s.removeStaged (s.calculateAllDescendants (conflictsOf s tx))) tx
      (acceptToMemoryPool GetOutputFor s (.new tx nFee nTime nTxSize)) ∧
    ∀ p ∈ s.parentsOf tx, ∀ a, Relation.ReflTransGen L a p → a ∉ s.calculateAllDescendants (conflictsOf s tx) := by
  have hconflicts : conflictsOf s tx ⊆ s.ids := conflictsOf_subset hs
  obtain ⟨-, -, hnew, hdisjoint⟩ := accepts_iff.1 haccepts
  change s.mapTx[tx.hash]? = none at hnew
  change Disjoint (s.calculateMemPoolAncestors (s.parentsOf tx)) (conflictsOf s tx) at hdisjoint
  unfold acceptToMemoryPool
  rw [if_pos haccepts]
  change Added _ _ tx (((((s.removeStaged (s.calculateAllDescendants (conflictsOf s tx))).addUnchecked (.new tx nFee nTime nTxSize)
    (s.calculateMemPoolAncestors (s.parentsOf tx))).addAddressIndex GetOutputFor (.new tx nFee nTime nTxSize)).addSpentIndex GetOutputFor
      (.new tx nFee nTime nTxSize))) ∧ _
  generalize hSeq : s.calculateAllDescendants (conflictsOf s tx) = S
  have hmemS {y : Uint256} : y ∈ S ↔ ∃ x ∈ conflictsOf s tx, Relation.ReflTransGen L x y := by
    rw [← hSeq, h.mem_calculateAllDescendants hconflicts]
  have hS : S ⊆ s.ids := hSeq ▸ h.calculateAllDescendants_subset hconflicts
  have hleaves : ∀ a ∉ S, LeavesWithin L S a := fun a _ => hSeq ▸ h.leaves_calculateAllDescendants hconflicts a
  have hanc {a : Uint256} : a ∈ s.calculateMemPoolAncestors (s.parentsOf tx) ↔
    ∃ p ∈ s.parentsOf tx, Relation.ReflTransGen L a p :=
    mem_ancestors_iff (fun p c hl => (h.within p c hl).1) h.parents parentsOf_subset
  -- no ancestor depends on a conflict
  have hstays {a p : Uint256} (hp : p ∈ s.parentsOf tx) (hreach : Relation.ReflTransGen L a p) : a ∉ S := by
    intro ha
    obtain ⟨x, hx, hxa⟩ := hmemS.1 ha
    exact Finset.disjoint_left.1 hdisjoint (hanc.2 ⟨p, hp, hxa.trans hreach⟩) hx
  have hids := ids_removeStaged hS
  have hparents {p : Uint256} : p ∈ (s.removeStaged S).parentsOf tx ↔ p ∈ s.parentsOf tx := by
    rw [mem_parentsOf, mem_parentsOf, hids, Finset.mem_sdiff]
    refine ⟨fun hp => ⟨hp.1.1, hp.2⟩, fun hp => ⟨⟨hp.1, ?_⟩, hp.2⟩⟩
    exact hstays (mem_parentsOf.2 hp) .refl
  have hsound := sound_removeStaged (S := S) hs
  refine ⟨?_, fun p hp a hreach => hstays hp hreach⟩
  refine (add_spec hsound (linked_removeStaged h hS hleaves) ?_ (fun txin htxin => ?_) hself hsize fun a => ?_).same rfl rfl rfl rfl rfl
  · have hentry := entry_removeStaged (a := tx.hash) hS
    rw [hnew, Option.map_none, ite_self] at hentry
    exact Option.map_eq_none_iff.1 hentry
  · cases hnext : (s.removeStaged S).mapNextTx[txin.prevout]? with
    | none => rfl
    | some c =>
      obtain ⟨e, he, txin', htxin', hprevout⟩ := (hsound.spent _ c).1 hnext
      obtain ⟨hc, e₀, he₀, htx⟩ := entry_left hS he
      have hspender : s.mapNextTx[txin.prevout]? = some c := (hs.spent _ c).2 ⟨e₀, he₀, txin', htx ▸ htxin', hprevout⟩
      have hconflict : c ∈ conflictsOf s tx := mem_conflictsOf.2 ⟨txin, htxin, hspender⟩
      exact absurd (hmemS.2 ⟨c, hconflict, .refl⟩) hc
  · rw [hanc]
    constructor
    · rintro ⟨p, hp, hreach⟩
      refine ⟨p, hparents.2 hp, ?_⟩
      induction hreach using Relation.ReflTransGen.head_induction_on with
      | refl => exact .refl
      | head hstep hrest ih => exact .head ⟨hstep, hstays hp (.head hstep hrest), hstays hp hrest⟩ ih
    · rintro ⟨p, hp, hreach⟩
      exact ⟨p, hparents.1 hp, Relation.ReflTransGen.mono (fun _ _ hl => hl.1) _ _ hreach⟩

theorem accept_spec (GetOutputFor : COutPoint → CTxOut) (hs : s.Sound) (h : Linked L s)
    (haccepts : accepts s (.new tx nFee nTime nTxSize) = true) (hself : ∀ txin ∈ tx.vin, txin.prevout.hash ≠ tx.hash)
    (hsize : 0 ≤ nTxSize) :
    ∃ set, set ⊆ s.ids ∧ Added (fun p c => L p c ∧ p ∉ s.calculateAllDescendants set ∧ c ∉ s.calculateAllDescendants set)
      (s.removeStaged (s.calculateAllDescendants set)) tx (acceptToMemoryPool GetOutputFor s (.new tx nFee nTime nTxSize)) :=
  ⟨conflictsOf s tx, conflictsOf_subset hs, (accept_conflicts GetOutputFor hs h haccepts hself hsize).1⟩

theorem settled_added (h : s.Settled) (hadd : Added s.Spends s tx t) (hnew : tx.hash ∉ s.ids)
    (hchildless : ∀ c, ¬ s.Mentions tx.hash c) :
    t.Settled := by
  have hspends : t.Spends = fun p c => s.Spends p c ∨ (c = tx.hash ∧ p ∈ s.parentsOf tx) := by
    funext p c
    apply propext
    rw [hadd.spends]
    constructor
    · rintro (hl | hl | ⟨rfl, hl⟩)
      · exact .inl hl
      · exact .inr hl
      · exact absurd hl (hchildless c)
    · exact fun hl => hl.imp_right .inl
  have hfrom {c : Uint256} : ¬ t.Spends tx.hash c := by
    rw [hspends]
    rintro (hl | ⟨-, hp⟩)
    · exact hnew hl.mem.1
    · exact hnew (parentsOf_subset hp)
  have hold {a b : Uint256} (hab : Relation.TransGen t.Spends a b) : b ≠ tx.hash → Relation.TransGen s.Spends a b := by
    induction hab with
    | single hstep =>
      rw [hspends] at hstep
      exact fun hb => .single (hstep.resolve_right fun hl => hb hl.1)
    | @tail b c _ hstep ih =>
      intro hc
      have hb : b ≠ tx.hash := by
        rintro rfl
        exact hfrom hstep
      rw [hspends] at hstep
      exact (ih hb).tail (hstep.resolve_right fun hl => hc hl.1)
  refine ⟨hadd.sound, ?_, fun a ha => ?_⟩
  · rw [hspends]
    exact hadd.linked
  · by_cases hax : a = tx.hash
    · rw [hax] at ha
      obtain ⟨c, hstep, -⟩ := Relation.TransGen.head'_iff.1 ha
      exact hfrom hstep
    · exact h.acyclic a (hold ha hax)

theorem settled_addUnchecked (h : s.Settled) (hnew : s.mapTx[tx.hash]? = none)
    (hfree : ∀ txin ∈ tx.vin, s.mapNextTx[txin.prevout]? = none)
    (hchildless : ∀ c, ¬ s.Mentions tx.hash c) (hself : ∀ txin ∈ tx.vin, txin.prevout.hash ≠ tx.hash) (hsize : 0 ≤ nTxSize) :
    (s.addUnchecked (.new tx nFee nTime nTxSize) (s.calculateMemPoolAncestors (s.parentsOf tx))).Settled := by
  have hA (a : Uint256) : a ∈ s.calculateMemPoolAncestors (s.parentsOf tx) ↔
    ∃ p ∈ s.parentsOf tx, Relation.ReflTransGen s.Spends a p :=
    mem_ancestors_iff (fun p c hl => (h.linked.within p c hl).1) h.linked.parents parentsOf_subset
  exact settled_added h (add_spec h.sound h.linked hnew hfree hself hsize hA) (notMem_ids hnew) hchildless

theorem mentions_removeStaged (hS : S ⊆ s.ids) (h : (s.removeStaged S).Mentions x c) : s.Mentions x c := by
  obtain ⟨e, he, hin⟩ := h
  obtain ⟨-, e₀, he₀, htx⟩ := entry_left hS he
  exact ⟨e₀, he₀, htx ▸ hin⟩

theorem settled_accept {GetOutputFor : COutPoint → CTxOut} (h : s.Settled)
    (hchildless : s.mapTx[tx.hash]? = none → (∀ c, ¬ s.Mentions tx.hash c) ∧ ∀ txin ∈ tx.vin, txin.prevout.hash ≠ tx.hash)
    (hsize : 0 ≤ nTxSize) :
    (acceptToMemoryPool GetOutputFor s (.new tx nFee nTime nTxSize)).Settled := by
  by_cases haccepts : accepts s (.new tx nFee nTime nTxSize) = true
  swap
  · unfold acceptToMemoryPool
    rwa [if_neg haccepts]
  have hnew : s.mapTx[tx.hash]? = none := (accepts_iff.1 haccepts).2.2.1
  obtain ⟨hchildren, hself⟩ := hchildless hnew
  obtain ⟨set, hset, hadd⟩ := accept_spec GetOutputFor h.sound h.linked haccepts hself hsize
  have hS := h.linked.calculateAllDescendants_subset hset
  have hspends : (s.removeStaged (s.calculateAllDescendants set)).Spends =
      fun p c => s.Spends p c ∧ p ∉ s.calculateAllDescendants set ∧ c ∉ s.calculateAllDescendants set := by
    funext p c
    exact propext (spends_removeStaged hS)
  rw [← hspends] at hadd
  refine settled_added (settled_removeAll h hset) hadd (fun hin => ?_) fun c hc => hchildren c (mentions_removeStaged hS hc)
  rw [ids_removeStaged hS] at hin
  exact notMem_ids hnew (Finset.mem_sdiff.1 hin).1

/-! ## A changed fee -/

theorem spends_prioritise {hash : Uint256} {nFeeDelta : CAmount} :
    (s.prioritiseTransaction hash nFeeDelta).Spends p c ↔ s.Spends p c := by
  cases he : s.mapTx[hash]? with
  | none =>
    rw [prioritiseTransaction_absent nFeeDelta he]
    exact Iff.rfl
  | some e =>
    have hmap := (prioritiseTransaction_spec nFeeDelta he).1
    have hparents (tx : CTransaction) : (s.prioritiseTransaction hash nFeeDelta).parentsOf tx = s.parentsOf tx := by
      ext p
      rw [mem_parentsOf, mem_parentsOf, mem_ids, mem_ids, hmap]
      simp
    constructor
    · rintro ⟨x, hx, hp⟩
      rw [hmap] at hx
      obtain ⟨y, hy, rfl⟩ := Option.map_eq_some_iff.1 hx
      rw [hparents, (reprioritised_fields _ y).1] at hp
      exact ⟨y, hy, hp⟩
    · rintro ⟨y, hy, hp⟩
      refine ⟨_, by rw [hmap, hy]; rfl, ?_⟩
      rwa [hparents, (reprioritised_fields _ y).1]

theorem settled_prioritise (h : s.Settled) (hash : Uint256) (nFeeDelta : CAmount) :
    (s.prioritiseTransaction hash nFeeDelta).Settled := by
  have hspends : (s.prioritiseTransaction hash nFeeDelta).Spends = s.Spends := by
    funext p c
    exact propext spends_prioritise
  refine ⟨sound_prioritise h.sound, ?_, ?_⟩
  · rw [hspends]
    exact linked_prioritise h.sound h.linked (h.acyclic hash)
  · rw [hspends]
    exact h.acyclic

/-! ## The invariant of the pool -/

theorem Settled.poolInv (h : s.Settled) : s.PoolInv where
  keyed := h.sound.keyed
  sized := h.sound.sized
  parents := h.linked.parents
  children := h.linked.children
  counted it e he := by
    have hin : it ∈ s.ids := mem_ids.2 ⟨e, he⟩
    have hdirty : s.dirtyAt it = e.isDirty := by simp [dirtyAt, he]
    rcases h.linked.counted it e he with hown | hcount
    · have htrue : e.isDirty = true := by
        rw [CTxMemPoolEntry.isDirty_iff, hown]
        rfl
      rw [descendantCount, descendantSize, descendantFees, hdirty, if_pos htrue, if_pos htrue, if_pos htrue, txSize_of_some he]
      refine ⟨congrArg Prod.fst hown, congrArg (fun x => x.2.1) hown, (congrArg (fun x => x.2.2) hown).trans ?_⟩
      simp [modifiedFee, he, CTxMemPoolEntry.ownTally]
    · have hfalse : ¬ e.isDirty = true := by
        have hone := one_le_packageSum (L := s.Spends) hin
        rw [← hcount] at hone
        rw [CTxMemPoolEntry.isDirty_iff]
        omega
      have hsize (d : Uint256) : s.txSize d = (s.weight d).2.1 := txSize_eq_weight
      have hfee (d : Uint256) : s.modifiedFee d = (s.weight d).2.2 := by
        unfold modifiedFee CTxMemPool.weight
        cases s.mapTx[d]? <;> rfl
      rw [descendantCount, descendantSize, descendantFees, hdirty, if_neg hfalse, if_neg hfalse, if_neg hfalse]
      refine ⟨(congrArg Prod.fst hcount).trans packageSum_count, (congrArg (fun x => x.2.1) hcount).trans ?_,
        (congrArg (fun x => x.2.2) hcount).trans ?_⟩
      · rw [packageSum, packageSum, Prod.snd_sum, Prod.fst_sum]
        exact Finset.sum_congr rfl fun d _ => (hsize d).symm
      · rw [packageSum, packageSum, Prod.snd_sum, Prod.snd_sum]
        exact Finset.sum_congr rfl fun d _ => (hfee d).symm
  spent := h.sound.spent
  total := by
    rw [h.sound.total, mapSum_eq_sum]
    rfl

theorem settled_empty (hids : s.mapTx = ∅) (hnext : s.mapNextTx = ∅) (hlinks : s.mapLinks = ∅) (htotal : s.totalTxSize = 0) :
    s.Settled := by
  have hnone (it : Uint256) : s.mapTx[it]? = none := by
    rw [hids]
    exact Std.TreeMap.getElem?_emptyc
  have hnot (p c : Uint256) : ¬ s.Spends p c := by
    rintro ⟨e, he, -⟩
    rw [hnone] at he
    cases he
  have hno {it : Uint256} {e : CTxMemPoolEntry} {P : Prop} (he : s.mapTx[it]? = some e) : P := by
    rw [hnone] at he
    cases he
  refine ⟨⟨fun it e he => hno he, fun it e he => hno he, fun it e he => hno he, fun o c => ?_, ?_⟩,
    ⟨fun p c hl => absurd hl (hnot p c), fun p c => ?_, fun p c => ?_, fun it e he => hno he⟩, fun a ha => ?_⟩
  · constructor
    · intro ho
      rw [hnext, Std.TreeMap.getElem?_emptyc] at ho
      cases ho
    · rintro ⟨e, he, -⟩
      exact hno he
  · have hempty : s.ids = ∅ := Finset.eq_empty_iff_forall_notMem.2 fun it hit => hno (mem_ids.1 hit).choose_spec
    rw [hempty, Finset.sum_empty, htotal]
  · rw [getMemPoolParents, links, hlinks]
    simpa using hnot p c
  · rw [getMemPoolChildren, links, hlinks]
    simpa using hnot p c
  · obtain ⟨c, hstep, -⟩ := Relation.TransGen.head'_iff.1 ha
    exact hnot a c hstep

end CTxMemPool

end Zumy.Mempool
