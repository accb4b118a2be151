/-
  Zumy.Mempool.Pool — what holds of the pool between its operations (txmempool.h).

  `Spends p c`: in the pool, `c` spends an output of `p`; links, descendants and ancestors
  are of this relation. An entry counts its descendants and itself. A dirty entry does not:
  its size and fees are its own, and its count is 0 (`descendantCount`, `descendantSize`).
-/
import Zumy.Lib.Package
import Zumy.Mempool.Model

namespace Zumy.Mempool

open Zumy.Lib

namespace CTxMemPool

variable (s : CTxMemPool)

def ids : SetEntries := s.mapTx.keys.toFinset

def Spends (p c : Uint256) : Prop := ∃ e, s.mapTx[c]? = some e ∧ p ∈ s.parentsOf e.tx

def txSize (it : Uint256) : Int := (s.mapTx[it]?).elim 0 CTxMemPoolEntry.nTxSize

def modifiedFee (it : Uint256) : CAmount := (s.mapTx[it]?).elim 0 CTxMemPoolEntry.getModifiedFee

noncomputable def descendants (it : Uint256) : SetEntries := package s.Spends s.ids it

open scoped Classical in
noncomputable def ancestors (tx : CTransaction) : SetEntries :=
  s.ids.filter fun a => ∃ p ∈ s.parentsOf tx, Relation.ReflTransGen s.Spends a p

noncomputable def descendantCount (it : Uint256) : Int := if s.dirtyAt it then 0 else (s.descendants it).card

noncomputable def descendantSize (it : Uint256) : Int :=
  if s.dirtyAt it then s.txSize it else packageSum s.Spends s.ids s.txSize it

noncomputable def descendantFees (it : Uint256) : CAmount :=
  if s.dirtyAt it then s.modifiedFee it else packageSum s.Spends s.ids s.modifiedFee it

/-- The invariants of the pool, those of `check` among them. -/
structure PoolInv : Prop where
  keyed : ∀ (it : Uint256) (e : CTxMemPoolEntry), s.mapTx[it]? = some e → e.tx.hash = it
  sized : ∀ (it : Uint256) (e : CTxMemPoolEntry), s.mapTx[it]? = some e → 0 ≤ e.nTxSize
  parents : ∀ p c, p ∈ s.getMemPoolParents c ↔ s.Spends p c
  children : ∀ p c, c ∈ s.getMemPoolChildren p ↔ s.Spends p c
  counted : ∀ (it : Uint256) (e : CTxMemPoolEntry), s.mapTx[it]? = some e →
    e.nCountWithDescendants = s.descendantCount it ∧ e.nSizeWithDescendants = s.descendantSize it ∧
      e.nModFeesWithDescendants = s.descendantFees it
  spent : ∀ (o : COutPoint) (c : Uint256),
    s.mapNextTx[o]? = some c ↔ ∃ e : CTxMemPoolEntry, s.mapTx[c]? = some e ∧ ∃ txin ∈ e.tx.vin, txin.prevout = o
  total : s.totalTxSize = mapSum (fun _ e => e.nTxSize) s.mapTx

variable {s} {p c it a : Uint256} {e : CTxMemPoolEntry} {tx : CTransaction}

theorem mem_ids : it ∈ s.ids ↔ ∃ e, s.mapTx[it]? = some e := by
  rw [ids, List.mem_toFinset, Std.TreeMap.mem_keys, Std.TreeMap.mem_iff_isSome_getElem?, Option.isSome_iff_exists]

theorem card_ids : s.ids.card = s.mapTx.size := card_keys_toFinset

theorem txSize_of_some (h : s.mapTx[it]? = some e) : s.txSize it = e.nTxSize := by simp [txSize, h]

theorem mem_parentsOf : p ∈ s.parentsOf tx ↔ p ∈ s.ids ∧ ∃ txin ∈ tx.vin, txin.prevout.hash = p := by
  simp only [parentsOf, List.mem_toFinset, List.mem_filter, List.mem_map, ids, Std.TreeMap.mem_keys, Std.TreeMap.contains_iff_mem]
  tauto

theorem parentsOf_subset : s.parentsOf tx ⊆ s.ids := fun _ hp => (mem_parentsOf.1 hp).1

theorem Spends.mem (h : s.Spends p c) : p ∈ s.ids ∧ c ∈ s.ids := by
  obtain ⟨e, he, hp⟩ := h
  exact ⟨parentsOf_subset hp, mem_ids.2 ⟨e, he⟩⟩

open scoped Classical in
theorem mem_ancestors : a ∈ s.ancestors tx ↔ a ∈ s.ids ∧ ∃ p ∈ s.parentsOf tx, Relation.ReflTransGen s.Spends a p := by
  unfold ancestors
  exact Finset.mem_filter

theorem ancestors_subset : s.ancestors tx ⊆ s.ids := fun _ ha => (mem_ancestors.1 ha).1

theorem parentsOf_subset_ancestors : s.parentsOf tx ⊆ s.ancestors tx :=
  fun p hp => mem_ancestors.2 ⟨parentsOf_subset hp, p, hp, .refl⟩

theorem mem_ancestors_of_spends (ha : a ∈ s.ancestors tx) (h : s.Spends p a) : p ∈ s.ancestors tx := by
  obtain ⟨-, q, hq, hreach⟩ := mem_ancestors.1 ha
  exact mem_ancestors.2 ⟨h.mem.1, q, hq, .head h hreach⟩

/-- A set of entries that has a transaction's parents, and theirs, has its ancestors. -/
theorem ancestors_subset_of_closed {A : SetEntries} (hparents : s.parentsOf tx ⊆ A)
    (hclosed : ∀ c ∈ A, ∀ p, s.Spends p c → p ∈ A) :
    s.ancestors tx ⊆ A := by
  intro a ha
  obtain ⟨-, p, hp, hreach⟩ := mem_ancestors.1 ha
  induction hreach using Relation.ReflTransGen.head_induction_on with
  | refl => exact hparents hp
  | head hstep hreach ih => exact hclosed _ (ih (mem_ancestors.2 ⟨hstep.mem.2, p, hp, hreach⟩)) _ hstep

theorem not_spends_empty : ¬ CTxMemPool.empty.Spends p c := by
  rintro ⟨e, he, -⟩
  simp [CTxMemPool.empty] at he

theorem poolInv_empty : CTxMemPool.empty.PoolInv where
  keyed it e h := by simp [CTxMemPool.empty] at h
  sized it e h := by simp [CTxMemPool.empty] at h
  parents p c := by simpa [getMemPoolParents, links, CTxMemPool.empty] using not_spends_empty (p := p) (c := c)
  children p c := by simpa [getMemPoolChildren, links, CTxMemPool.empty] using not_spends_empty (p := p) (c := c)
  counted it e h := by simp [CTxMemPool.empty] at h
  spent o c := by simp [CTxMemPool.empty]
  total := rfl

/-! ## A pool with one transaction -/

namespace PoolSample

def parent : CTxMemPoolEntry := .new ⟨⟨[⟨⟨7, 0⟩, [], 0⟩], [⟨5, []⟩], 1⟩, 1⟩ 10 0 60000

/-- A pool with `parent`. -/
def parentPool : CTxMemPool :=
  { CTxMemPool.empty with
    mapTx := (∅ : Map Uint256 CTxMemPoolEntry).insert 1 parent
    mapLinks := (∅ : Map Uint256 TxLinks).insert 1 ⟨∅, ∅⟩
    mapNextTx := (∅ : Map COutPoint Uint256).insert ⟨7, 0⟩ 1
    totalTxSize := 60000 }

end PoolSample

open PoolSample

theorem lookup_sample : parentPool.mapTx[it]? = if it = 1 then some parent else none := by
  simp [parentPool, lookup_insert]

theorem not_spends_sample : ¬ parentPool.Spends p a := by
  rintro ⟨e, he, hp⟩
  rw [lookup_sample] at he
  split at he <;> cases he
  rw [mem_parentsOf, mem_ids] at hp
  obtain ⟨⟨e, he⟩, txin, htxin, rfl⟩ := hp
  rw [lookup_sample] at he
  simp [parent, CTxMemPoolEntry.new] at htxin
  simp [htxin] at he

theorem package_sample : package parentPool.Spends parentPool.ids 1 = {1} := by
  ext d
  rw [mem_package, mem_ids, lookup_sample, Finset.mem_singleton]
  constructor
  · rintro ⟨-, hreach⟩
    rcases hreach.cases_head with heq | ⟨c, hstep, -⟩
    · exact heq.symm
    · exact absurd hstep not_spends_sample
  · rintro rfl
    exact ⟨⟨parent, rfl⟩, .refl⟩

theorem links_sample : parentPool.links it = ⟨∅, ∅⟩ := by
  simp only [links, parentPool, lookup_insert]
  split <;> simp

theorem poolInv_sample : parentPool.PoolInv where
  keyed it e h := by
    rw [lookup_sample] at h
    split at h <;> cases h
    rename_i hit
    exact hit.symm
  sized it e h := by
    rw [lookup_sample] at h
    split at h <;> cases h
    decide
  parents p c := by simpa [getMemPoolParents, links_sample] using not_spends_sample (p := p) (a := c)
  children p c := by simpa [getMemPoolChildren, links_sample] using not_spends_sample (p := p) (a := c)
  counted it e h := by
    rw [lookup_sample] at h
    split at h <;> cases h
    rename_i hit
    subst hit
    have hclean : parentPool.dirtyAt 1 = false := by
      simp [dirtyAt, lookup_sample, parent, CTxMemPoolEntry.isDirty, CTxMemPoolEntry.new]
    refine ⟨?_, ?_, ?_⟩
    · simp [descendantCount, hclean, descendants, package_sample, parent, CTxMemPoolEntry.new]
    · simp [descendantSize, hclean, packageSum, package_sample, txSize, lookup_sample, parent, CTxMemPoolEntry.new]
    · simp [descendantFees, hclean, packageSum, package_sample, modifiedFee, lookup_sample, parent, CTxMemPoolEntry.new,
        CTxMemPoolEntry.getModifiedFee]
  spent o c := by
    simp only [parentPool, lookup_insert]
    constructor
    · intro h
      split at h <;> cases h
      rename_i ho
      exact ⟨parent, rfl, _, List.mem_singleton.2 rfl, ho.symm⟩
    · rintro ⟨e, he, txin, htxin, rfl⟩
      split at he <;> cases he
      rename_i hc
      simp [parent, CTxMemPoolEntry.new] at htxin
      simp [htxin, hc]
  total := rfl

end CTxMemPool

end Zumy.Mempool
