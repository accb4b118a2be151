/-
  Zumy.Mempool.Prioritise — `PrioritiseTransaction` (txmempool.cpp): the fee delta of a
  transaction, and what its ancestors count of its fee.
-/
import Zumy.Mempool.Links

namespace Zumy.Mempool

open Zumy.Lib

namespace CTxMemPool

variable {s : CTxMemPool} {L : Uint256 → Uint256 → Prop} {it : Uint256} {e : CTxMemPoolEntry}

variable {hash : Uint256} {nFeeDelta : CAmount}

def reprioritised (s : CTxMemPool) (hash : Uint256) (nFeeDelta : CAmount) (A : SetEntries) (it : Uint256) (e : CTxMemPoolEntry) :
    CTxMemPoolEntry :=
  let e := if it = hash then e.updateFeeDelta ((s.mapDeltas[hash]?).getD 0 + nFeeDelta) else e
  if it ∈ A then e.updateState 0 nFeeDelta 0 else e

theorem fields_foldl_modify (f : CTxMemPoolEntry → CTxMemPoolEntry) (l : List Uint256) :
    (l.foldl (fun s a => s.modify a f) s).mapNextTx = s.mapNextTx ∧
      (l.foldl (fun s a => s.modify a f) s).mapDeltas = s.mapDeltas ∧
      (l.foldl (fun s a => s.modify a f) s).totalTxSize = s.totalTxSize := by
  induction l generalizing s with
  | nil => exact ⟨rfl, rfl, rfl⟩
  | cons a l ih => exact ih (s := s.modify a f)

theorem prioritiseTransaction_spec (nFeeDelta : CAmount) (he : s.mapTx[hash]? = some e) :
    (∀ a : Uint256, (s.prioritiseTransaction hash nFeeDelta).mapTx[a]? =
        (s.mapTx[a]?).map (s.reprioritised hash nFeeDelta (s.calculateMemPoolAncestors (s.getMemPoolParents hash)) a)) ∧
      (s.prioritiseTransaction hash nFeeDelta).mapLinks = s.mapLinks ∧
        (s.prioritiseTransaction hash nFeeDelta).mapNextTx = s.mapNextTx ∧
      (s.prioritiseTransaction hash nFeeDelta).mapDeltas = s.mapDeltas.insert hash ((s.mapDeltas[hash]?).getD 0 + nFeeDelta) ∧
      (s.prioritiseTransaction hash nFeeDelta).totalTxSize = s.totalTxSize := by
  have hcontains : s.mapTx.contains hash = true := contains_iff.2 ⟨e, he⟩
  unfold prioritiseTransaction
  dsimp only
  rw [if_pos hcontains]
  obtain ⟨s', hs'⟩ : ∃ s', s' = ({ s with mapDeltas := s.mapDeltas.insert hash ((s.mapDeltas[hash]?).getD 0 + nFeeDelta) } : CTxMemPool).modify hash
    (·.updateFeeDelta ((s.mapDeltas[hash]?).getD 0 + nFeeDelta)) := ⟨_, rfl⟩
  have hanc : s'.calculateMemPoolAncestors (s'.getMemPoolParents hash) =
    s.calculateMemPoolAncestors (s.getMemPoolParents hash) := by
    have hsize : s'.mapTx.size = s.mapTx.size := by
      rw [hs']
      exact Std.TreeMap.size_modify
    unfold calculateMemPoolAncestors
    rw [hsize, hs']
    rfl
  rw [← hs', hanc]
  refine ⟨fun a => ?_, ?_, ?_, ?_, ?_⟩
  · rw [lookup_foldl_modify _ (Finset.sort_nodup _ (· ≤ ·)), hs', modify, lookup_modify]
    simp only [Finset.mem_sort]
    by_cases ha : a = hash
    · rw [if_pos ha, ha, Option.map_map]
      congr 1
      funext x
      simp [reprioritised]
    · rw [if_neg ha]
      congr 1
      funext x
      simp [reprioritised, ha]
  · rw [mapLinks_foldl_modify, hs']
    rfl
  · rw [(fields_foldl_modify _ _).1, hs']
    rfl
  · rw [(fields_foldl_modify _ _).2.1, hs']
    rfl
  · rw [(fields_foldl_modify _ _).2.2, hs']
    rfl

theorem prioritiseTransaction_absent (nFeeDelta : CAmount) (he : s.mapTx[hash]? = none) : s.prioritiseTransaction hash nFeeDelta =
    { s with mapDeltas := s.mapDeltas.insert hash ((s.mapDeltas[hash]?).getD 0 + nFeeDelta) } := by
  have hcontains : ¬ s.mapTx.contains hash = true := by
    rw [contains_eq_false_iff.2 he]
    decide
  unfold prioritiseTransaction
  dsimp only
  rw [if_neg hcontains]

theorem reprioritised_fields (A : SetEntries) (x : CTxMemPoolEntry) :
    (s.reprioritised hash nFeeDelta A it x).tx = x.tx ∧ (s.reprioritised hash nFeeDelta A it x).nTxSize = x.nTxSize ∧
      (s.reprioritised hash nFeeDelta A it x).feeDelta = if it =
        hash then (s.mapDeltas[hash]?).getD 0 + nFeeDelta else x.feeDelta := by
  unfold reprioritised CTxMemPoolEntry.updateState CTxMemPoolEntry.updateFeeDelta
  dsimp only
  split <;> split <;> (try split) <;> exact ⟨rfl, rfl, rfl⟩

theorem sound_prioritise (hs : s.Sound) : (s.prioritiseTransaction hash nFeeDelta).Sound := by
  cases he : s.mapTx[hash]? with
  | none =>
    rw [prioritiseTransaction_absent nFeeDelta he]
    refine ⟨hs.keyed, hs.sized, fun it x hx => ?_, hs.spent, hs.total⟩
    have hne : it ≠ hash := by
      rintro rfl
      cases he.symm.trans hx
    dsimp only
    rw [lookup_insert, if_neg hne]
    exact hs.prioritised it x hx
  | some e =>
    obtain ⟨hmap, -, hnext, hdeltas, htotal⟩ := prioritiseTransaction_spec nFeeDelta he
    have hsome {it : Uint256} {x : CTxMemPoolEntry} (hx : (s.prioritiseTransaction hash nFeeDelta).mapTx[it]? = some x) :
        ∃ y, s.mapTx[it]? = some y ∧ x.tx = y.tx ∧ x.nTxSize = y.nTxSize ∧
          x.feeDelta = if it = hash then (s.mapDeltas[hash]?).getD 0 + nFeeDelta else y.feeDelta := by
      rw [hmap] at hx
      obtain ⟨y, hy, rfl⟩ := Option.map_eq_some_iff.1 hx
      exact ⟨y, hy, reprioritised_fields _ y⟩
    refine hs.transfer (fun it x hx => ?_) (fun it y hy => ?_) (fun it x hx => ?_) hnext htotal
    · obtain ⟨y, hy, htx, hsize, -⟩ := hsome hx
      exact ⟨y, hy, htx, hsize⟩
    · rw [hmap, hy]
      exact ⟨_, rfl⟩
    · obtain ⟨y, hy, -, -, hdelta⟩ := hsome hx
      rw [hdelta, hdeltas, lookup_insert]
      split
      · rfl
      · exact hs.prioritised it y hy

theorem linked_prioritise (hs : s.Sound) (h : Linked L s) (hacyclic : ¬ Relation.TransGen L hash hash) :
    Linked L (s.prioritiseTransaction hash nFeeDelta) := by
  cases he : s.mapTx[hash]? with
  | none =>
    rw [prioritiseTransaction_absent nFeeDelta he]
    exact ⟨h.within, h.parents, h.children, h.counted⟩
  | some e =>
    obtain ⟨hmap, hlinks, -⟩ := prioritiseTransaction_spec nFeeDelta he
    have hmem {a : Uint256} : a ∈ s.calculateMemPoolAncestors (s.getMemPoolParents hash) ↔ Relation.TransGen L a hash :=
      mem_ancestors_of (fun p c hl => (h.within p c hl).1) h.parents hash
    have hids : (s.prioritiseTransaction hash nFeeDelta).ids = s.ids := by
      ext it
      rw [mem_ids, mem_ids, hmap]
      simp
    have hout : hash ∉ s.calculateMemPoolAncestors (s.getMemPoolParents hash) := fun h => hacyclic (hmem.1 h)
    have hown : s.reprioritised hash nFeeDelta (s.calculateMemPoolAncestors (s.getMemPoolParents hash)) hash e =
        e.updateFeeDelta (e.feeDelta + nFeeDelta) := by
      rw [reprioritised, if_pos rfl, if_neg hout, hs.prioritised hash e he]
    have hother {d : Uint256} (hd : d ≠ hash) (y : CTxMemPoolEntry) :
        (s.reprioritised hash nFeeDelta (s.calculateMemPoolAncestors (s.getMemPoolParents hash)) d y).blank = y.blank := by
      rw [reprioritised, if_neg hd]
      split
      · exact CTxMemPoolEntry.blank_updateState
      · rfl
    have hreweight : (e.updateFeeDelta (e.feeDelta + nFeeDelta)).weight = e.weight + (0, 0, nFeeDelta) := by
      simp [CTxMemPoolEntry.weight, CTxMemPoolEntry.updateFeeDelta, CTxMemPoolEntry.getModifiedFee, add_assoc]
    have hreown : (e.updateFeeDelta (e.feeDelta + nFeeDelta)).ownTally = e.ownTally + (0, 0, nFeeDelta) := by
      simp [CTxMemPoolEntry.ownTally, CTxMemPoolEntry.updateFeeDelta, CTxMemPoolEntry.getModifiedFee, add_assoc]
    have hretally : (e.updateFeeDelta (e.feeDelta + nFeeDelta)).tally = e.tally + (0, 0, nFeeDelta) := by
      simp [CTxMemPoolEntry.tally, CTxMemPoolEntry.updateFeeDelta]
    have hweight (d : Uint256) : (s.prioritiseTransaction hash nFeeDelta).weight d = s.weight d + if d =
      hash then (0, 0, nFeeDelta) else 0 := by
      rw [CTxMemPool.weight, hmap, CTxMemPool.weight]
      by_cases hd : d = hash
      · rw [hd, he, if_pos rfl, Option.map_some, hown]
        exact hreweight
      · rw [if_neg hd, add_zero]
        cases s.mapTx[d]? with
        | none => rfl
        | some y => exact CTxMemPoolEntry.weight_of_blank (hother hd y)
    refine ⟨fun p c hl => ?_, fun p c => ?_, fun p c => ?_, fun a x hx => ?_⟩
    · rw [hids]
      exact h.within p c hl
    · rw [getMemPoolParents, links_of_mapLinks hlinks]
      exact h.parents p c
    · rw [getMemPoolChildren, links_of_mapLinks hlinks]
      exact h.children p c
    · have hsum := packageSum_reweight L a (mem_ids.2 ⟨e, he⟩) hweight
      rw [hmap] at hx
      obtain ⟨y, hy, rfl⟩ := Option.map_eq_some_iff.1 hx
      rw [hids, hsum]
      by_cases ha : a = hash
      · subst ha
        cases he.symm.trans hy
        rw [hown, hretally, hreown, if_pos .refl]
        exact (h.counted a e he).imp (congrArg (· + (0, 0, nFeeDelta))) (congrArg (· + (0, 0, nFeeDelta)))
      · have hreach : a ∈ s.calculateMemPoolAncestors (s.getMemPoolParents hash) ↔ Relation.ReflTransGen L a hash := by
          rw [hmem, Relation.reflTransGen_iff_eq_or_transGen, or_iff_right (Ne.symm ha)]
        rw [reprioritised, if_neg ha]
        rcases h.counted a y hy with hdirty | hcount
        · left
          split
          · exact tally_dirty hdirty
          · exact hdirty
        · right
          have hpos : y.tally.1 ≠ 0 := by
            have hone := one_le_packageSum (L := L) (mem_ids.2 ⟨y, hy⟩)
            rw [← hcount] at hone
            omega
          by_cases hanc : a ∈ s.calculateMemPoolAncestors (s.getMemPoolParents hash)
          · rw [if_pos hanc, if_pos (hreach.1 hanc), tally_bump hpos, hcount]
          · rw [if_neg hanc, if_neg fun hr => hanc (hreach.2 hr), add_zero, hcount]

end CTxMemPool

end Zumy.Mempool
