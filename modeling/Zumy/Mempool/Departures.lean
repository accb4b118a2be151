/-
  Zumy.Mempool.Departures — who else leaves when a transaction leaves the pool
  (txmempool.cpp), for any links.

  - `Without L s t D`: `t` is `s` without `D`, and with a transaction of `D` left all that it
    leads to; one removal after the other is `Without.trans`.
  - `without_removeAll`: `RemoveStaged` of a set with its descendants.
  - `without_removeConflicts`, `without_expire`, `without_trimToSize`: the calls that make
    room, each with the transactions it starts from.
  - `accept_unopposed`: a new transaction that conflicts with none takes nothing out.
-/
import Zumy.Mempool.Indexes
import Zumy.Mempool.PoolRuns

namespace Zumy.Mempool

open Zumy.Lib Relation

namespace CTxMemPool

variable {s t u : CTxMemPool} {L : Uint256 → Uint256 → Prop} {D X Y Z : Set Uint256} {c it x y : Uint256}

structure Without (L : Uint256 → Uint256 → Prop) (s t : CTxMemPool) (D : Set Uint256) : Prop where
  sound : t.Sound
  linked : Linked (outside L D) t
  closed : Closed L D
  gone : ∀ it ∈ D, it ∉ t.ids
  kept : ∀ it ∉ D, t.content.waiting it = s.content.waiting it

theorem mem_ids_iff_waiting : it ∈ s.ids ↔ ∃ w, s.content.waiting it = some w := by
  rw [mem_ids]
  constructor
  · rintro ⟨e, he⟩
    exact ⟨_, content_waiting he⟩
  · rintro ⟨w, hw⟩
    obtain ⟨e, he, -⟩ := content_waiting_some hw
    exact ⟨e, he⟩

/-! ## What stays -/

theorem Without.mem_ids_iff (h : Without L s t D) : it ∈ t.ids ↔ it ∈ s.ids ∧ it ∉ D := by
  by_cases hit : it ∈ D
  · exact ⟨fun hin => absurd hin (h.gone it hit), fun hin => absurd hit hin.2⟩
  · rw [mem_ids_iff_waiting, mem_ids_iff_waiting, h.kept it hit, and_iff_left hit]

theorem Without.refl (hs : s.Sound) (h : Linked L s) (hX : X = ∅) : Without L s s (led L X) := by
  rw [hX, led_empty]
  refine ⟨hs, ?_, fun _ _ _ ha => absurd ha (Set.notMem_empty _), fun it hit => absurd hit (Set.notMem_empty it), fun it _ => rfl⟩
  rwa [outside_empty]

theorem Without.trans (h : Without L s t (led L X)) (h' : Without (outside L (led L X)) t u (led (outside L (led L X)) Y))
    (hY : Y = Z \ led L X) :
    Without L s u (led L (X ∪ Z)) := by
  rw [led_union, ← hY]
  refine ⟨h'.sound, ?_, h.closed.union h'.closed, fun it hit hin => ?_, fun it hit => ?_⟩
  · rw [← outside_outside]
    exact h'.linked
  · rcases hit with hit | hit
    · exact h.gone it hit (h'.mem_ids_iff.1 hin).1
    · exact h'.gone it hit hin
  · rw [Set.mem_union, not_or] at hit
    rw [h'.kept it hit.2, h.kept it hit.1]

theorem Without.next_iff (h : Without L s t D) (hs : s.Sound) {o : COutPoint} :
    t.mapNextTx[o]? = some c ↔ s.mapNextTx[o]? = some c ∧ c ∉ D := by
  have hspender {s' : CTxMemPool} (hs' : s'.Sound) :
      s'.mapNextTx[o]? = some c ↔ ∃ w : Waiting, s'.content.waiting c = some w ∧ ∃ txin ∈ w.1.vin, txin.prevout = o := by
    rw [hs'.spent]
    constructor
    · rintro ⟨e, he, hin⟩
      exact ⟨_, content_waiting he, hin⟩
    · rintro ⟨w, hw, hin⟩
      obtain ⟨e, he, rfl⟩ := content_waiting_some hw
      exact ⟨e, he, hin⟩
  by_cases hc : c ∈ D
  · constructor
    · exact fun hnext => absurd (h.sound.mem_of_next hnext) (h.gone c hc)
    · exact fun hnext => absurd hc hnext.2
  · rw [hspender h.sound, hspender hs, h.kept c hc, and_iff_left hc]

/-! ## The calls -/

theorem without_removeAll (hs : s.Sound) (h : Linked L s) {set : SetEntries} (hset : set ⊆ s.ids) :
    Without L s (s.removeStaged (s.calculateAllDescendants set)) (led L (set : Set Uint256)) := by
  have hS := h.calculateAllDescendants_subset hset
  have hmem {y : Uint256} : y ∈ s.calculateAllDescendants set ↔ y ∈ led L (set : Set Uint256) := by
    rw [h.mem_calculateAllDescendants hset]
    exact Iff.rfl
  refine ⟨sound_removeStaged hs, ?_, closed_led _ _, fun it hit => ?_, fun it hit => ?_⟩
  · have hout : outside L (led L (set : Set Uint256)) =
        fun p c => L p c ∧ p ∉ s.calculateAllDescendants set ∧ c ∉ s.calculateAllDescendants set := by
      funext p c
      rw [outside, hmem, hmem]
    rw [hout]
    exact linked_removeStaged h hS fun a _ => h.leaves_calculateAllDescendants hset a
  · rw [ids_removeStaged hS, Finset.mem_sdiff, hmem]
    exact fun hin => hin.2 hit
  · rw [content_removeStaged, Content.waiting_drops, if_neg]
    rwa [Finset.mem_sort, hmem]

theorem Without.clearPrioritisation (h : Without L s t D) (hit : it ∈ D) : Without L s (t.clearPrioritisation it) D :=
  ⟨sound_clearPrioritisation h.sound (h.gone it hit), linked_clearPrioritisation h.linked, h.closed, h.gone, h.kept⟩

theorem toRemove_of_mem (hs : s.Sound) {e : CTxMemPoolEntry} (he : s.mapTx[it]? = some e) : s.toRemove e.tx true = {it} := by
  have hkeyed := hs.keyed it e he
  rw [toRemove, hkeyed, if_pos (contains_iff.2 ⟨e, he⟩)]

theorem without_removeConflict (hs : s.Sound) (h : Linked L s) (hash : Uint256) (txin : CTxIn) :
    Without L s (removeConflict hash s txin) (led L {x | s.mapNextTx[txin.prevout]? = some x ∧ x ≠ hash}) := by
  unfold removeConflict
  cases hnext : s.mapNextTx[txin.prevout]? with
  | none => exact Without.refl hs h (Set.eq_empty_of_forall_notMem fun x hx => by cases hx.1)
  | some txConflict =>
    obtain ⟨e, he, -⟩ := (hs.spent _ _).1 hnext
    dsimp only
    rw [he]
    dsimp only
    by_cases hne : txConflict ≠ hash
    · have hX : {x | some txConflict = some x ∧ x ≠ hash} = (({txConflict} : SetEntries) : Set Uint256) := by
        ext x
        rw [Finset.coe_singleton, Set.mem_singleton_iff, Set.mem_ofPred_eq, Option.some_inj]
        exact ⟨fun hx => hx.1.symm, fun hx => ⟨hx.symm, hx ▸ hne⟩⟩
      rw [if_pos hne, remove_recursive, toRemove_of_mem hs he, hX]
      refine (without_removeAll hs h (Finset.singleton_subset_iff.2 (mem_ids.2 ⟨e, he⟩))).clearPrioritisation ?_
      exact ⟨txConflict, by simp, .refl⟩
    · rw [if_neg hne]
      refine Without.refl hs h (Set.eq_empty_of_forall_notMem fun x hx => ?_)
      exact hne (Option.some.inj hx.1 ▸ hx.2)

theorem without_removeConflicts (hs : s.Sound) (h : Linked L s) (tx : CTransaction) :
    Without L s (s.removeConflicts tx) (led L {x | x ∈ conflictsOf s tx ∧ x ≠ tx.hash}) := by
  have hconflicts : {x | x ∈ conflictsOf s tx ∧ x ≠ tx.hash} =
      {x | ∃ txin ∈ tx.vin, s.mapNextTx[txin.prevout]? = some x ∧ x ≠ tx.hash} := by
    ext x
    rw [Set.mem_ofPred_eq, mem_conflictsOf]
    exact ⟨fun ⟨⟨txin, htxin, hx⟩, hne⟩ => ⟨txin, htxin, hx, hne⟩, fun ⟨txin, htxin, hx, hne⟩ => ⟨⟨txin, htxin, hx⟩, hne⟩⟩
  rw [hconflicts, removeConflicts]
  clear hconflicts
  induction tx.vin generalizing s L with
  | nil => exact Without.refl hs h (Set.eq_empty_of_forall_notMem fun x ⟨txin, htxin, _⟩ => by cases htxin)
  | cons txin vin ih =>
    have hfirst := without_removeConflict hs h tx.hash txin
    have hsplit : {x | ∃ txin' ∈ txin :: vin, s.mapNextTx[txin'.prevout]? = some x ∧ x ≠ tx.hash} =
        {x | s.mapNextTx[txin.prevout]? = some x ∧ x ≠ tx.hash} ∪
          {x | ∃ txin' ∈ vin, s.mapNextTx[txin'.prevout]? = some x ∧ x ≠ tx.hash} := by
      ext x
      simp
    rw [hsplit, List.foldl_cons]
    refine hfirst.trans (ih hfirst.sound hfirst.linked) ?_
    ext x
    simp only [Set.mem_ofPred_eq, Set.mem_sdiff, hfirst.next_iff hs]
    exact ⟨fun ⟨txin', htxin', ⟨hx, hout⟩, hne⟩ => ⟨⟨txin', htxin', hx, hne⟩, hout⟩,
      fun ⟨⟨txin', htxin', hx, hne⟩, hout⟩ => ⟨txin', htxin', ⟨hx, hout⟩, hne⟩⟩

theorem removeConflicts_own {tx : CTransaction} (h : ∀ x ∈ conflictsOf s tx, x = tx.hash) : s.removeConflicts tx = s := by
  have hturn : ∀ txin ∈ tx.vin, removeConflict tx.hash s txin = s := by
    intro txin htxin
    unfold removeConflict
    cases hnext : s.mapNextTx[txin.prevout]? with
    | none => rfl
    | some txConflict =>
      have hown := h txConflict (mem_conflictsOf.2 ⟨txin, htxin, hnext⟩)
      dsimp only
      split
      · rfl
      · rw [if_neg (not_not.2 hown)]
  unfold removeConflicts
  generalize tx.vin = vin at hturn ⊢
  induction vin with
  | nil => rfl
  | cons txin vin ih =>
    rw [List.foldl_cons, hturn txin List.mem_cons_self]
    exact ih fun txin' htxin' => hturn txin' (List.mem_cons_of_mem txin htxin')

def Older (s : CTxMemPool) (time : Int) (it : Uint256) : Prop := ∃ w : Waiting, s.content.waiting it = some w ∧ w.2 < time

theorem without_expire (hs : s.Sound) (h : Linked L s) (time : Int) :
    Without L s (s.expire time) (led L {x | s.Older time x}) := by
  have hset : {x | s.Older time x} =
      ((((s.mapTx.toList.filter fun it => decide (it.2.nTime < time)).map Prod.fst).toFinset : SetEntries) : Set Uint256) := by
    ext x
    simp only [Set.mem_ofPred_eq, Older, List.coe_toFinset, List.mem_map, List.mem_filter, decide_eq_true_eq]
    constructor
    · rintro ⟨w, hw, htime⟩
      obtain ⟨e, he, rfl⟩ := content_waiting_some hw
      exact ⟨(x, e), ⟨Std.TreeMap.mem_toList_iff_getElem?_eq_some.2 he, htime⟩, rfl⟩
    · rintro ⟨⟨x, e⟩, ⟨hmem, htime⟩, rfl⟩
      exact ⟨_, content_waiting (Std.TreeMap.mem_toList_iff_getElem?_eq_some.1 hmem), htime⟩
  rw [hset]
  refine without_removeAll hs h fun x hx => ?_
  have hold : s.Older time x := by
    have hx' : x ∈ {x | s.Older time x} := by
      rw [hset]
      exact hx
    exact hx'
  obtain ⟨w, hw, -⟩ := hold
  exact mem_ids_iff_waiting.2 ⟨w, hw⟩

theorem without_trimToSize (hs : s.Sound) (h : Linked L s) (evicted : List Uint256) :
    Without L s (s.trimToSize evicted) (led L {x | x ∈ evicted ∧ x ∈ s.ids}) := by
  unfold trimToSize
  induction evicted generalizing s L with
  | nil => exact Without.refl hs h (Set.eq_empty_of_forall_notMem fun x hx => by cases hx.1)
  | cons it evicted ih =>
    rw [List.foldl_cons]
    split
    next hin =>
      have hit : it ∈ s.ids := mem_ids.2 (contains_iff.1 hin)
      rw [calculateDescendants_eq]
      have hfirst := without_removeAll hs h (Finset.singleton_subset_iff.2 hit)
      have hsplit : {x | x ∈ it :: evicted ∧ x ∈ s.ids} =
        (({it} : SetEntries) : Set Uint256) ∪ {x | x ∈ evicted ∧ x ∈ s.ids} := by
        ext x
        simp only [Set.mem_ofPred_eq, List.mem_cons, Finset.coe_singleton, Set.mem_union, Set.mem_singleton_iff]
        exact ⟨fun hx => hx.1.imp_right fun hrest => ⟨hrest, hx.2⟩,
          fun hx => hx.elim (fun heq => ⟨.inl heq, heq ▸ hit⟩) fun hrest => ⟨.inr hrest.1, hrest.2⟩⟩
      rw [hsplit]
      refine hfirst.trans (ih hfirst.sound hfirst.linked) ?_
      ext x
      simp only [Set.mem_ofPred_eq, Set.mem_sdiff, hfirst.mem_ids_iff, and_assoc]
    next hout =>
      have hsame : {x | x ∈ it :: evicted ∧ x ∈ s.ids} = {x | x ∈ evicted ∧ x ∈ s.ids} := by
        ext x
        simp only [Set.mem_ofPred_eq, List.mem_cons, and_congr_left_iff, or_iff_right_iff_imp]
        rintro hx rfl
        exact absurd (contains_iff.2 (mem_ids.1 hx)) hout
      rw [hsame]
      exact ih hs h

theorem without_limit (hs : s.Sound) (h : Linked L s) (time : Int) (evicted : List Uint256) :
    Without L s ((s.expire time).trimToSize evicted) (led L ({x | s.Older time x} ∪ {x | x ∈ evicted ∧ x ∈ s.ids})) := by
  have hexpire := without_expire hs h time
  refine hexpire.trans (without_trimToSize hexpire.sound hexpire.linked evicted) ?_
  ext x
  simp only [Set.mem_ofPred_eq, Set.mem_sdiff, hexpire.mem_ids_iff, and_assoc]

/-! ## A new transaction -/

section Accept

variable {tx : CTransaction} {nFee : CAmount} {nTime nTxSize : Int}

theorem removeStaged_empty (s : CTxMemPool) : s.removeStaged ∅ = s := by
  have hsort : (∅ : SetEntries).sort (· ≤ ·) = [] := Finset.sort_empty _
  simp only [removeStaged, updateForRemoveFromMempool, hsort, List.foldl_nil]

theorem waiting_accepted (GetOutputFor : COutPoint → CTxOut) (haccepts : accepts s (.new tx nFee nTime nTxSize) = true)
    (it : Uint256) :
    (acceptToMemoryPool GetOutputFor s (.new tx nFee nTime nTxSize)).content.waiting it =
      if it = tx.hash then some (tx, nTime)
      else if it ∈ s.calculateAllDescendants (conflictsOf s tx) then none else s.content.waiting it := by
  have hnew : s.mapTx[tx.hash]? = none := (accepts_iff.1 haccepts).2.2.1
  have hwaiting : s.content.waiting tx.hash = none := by simp [content, hnew]
  have hleft (x : Uint256) : (s.removeStaged (s.calculateAllDescendants (conflictsOf s tx))).content.waiting x =
      if x ∈ s.calculateAllDescendants (conflictsOf s tx) then none else s.content.waiting x := by
    rw [content_removeStaged, Content.waiting_drops]
    simp only [Finset.mem_sort]
  have heq : acceptToMemoryPool GetOutputFor s (.new tx nFee nTime nTxSize) =
      (((s.removeStaged (s.calculateAllDescendants (conflictsOf s tx))).addUnchecked (.new tx nFee nTime nTxSize)
        (s.calculateMemPoolAncestors (s.parentsOf tx))).addAddressIndex GetOutputFor
        (.new tx nFee nTime nTxSize)).addSpentIndex GetOutputFor (.new tx nFee nTime nTxSize) := by
    unfold acceptToMemoryPool
    rw [if_pos haccepts]
    rfl
  rw [heq, content_acceptance]
  simp [Content.add, CTxMemPoolEntry.new, hleft, hwaiting]

theorem accept_unopposed (GetOutputFor : COutPoint → CTxOut) (hs : s.Sound) (h : Linked L s) (hnone : conflictsOf s tx = ∅)
    (haccepts : accepts s (.new tx nFee nTime nTxSize) = true) (hself : ∀ txin ∈ tx.vin, txin.prevout.hash ≠ tx.hash)
    (hsize : 0 ≤ nTxSize) :
    Added L s tx (acceptToMemoryPool GetOutputFor s (.new tx nFee nTime nTxSize)) ∧
      ∀ it, (acceptToMemoryPool GetOutputFor s (.new tx nFee nTime nTxSize)).content.waiting it =
        if it = tx.hash then some (tx, nTime) else s.content.waiting it := by
  have hnew : s.mapTx[tx.hash]? = none := (accepts_iff.1 haccepts).2.2.1
  have hall : s.calculateAllDescendants (conflictsOf s tx) = ∅ := by
    rw [hnone, calculateAllDescendants, Finset.sort_empty, List.foldl_nil]
  have hanc (a : Uint256) : a ∈ s.calculateMemPoolAncestors (s.parentsOf tx) ↔
      ∃ p ∈ s.parentsOf tx, Relation.ReflTransGen L a p :=
    mem_ancestors_iff (fun p c hl => (h.within p c hl).1) h.parents parentsOf_subset
  have hfree (txin : CTxIn) (htxin : txin ∈ tx.vin) : s.mapNextTx[txin.prevout]? = none := by
    rw [Option.eq_none_iff_forall_ne_some]
    intro c hc
    have hmem : c ∈ conflictsOf s tx := mem_conflictsOf.2 ⟨txin, htxin, hc⟩
    rw [hnone] at hmem
    exact Finset.notMem_empty c hmem
  have heq : acceptToMemoryPool GetOutputFor s (.new tx nFee nTime nTxSize) =
      ((s.addUnchecked (.new tx nFee nTime nTxSize) (s.calculateMemPoolAncestors (s.parentsOf tx))).addAddressIndex GetOutputFor
        (.new tx nFee nTime nTxSize)).addSpentIndex GetOutputFor (.new tx nFee nTime nTxSize) := by
    unfold acceptToMemoryPool
    rw [if_pos haccepts]
    dsimp only [CTxMemPoolEntry.new]
    rw [hall, removeStaged_empty]
  refine ⟨?_, fun it => ?_⟩
  · rw [heq]
    exact (add_spec hs h hnew hfree hself hsize hanc).same rfl rfl rfl rfl rfl
  · rw [waiting_accepted GetOutputFor haccepts it, hall]
    simp

theorem reach_added (h : Linked L s) (hnew : tx.hash ∉ s.ids) (hy : y ≠ tx.hash) :
    ReflTransGen (fun p c => L p c ∨ (c = tx.hash ∧ p ∈ s.parentsOf tx)) x y ↔ ReflTransGen L x y := by
  have hsink : Sink L (fun p c => L p c ∨ (c = tx.hash ∧ p ∈ s.parentsOf tx)) s.ids (s.parentsOf tx) tx.hash :=
    ⟨hnew, h.within, parentsOf_subset, fun _ _ => Iff.rfl⟩
  rw [hsink.reach]
  exact or_iff_left fun hd => hy hd.1

theorem Linked.mem_of_reach (h : Linked L s) (hy : y ∈ s.ids) (hreach : ReflTransGen L x y) : x ∈ s.ids := by
  rcases hreach.cases_head with rfl | ⟨z, hstep, -⟩
  · exact hy
  · exact (h.within x z hstep).1

/-- Room for it is made by what is old and by what is evicted, with what they lead to. -/
theorem mem_ids_accept_limit (GetOutputFor : COutPoint → CTxOut) (hs : s.Sound) (h : Linked L s) (hnone : conflictsOf s tx = ∅)
    (haccepts : accepts s (.new tx nFee nTime nTxSize) = true) (hself : ∀ txin ∈ tx.vin, txin.prevout.hash ≠ tx.hash)
    (hsize : 0 ≤ nTxSize) (hne : it ≠ tx.hash) (time : Int) (evicted : List Uint256) :
    it ∈ (((acceptToMemoryPool GetOutputFor s (.new tx nFee nTime nTxSize)).expire time).trimToSize evicted).ids ↔
      it ∈ s.ids ∧ ∀ x, ReflTransGen L x it → ¬ s.Older time x ∧ x ∉ evicted := by
  obtain ⟨hadded, hwaiting⟩ := accept_unopposed GetOutputFor hs h hnone haccepts hself hsize
  have hnew : tx.hash ∉ s.ids := notMem_ids (accepts_iff.1 haccepts).2.2.1
  generalize acceptToMemoryPool GetOutputFor s (.new tx nFee nTime nTxSize) = t at hadded hwaiting ⊢
  have hsame {x : Uint256} (hx : x ≠ tx.hash) : t.content.waiting x = s.content.waiting x := by rw [hwaiting, if_neg hx]
  have hids {x : Uint256} (hx : x ≠ tx.hash) : x ∈ t.ids ↔ x ∈ s.ids := by
    rw [mem_ids_iff_waiting, hsame hx, ← mem_ids_iff_waiting]
  rw [(without_limit hadded.sound hadded.linked time evicted).mem_ids_iff, hids hne]
  refine and_congr_right fun hit => ?_
  have hold {x : Uint256} (hreach : ReflTransGen L x it) : x ∈ s.ids ∧ x ≠ tx.hash := by
    have hx := h.mem_of_reach hit hreach
    exact ⟨hx, fun heq => hnew (heq ▸ hx)⟩
  constructor
  · intro hout x hreach
    obtain ⟨hx, hxne⟩ := hold hreach
    have hled (hroom : t.Older time x ∨ (x ∈ evicted ∧ x ∈ t.ids)) : False := hout ⟨x, hroom, (reach_added h hnew hne).2 hreach⟩
    refine ⟨fun holder => hled (.inl ?_), fun hevicted => hled (.inr ⟨hevicted, (hids hxne).2 hx⟩)⟩
    rwa [Older, hsame hxne]
  · rintro hall ⟨x, hroom, hreach⟩
    rw [reach_added h hnew hne] at hreach
    obtain ⟨hyoung, hkept⟩ := hall x hreach
    rcases hroom with holder | ⟨hevicted, -⟩
    · rw [Set.mem_ofPred_eq, Older, hsame (hold hreach).2] at holder
      exact hyoung holder
    · exact hkept hevicted

/-- The new transaction stays itself, unless it or what it depends on makes room. -/
theorem mem_ids_accepted (GetOutputFor : COutPoint → CTxOut) (hs : s.Sound) (h : Linked L s)
    (haccepts : accepts s (.new tx nFee nTime nTxSize) = true) (hself : ∀ txin ∈ tx.vin, txin.prevout.hash ≠ tx.hash)
    (hsize : 0 ≤ nTxSize) (time : Int) (evicted : List Uint256) :
    tx.hash ∈ (((acceptToMemoryPool GetOutputFor s (.new tx nFee nTime nTxSize)).expire time).trimToSize evicted).ids ↔
      (time ≤ nTime ∧ tx.hash ∉ evicted) ∧
        ∀ p ∈ s.parentsOf tx, ∀ x, ReflTransGen L x p → ¬ s.Older time x ∧ x ∉ evicted := by
  obtain ⟨hadded, hstays⟩ := accept_conflicts GetOutputFor hs h haccepts hself hsize
  have hwaiting (x : Uint256) := waiting_accepted GetOutputFor haccepts x
  have hconflicts : conflictsOf s tx ⊆ s.ids := conflictsOf_subset hs
  have hnew : tx.hash ∉ s.ids := notMem_ids (accepts_iff.1 haccepts).2.2.1
  generalize acceptToMemoryPool GetOutputFor s (.new tx nFee nTime nTxSize) = t at hadded hwaiting ⊢
  generalize hS : s.calculateAllDescendants (conflictsOf s tx) = S at hadded hstays hwaiting
  have hids : (s.removeStaged S).ids = s.ids \ S := ids_removeStaged (hS ▸ h.calculateAllDescendants_subset hconflicts)
  have hparents {p : Uint256} : p ∈ (s.removeStaged S).parentsOf tx ↔ p ∈ s.parentsOf tx := by
    rw [mem_parentsOf, mem_parentsOf, hids, Finset.mem_sdiff]
    exact ⟨fun hp => ⟨hp.1.1, hp.2⟩, fun hp => ⟨⟨hp.1, hstays p (mem_parentsOf.2 hp) p .refl⟩, hp.2⟩⟩
  have hout : tx.hash ∉ (s.removeStaged S).ids := by
    rw [hids, Finset.mem_sdiff]
    exact fun hin => hnew hin.1
  have hsink : Sink (fun p c => L p c ∧ p ∉ S ∧ c ∉ S)
      (fun p c => (L p c ∧ p ∉ S ∧ c ∉ S) ∨ (c = tx.hash ∧ p ∈ (s.removeStaged S).parentsOf tx)) (s.removeStaged S).ids
      ((s.removeStaged S).parentsOf tx) tx.hash := by
    refine ⟨hout, fun p c hl => ?_, parentsOf_subset, fun _ _ => Iff.rfl⟩
    obtain ⟨hp, hc⟩ := h.within p c hl.1
    rw [hids, Finset.mem_sdiff, Finset.mem_sdiff]
    exact ⟨⟨hp, hl.2.1⟩, hc, hl.2.2⟩
  -- what leads to the transaction: itself, and what led to one that it spends
  have hreach {x : Uint256} :
      ReflTransGen (fun p c => (L p c ∧ p ∉ S ∧ c ∉ S) ∨ (c = tx.hash ∧ p ∈ (s.removeStaged S).parentsOf tx)) x tx.hash ↔
        x = tx.hash ∨ ∃ p ∈ s.parentsOf tx, ReflTransGen L x p := by
    rw [hsink.reach]
    constructor
    · rintro (hreach | ⟨-, p, hp, hreach⟩)
      · rcases hreach.cases_tail with heq | ⟨c, -, hl⟩
        · exact .inl heq.symm
        · exact absurd (hsink.within c tx.hash hl).2 hout
      · exact .inr ⟨p, hparents.1 hp, ReflTransGen.mono (fun _ _ hl => hl.1) _ _ hreach⟩
    · rintro (rfl | ⟨p, hp, hreach⟩)
      · exact .inl .refl
      · refine .inr ⟨rfl, p, hparents.2 hp, ?_⟩
        induction hreach using ReflTransGen.head_induction_on with
        | refl => exact .refl
        | head hl hrest ih => exact .head ⟨hl, hstays p hp _ (.head hl hrest), hstays p hp _ hrest⟩ ih
  have hown : t.content.waiting tx.hash = some (tx, nTime) := by rw [hwaiting, if_pos rfl]
  have hmem : tx.hash ∈ t.ids := mem_ids_iff_waiting.2 ⟨_, hown⟩
  have hold {x p : Uint256} (hp : p ∈ s.parentsOf tx) (hx : ReflTransGen L x p) :
      t.content.waiting x = s.content.waiting x ∧ x ∈ t.ids := by
    have hin := h.mem_of_reach (parentsOf_subset hp) hx
    have hne : x ≠ tx.hash := fun heq => hnew (heq ▸ hin)
    have hsame : t.content.waiting x = s.content.waiting x := by
      rw [hwaiting, if_neg hne, if_neg (hstays p hp x hx)]
    exact ⟨hsame, mem_ids_iff_waiting.2 (hsame ▸ mem_ids_iff_waiting.1 hin)⟩
  rw [(without_limit hadded.sound hadded.linked time evicted).mem_ids_iff, and_iff_right hmem]
  constructor
  · intro hnot
    have hroom {x : Uint256} (hx : x = tx.hash ∨ ∃ p ∈ s.parentsOf tx, ReflTransGen L x p)
        (hleaves : t.Older time x ∨ (x ∈ evicted ∧ x ∈ t.ids)) : False := hnot ⟨x, hleaves, hreach.2 hx⟩
    refine ⟨⟨?_, fun hevicted => hroom (.inl rfl) (.inr ⟨hevicted, hmem⟩)⟩, fun p hp x hx => ?_⟩
    · by_contra htime
      exact hroom (.inl rfl) (.inl ⟨_, hown, not_le.1 htime⟩)
    · obtain ⟨hsame, hin⟩ := hold hp hx
      refine ⟨fun holder => hroom (.inr ⟨p, hp, hx⟩) (.inl ?_), fun hevicted => hroom (.inr ⟨p, hp, hx⟩) (.inr ⟨hevicted, hin⟩)⟩
      rwa [Older, hsame]
  · rintro ⟨⟨htime, hevicted⟩, hall⟩ ⟨x, hleaves, hx⟩
    rcases hreach.1 hx with rfl | ⟨p, hp, hx'⟩
    · rcases hleaves with ⟨w, hw, hlt⟩ | ⟨hout', -⟩
      · rw [hown] at hw
        cases hw
        exact absurd htime (not_le.2 hlt)
      · exact hevicted hout'
    · obtain ⟨hyoung, hkept⟩ := hall p hp x hx'
      rcases hleaves with holder | ⟨hout', -⟩
      · rw [Set.mem_ofPred_eq, Older, (hold hp hx').1] at holder
        exact hyoung holder
      · exact hkept hout'

end Accept

end CTxMemPool

end Zumy.Mempool
