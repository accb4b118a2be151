/-
  Zumy.Mempool.PoolRuns — the pool's invariants over its runs (txmempool.cpp, main.cpp).

  `RemoveStaged` is meant for a set with all its descendants, and `addUnchecked` for a
  transaction without children. Two calls go another way. `removeForBlock` removes one
  transaction after the other, each without its descendants: its parents left before it,
  as they stand before it in the block. `DisconnectTip` puts a block's transactions back
  above their children, and `UpdateTransactionsFromBlock` comes after.

  - `returning_resurrect`: what holds while a block's transactions come back.
  - `event_settled`: an event that is in order leaves the pool settled.
-/
import Zumy.Lib.Run
import Zumy.Mempool.Reorg
import Zumy.Mempool.Settled

namespace Zumy.Mempool

open Zumy.Lib

/-! ## A block's transactions come back -/

namespace CTxMemPool

variable {GetOutputFor : COutPoint → CTxOut} {s s₀ t : CTxMemPool} {seen : List CTransaction} {v : List Uint256}
    {S set : SetEntries}
variable {tx : CTransaction} {p c it : Uint256} {e : CTxMemPoolEntry}

/-- The transactions of a block that was on the chain while the pool was not: they spend
    nothing that is in the pool, and of each other the later ones spend the earlier ones. -/
structure FromChain (s : CTxMemPool) (txs : List CTransaction) : Prop where
  hashes : (txs.map (·.hash)).Nodup
  outside : ∀ tx ∈ txs, ∀ txin ∈ tx.vin, s.mapTx.contains txin.prevout.hash = false
  order : txs.Pairwise fun tx later => ∀ txin ∈ tx.vin, txin.prevout.hash ≠ later.hash
  self : ∀ tx ∈ txs, ∀ txin ∈ tx.vin, txin.prevout.hash ≠ tx.hash

/-- Of the block's transactions, `seen` had their turn, and those with the ids `v` are back. -/
structure Returning (s₀ : CTxMemPool) (seen : List CTransaction) (s : CTxMemPool) (v : List Uint256) : Prop where
  sound : s.Sound
  linked : Linked (Within s.Spends v.toFinset ∅) s
  old : ∀ (it : Uint256) (e : CTxMemPoolEntry), s.mapTx[it]? = some e → it ∉ v →
    ∃ e₀ : CTxMemPoolEntry, s₀.mapTx[it]? = some e₀ ∧ e.tx = e₀.tx
  new : ∀ (it : Uint256) (e : CTxMemPoolEntry), s.mapTx[it]? = some e → it ∈ v → e.tx ∈ seen
  hashes : ∀ it ∈ v, it ∈ seen.map (·.hash)
  nodup : v.Nodup
  order : v.Pairwise fun a b => ¬ s.Spends b a
  irreflexive : ∀ a ∈ v, ¬ s.Spends a a

theorem returning_start (h : s.Settled) : Returning s [] s [] := by
  have hwithin : Within s.Spends [].toFinset ∅ = s.Spends := by
    funext p c
    simp [Within]
  refine ⟨h.sound, ?_, fun it e he _ => ⟨e, he, rfl⟩, fun it e _ hit => ?_, fun it hit => ?_, List.nodup_nil,
    List.Pairwise.nil, fun a ha => ?_⟩
  · rw [hwithin]
    exact h.linked
  · cases hit
  · cases hit
  · cases ha

theorem Returning.more (h : Returning s₀ seen s v) (tx : CTransaction) : Returning s₀ (seen ++ [tx]) s v :=
  { h with
    new := fun it e he hit => List.mem_append_left _ (h.new it e he hit)
    hashes := fun it hit => by
      rw [List.map_append]
      exact List.mem_append_left _ (h.hashes it hit) }

theorem Returning.remove (h : Returning s₀ seen s v) (hset : set ⊆ s.ids) :
    Returning s₀ seen (s.removeStaged (s.calculateAllDescendants set)) v := by
  have hS := h.linked.calculateAllDescendants_subset hset
  have hspends {p c : Uint256} := spends_removeStaged (p := p) (c := c) hS
  have hwithin : Within (s.removeStaged (s.calculateAllDescendants set)).Spends v.toFinset ∅ = fun p c =>
      Within s.Spends v.toFinset ∅ p c ∧ p ∉ s.calculateAllDescendants set ∧ c ∉ s.calculateAllDescendants set := by
    funext p c
    apply propext
    rw [Within, Within, hspends]
    tauto
  refine ⟨sound_removeStaged h.sound, ?_, fun it e he hit => ?_, fun it e he hit => ?_, h.hashes, h.nodup, ?_,
    fun a ha hspend => ?_⟩
  · rw [hwithin]
    exact linked_removeStaged h.linked hS fun a _ => h.linked.leaves_calculateAllDescendants hset a
  · obtain ⟨-, e₀, he₀, htx⟩ := entry_left hS he
    obtain ⟨e₁, he₁, htx'⟩ := h.old it e₀ he₀ hit
    exact ⟨e₁, he₁, htx.trans htx'⟩
  · obtain ⟨-, e₀, he₀, htx⟩ := entry_left hS he
    rw [htx]
    exact h.new it e₀ he₀ hit
  · exact h.order.imp fun hnot hspend => hnot (hspends.1 hspend).1
  · exact h.irreflexive a ha (hspends.1 hspend).1

/-- It comes back below those that are back, and is not linked to its other children. -/
theorem Returning.add (h : Returning s₀ seen s v) (hadd : Added (Within s.Spends v.toFinset ∅) s tx t) (hnew : tx.hash ∉ s.ids)
    (hseen : tx.hash ∉ seen.map (·.hash)) (horder : ∀ tx' ∈ seen, ∀ txin ∈ tx'.vin, txin.prevout.hash ≠ tx.hash) :
    Returning s₀ (seen ++ [tx]) t (v ++ [tx.hash]) := by
  have hout : tx.hash ∉ v := fun hmem => hseen (h.hashes _ hmem)
  have hmentions {c : Uint256} (hc : c ∈ v ++ [tx.hash]) : ¬ s.Mentions tx.hash c := by
    rintro ⟨e, he, txin, htxin, hhash⟩
    rcases List.mem_append.1 hc with hc | hc
    · exact horder e.tx (h.new c e he hc) txin htxin hhash
    · rw [List.mem_singleton.1 hc] at he
      exact hnew (mem_ids.2 ⟨e, he⟩)
  have hwithin : Within t.Spends (v ++ [tx.hash]).toFinset ∅ = fun p c =>
      Within s.Spends v.toFinset ∅ p c ∨ (c = tx.hash ∧ p ∈ s.parentsOf tx) := by
    funext p c
    apply propext
    simp only [Within, hadd.spends, List.mem_toFinset, Finset.notMem_empty, or_false]
    constructor
    · rintro ⟨hl | hl | ⟨hp, hl⟩, hblock⟩
      · left
        refine ⟨hl, fun hp => ?_⟩
        rcases List.mem_append.1 (hblock (List.mem_append_left _ hp)) with hc | hc
        · exact hc
        · exact absurd (List.mem_singleton.1 hc ▸ hl.mem.2) hnew
      · exact .inr hl
      · rw [hp] at hl
        exact absurd hl (hmentions (hblock (List.mem_append_right v (List.mem_singleton.2 hp))))
    · rintro (⟨hl, hblock⟩ | hl)
      · refine ⟨.inl hl, fun hp => ?_⟩
        rcases List.mem_append.1 hp with hp | hp
        · exact List.mem_append_left _ (hblock hp)
        · exact absurd (List.mem_singleton.1 hp ▸ hl.mem.1) hnew
      · exact ⟨.inr (.inl hl), fun _ => List.mem_append_right v (List.mem_singleton.2 hl.1)⟩
  refine ⟨hadd.sound, ?_, fun it e he hit => ?_, fun it e he hit => ?_, fun it hit => ?_, ?_, ?_, fun a ha hspend => ?_⟩
  · rw [hwithin]
    exact hadd.linked
  · rw [List.mem_append, not_or] at hit
    rcases hadd.entries it e he with ⟨rfl, -⟩ | ⟨-, e₀, he₀, htx⟩
    · exact absurd (List.mem_singleton.2 rfl) hit.2
    · obtain ⟨e₁, he₁, htx'⟩ := h.old it e₀ he₀ hit.1
      exact ⟨e₁, he₁, htx.trans htx'⟩
  · rcases hadd.entries it e he with ⟨-, htx⟩ | ⟨hne, e₀, he₀, htx⟩
    · rw [htx]
      exact List.mem_append_right seen (List.mem_singleton.2 rfl)
    · rw [htx]
      refine List.mem_append_left _ (h.new it e₀ he₀ ?_)
      exact (List.mem_append.1 hit).resolve_right fun hit => hne (List.mem_singleton.1 hit)
  · rw [List.map_append]
    rcases List.mem_append.1 hit with hit | hit
    · exact List.mem_append_left _ (h.hashes it hit)
    · exact List.mem_append_right _ hit
  · exact List.nodup_append.2 ⟨h.nodup, List.nodup_singleton _, fun a ha b hb hab => hout (List.mem_singleton.1 hb ▸ hab ▸ ha)⟩
  · refine List.pairwise_append.2 ⟨?_, List.pairwise_singleton _ _, fun a ha b hb hspend => ?_⟩
    · refine h.order.imp_of_mem fun {a b} ha hb hnot hspend => ?_
      rcases (hadd.spends b a).1 hspend with hl | ⟨rfl, -⟩ | ⟨rfl, -⟩
      · exact hnot hl
      · exact hout ha
      · exact hout hb
    · rw [List.mem_singleton.1 hb] at hspend
      rcases (hadd.spends tx.hash a).1 hspend with hl | ⟨rfl, -⟩ | ⟨-, hl⟩
      · exact hnew hl.mem.1
      · exact hout ha
      · exact hmentions (List.mem_append_left _ ha) hl
  · rcases (hadd.spends a a).1 hspend with hl | ⟨rfl, hp⟩ | ⟨hax, hl⟩
    · rcases List.mem_append.1 ha with ha | ha
      · exact h.irreflexive a ha hl
      · exact hnew (List.mem_singleton.1 ha ▸ hl.mem.1)
    · exact hnew (parentsOf_subset hp)
    · rw [hax] at hl
      exact hmentions (List.mem_append_right v (List.mem_singleton.2 rfl)) hl

theorem returning_resurrect (GetOutputFor : COutPoint → CTxOut) {r : Resurrected} (h : Returning s₀ seen s v)
    (hseen : r.tx.hash ∉ seen.map (·.hash))
    (horder : ∀ tx' ∈ seen, ∀ txin ∈ tx'.vin, txin.prevout.hash ≠ r.tx.hash)
    (hself : ∀ txin ∈ r.tx.vin, txin.prevout.hash ≠ r.tx.hash) :
    Returning s₀ (seen ++ [r.tx]) (resurrect GetOutputFor (s, v) r).1 (resurrect GetOutputFor (s, v) r).2 := by
  have hremove : Returning s₀ (seen ++ [r.tx]) (s.remove r.tx true) v := by
    rw [remove_recursive]
    exact (h.remove (toRemove_subset _ h.sound true)).more r.tx
  unfold resurrect
  cases r.entry with
  | none => exact hremove
  | some entry =>
    obtain ⟨nFee, nTime, nTxSize⟩ := entry
    dsimp only
    split
    next haccepts =>
      have hnew : s.mapTx[r.tx.hash]? = none := (accepts_iff.1 haccepts).2.2.1
      obtain ⟨set, hset, hadd⟩ := accept_spec GetOutputFor h.sound h.linked haccepts hself (Int.natCast_nonneg nTxSize)
      have hS := h.linked.calculateAllDescendants_subset hset
      have hwithin : (fun p c => Within s.Spends v.toFinset ∅ p c ∧ p ∉ s.calculateAllDescendants set ∧
        c ∉ s.calculateAllDescendants set) =
          Within (s.removeStaged (s.calculateAllDescendants set)).Spends v.toFinset ∅ := by
        funext p c
        apply propext
        rw [Within, Within, spends_removeStaged hS]
        tauto
      rw [hwithin] at hadd
      refine (h.remove hset).add hadd (fun hin => ?_) hseen horder
      rw [ids_removeStaged hS] at hin
      exact notMem_ids hnew (Finset.mem_sdiff.1 hin).1
    · exact hremove

/-- The induction is on the block's transactions, in their order. -/
theorem returning_foldl (GetOutputFor : COutPoint → CTxOut) {vtx : List Resurrected} (h : Returning s₀ seen s v)
    (hchain : FromChain s₀ (seen ++ vtx.map (·.tx))) :
    Returning s₀ (seen ++ vtx.map (·.tx)) (vtx.foldl (resurrect GetOutputFor) (s, v)).1 (vtx.foldl (resurrect GetOutputFor) (s, v)).2 := by
  induction vtx generalizing seen s v with
  | nil => simpa using h
  | cons r vtx ih =>
    have hsplit : seen ++ (r :: vtx).map (·.tx) = (seen ++ [r.tx]) ++ vtx.map (·.tx) := by simp
    have hmem : r.tx ∈ seen ++ (r :: vtx).map (·.tx) := by simp
    have hseen : r.tx.hash ∉ seen.map (·.hash) := by
      have hnodup := hchain.hashes
      rw [List.map_append, List.nodup_append] at hnodup
      exact fun hin => hnodup.2.2 _ hin r.tx.hash (by simp) rfl
    have horder : ∀ tx' ∈ seen, ∀ txin ∈ tx'.vin, txin.prevout.hash ≠ r.tx.hash :=
      fun tx' htx' => (List.pairwise_append.1 hchain.order).2.2 tx' htx' r.tx (by simp)
    have hturn := returning_resurrect GetOutputFor h hseen horder (hchain.self r.tx hmem)
    rw [hsplit] at hchain ⊢
    rw [List.foldl_cons]
    exact ih hturn hchain

/-- In the end, the block's transactions spend nothing that did not come back. -/
theorem Returning.returned (h : Returning s₀ seen s v) (hchain : FromChain s₀ seen) : Returned s v := by
  refine ⟨h.nodup, fun p c hspends hc => ?_, h.order, h.irreflexive⟩
  by_contra hp
  obtain ⟨e, he, hparent⟩ := hspends
  obtain ⟨hin, txin, htxin, hhash⟩ := mem_parentsOf.1 hparent
  obtain ⟨e', he'⟩ := mem_ids.1 hin
  obtain ⟨e₀, he₀, -⟩ := h.old p e' he' hp
  have hout := hchain.outside e.tx (h.new c e he hc) txin htxin
  rw [hhash, contains_eq_false_iff, he₀] at hout
  cases hout

theorem Returning.acyclic (h : Returning s₀ seen s v) (hchain : FromChain s₀ seen)
    (hacyclic : ∀ a, ¬ Relation.TransGen s₀.Spends a a) (a : Uint256) :
    ¬ Relation.TransGen s.Spends a a := by
  have hr := h.returned hchain
  have hlt {x y : Uint256} (hspends : s.Spends x y) (hy : y ∈ v) : x ∈ v ∧ v.idxOf x < v.idxOf y := by
    have hx := hr.up x y hspends hy
    refine ⟨hx, ?_⟩
    by_contra hle
    have hne : v.idxOf y ≠ v.idxOf x := fun heq => h.irreflexive x hx ((List.idxOf_inj hy).1 heq ▸ hspends)
    have hidx : v.idxOf y < v.idxOf x := by omega
    have hnot := List.pairwise_iff_getElem.1 h.order (v.idxOf y) (v.idxOf x) (List.idxOf_lt_length_of_mem hy)
        (List.idxOf_lt_length_of_mem hx) hidx
    rw [List.getElem_idxOf, List.getElem_idxOf] at hnot
    exact hnot hspends
  have hinside {x y : Uint256} (hreach : Relation.TransGen s.Spends x y) : y ∈ v → x ∈ v ∧ v.idxOf x < v.idxOf y := by
    induction hreach with
    | single hstep => exact hlt hstep
    | tail _ hstep ih =>
      intro hy
      obtain ⟨hb, hb'⟩ := hlt hstep hy
      obtain ⟨hx, hx'⟩ := ih hb
      exact ⟨hx, hx'.trans hb'⟩
  have hold {x y : Uint256} (hx : x ∉ v) (hstep : s.Spends x y) : y ∉ v ∧ s₀.Spends x y := by
    have hy : y ∉ v := fun hy => hx (hr.up x y hstep hy)
    obtain ⟨e, he, hparent⟩ := hstep
    obtain ⟨hin, hmentioned⟩ := mem_parentsOf.1 hparent
    obtain ⟨e', he'⟩ := mem_ids.1 hin
    obtain ⟨e₀, he₀, htx⟩ := h.old y e he hy
    obtain ⟨e₁, he₁, -⟩ := h.old x e' he' hx
    rw [htx] at hmentioned
    exact ⟨hy, e₀, he₀, mem_parentsOf.2 ⟨mem_ids.2 ⟨e₁, he₁⟩, hmentioned⟩⟩
  have houtside {x y : Uint256} (hx : x ∉ v) (hreach : Relation.TransGen s.Spends x y) :
      y ∉ v ∧ Relation.TransGen s₀.Spends x y := by
    induction hreach with
    | single hstep => exact ⟨(hold hx hstep).1, .single (hold hx hstep).2⟩
    | tail _ hstep ih => exact ⟨(hold ih.1 hstep).1, ih.2.tail (hold ih.1 hstep).2⟩
  intro hcycle
  by_cases ha : a ∈ v
  · exact absurd (hinside hcycle ha).2 (Nat.lt_irrefl _)
  · exact hacyclic a (houtside ha hcycle).2

theorem settled_disconnectBlock (h : s.Settled) {vtx : List Resurrected} (hchain : FromChain s (vtx.map (·.tx))) :
    (disconnectBlock GetOutputFor s vtx).Settled := by
  have hreturning := returning_foldl GetOutputFor (returning_start h) (by simpa using hchain)
  rw [List.nil_append] at hreturning
  unfold disconnectBlock
  generalize vtx.foldl (resurrect GetOutputFor) (s, []) = acc at hreturning ⊢
  obtain ⟨halike, hlinked⟩ := updateTransactionsFromBlock_spec hreturning.sound hreturning.linked (hreturning.returned hchain)
  have hspends : (acc.1.updateTransactionsFromBlock acc.2).Spends = acc.1.Spends := by
    funext p c
    exact propext halike.spends
  refine ⟨halike.sound hreturning.sound, hlinked, ?_⟩
  rw [hspends]
  exact hreturning.acyclic hchain h.acyclic

/-! ## The other calls -/

structure Fewer (s t : CTxMemPool) : Prop where
  ids : t.ids ⊆ s.ids
  spends : ∀ p c, t.Spends p c → s.Spends p c

theorem Fewer.refl : Fewer s s := ⟨Finset.Subset.refl _, fun _ _ h => h⟩

theorem Fewer.trans {u : CTxMemPool} (h : Fewer s t) (h' : Fewer t u) : Fewer s u :=
  ⟨h'.ids.trans h.ids, fun p c hl => h.spends p c (h'.spends p c hl)⟩

theorem fewer_removeStaged (hS : S ⊆ s.ids) : Fewer s (s.removeStaged S) := by
  refine ⟨?_, fun p c h => ((spends_removeStaged hS).1 h).1⟩
  rw [ids_removeStaged hS]
  exact Finset.sdiff_subset

theorem fewer_remove (h : s.Settled) (tx : CTransaction) (fRecursive : Bool) : Fewer s (s.remove tx fRecursive) := by
  cases fRecursive with
  | false =>
    rw [remove_single]
    exact fewer_removeStaged (toRemove_subset _ h.sound false)
  | true =>
    rw [remove_recursive]
    exact fewer_removeStaged (h.linked.calculateAllDescendants_subset (toRemove_subset _ h.sound true))

theorem notMem_remove (h : s.Settled) (tx : CTransaction) (fRecursive : Bool) : tx.hash ∉ (s.remove tx fRecursive).ids := by
  have hsub := toRemove_subset tx h.sound fRecursive
  have hmem (hin : tx.hash ∈ s.ids) : tx.hash ∈ s.toRemove tx fRecursive := by
    unfold toRemove
    rw [if_pos (contains_iff.2 (mem_ids.1 hin))]
    exact Finset.mem_singleton_self _
  cases fRecursive with
  | false =>
    rw [remove_single, ids_removeStaged (toRemove_subset _ h.sound false), Finset.mem_sdiff]
    exact fun hin => hin.2 (hmem hin.1)
  | true =>
    rw [remove_recursive, ids_removeStaged (h.linked.calculateAllDescendants_subset hsub), Finset.mem_sdiff]
    exact fun hin => hin.2 ((h.linked.mem_calculateAllDescendants hsub).2 ⟨_, hmem hin.1, .refl⟩)

theorem settled_removeConflict (h : s.Settled) (hash : Uint256) (txin : CTxIn) :
    (removeConflict hash s txin).Settled ∧ Fewer s (removeConflict hash s txin) := by
  unfold removeConflict
  cases s.mapNextTx[txin.prevout]? with
  | none => exact ⟨h, .refl⟩
  | some txConflict =>
    dsimp only
    cases he : s.mapTx[txConflict]? with
    | none => exact ⟨h, .refl⟩
    | some e =>
      dsimp only
      split
      · have hgone := notMem_remove h e.tx true
        rw [h.sound.keyed txConflict e he] at hgone
        have hfewer := fewer_remove h e.tx true
        exact ⟨settled_clearPrioritisation (settled_remove_recursive h e.tx) hgone, hfewer.ids, hfewer.spends⟩
      · exact ⟨h, .refl⟩

theorem settled_removeConflicts (h : s.Settled) (tx : CTransaction) :
    (s.removeConflicts tx).Settled ∧ Fewer s (s.removeConflicts tx) := by
  unfold removeConflicts
  induction tx.vin generalizing s with
  | nil => exact ⟨h, .refl⟩
  | cons txin vin ih =>
    obtain ⟨hsettled, hfewer⟩ := settled_removeConflict h tx.hash txin
    obtain ⟨hrest, hfewer'⟩ := ih hsettled
    exact ⟨hrest, hfewer.trans hfewer'⟩

/-- The parents that a block's transaction has in the pool come before it in the block. -/
def ParentsFirst (s : CTxMemPool) : List CTransaction → List CTransaction → Prop
  | _, [] => True
  | before, tx :: vtx => (∀ p, s.Spends p tx.hash → p ∈ before.map (·.hash)) ∧ ParentsFirst s (before ++ [tx]) vtx

/-- The induction is on the block: those before the transaction are gone, so it has no
    parents in the pool at its turn. -/
theorem settled_removeForBlock {before vtx : List CTransaction} (h : t.Settled) (hfewer : Fewer s t)
    (hgone : ∀ tx ∈ before, tx.hash ∉ t.ids) (hparents : ParentsFirst s before vtx) : (t.removeForBlock vtx).Settled := by
  unfold removeForBlock
  induction vtx generalizing t before with
  | nil => exact h
  | cons tx vtx ih =>
    obtain ⟨hfirst, hrest⟩ := hparents
    have hnone (p : Uint256) : ¬ t.Spends p tx.hash := by
      intro hspends
      obtain ⟨tx', htx', rfl⟩ := List.mem_map.1 (hfirst p (hfewer.spends p _ hspends))
      exact hgone tx' htx' hspends.mem.1
    obtain ⟨hsettled, hfewer'⟩ := settled_removeConflicts (settled_remove h hnone) tx
    have hout : tx.hash ∉ ((t.remove tx false).removeConflicts tx).ids := fun hin => notMem_remove h tx false (hfewer'.ids hin)
    have hturn : Fewer t (removeMined t tx) := by
      have hboth := (fewer_remove h tx false).trans hfewer'
      exact ⟨hboth.ids, hboth.spends⟩
    refine ih (settled_clearPrioritisation hsettled hout) (hfewer.trans hturn) (fun tx' htx' hin => ?_) hrest
    rcases List.mem_append.1 htx' with htx' | htx'
    · exact hgone tx' htx' (hturn.ids hin)
    · exact hout (List.mem_singleton.1 htx' ▸ hin)

theorem settled_removeForReorg (h : s.Settled) (txs : List CTransaction) : (s.removeForReorg txs).Settled := by
  unfold removeForReorg
  induction txs generalizing s with
  | nil => exact h
  | cons tx txs ih => exact ih (settled_remove_recursive h tx)

theorem settled_expire (h : s.Settled) (time : Int) : (s.expire time).Settled := by
  refine settled_removeAll h fun it hit => ?_
  obtain ⟨⟨it, e⟩, hmem, rfl⟩ := List.mem_map.1 (List.mem_toFinset.1 hit)
  exact mem_ids.2 ⟨e, Std.TreeMap.mem_toList_iff_getElem?_eq_some.1 (List.mem_filter.1 hmem).1⟩

theorem calculateDescendants_eq (it : Uint256) : s.calculateDescendants ∅ it = s.calculateAllDescendants {it} := by
  simp [calculateAllDescendants]

theorem settled_trimToSize (h : s.Settled) (evicted : List Uint256) : (s.trimToSize evicted).Settled := by
  unfold trimToSize
  induction evicted generalizing s with
  | nil => exact h
  | cons it evicted ih =>
    refine ih ?_
    dsimp only
    split
    next hin =>
      rw [calculateDescendants_eq]
      exact settled_removeAll h (Finset.singleton_subset_iff.2 (mem_ids.2 (contains_iff.1 hin)))
    · exact h

/-! ## Runs -/

structure Childless (s : CTxMemPool) (tx : CTransaction) : Prop where
  children : ∀ c, ¬ s.Mentions tx.hash c
  self : ∀ txin ∈ tx.vin, txin.prevout.hash ≠ tx.hash

theorem not_mentions_iff {x : Uint256} :
    (∀ c, ¬ s.Mentions x c) ↔ ∀ it ∈ s.mapTx.toList, ∀ txin ∈ it.2.tx.vin, txin.prevout.hash ≠ x := by
  constructor
  · intro h it hit txin htxin hhash
    exact h it.1 ⟨it.2, Std.TreeMap.mem_toList_iff_getElem?_eq_some.1 hit, txin, htxin, hhash⟩
  · rintro h c ⟨e, he, txin, htxin, hhash⟩
    exact h (c, e) (Std.TreeMap.mem_toList_iff_getElem?_eq_some.2 he) txin htxin hhash

theorem parents_iff {l : List Uint256} : (∀ p, s.Spends p c → p ∈ l) ↔ ∀ e ∈ s.mapTx[c]?, ∀ p ∈ s.parentsOf e.tx, p ∈ l := by
  constructor
  · exact fun h e he p hp => h p ⟨e, he, hp⟩
  · rintro h p ⟨e, he, hp⟩
    exact h e he p hp

instance (x : Uint256) : Decidable (∀ c, ¬ s.Mentions x c) := decidable_of_iff' _ not_mentions_iff

instance (l : List Uint256) : Decidable (∀ p, s.Spends p c → p ∈ l) := decidable_of_iff' _ parents_iff

instance : Decidable (s.Childless tx) :=
  decidable_of_iff ((∀ c, ¬ s.Mentions tx.hash c) ∧ ∀ txin ∈ tx.vin, txin.prevout.hash ≠ tx.hash)
    ⟨fun h => ⟨h.1, h.2⟩, fun h => ⟨h.children, h.self⟩⟩

instance (txs : List CTransaction) : Decidable (s.FromChain txs) :=
  decidable_of_iff ((txs.map (·.hash)).Nodup ∧ (∀ tx ∈ txs, ∀ txin ∈ tx.vin, s.mapTx.contains txin.prevout.hash = false) ∧
      (txs.Pairwise fun tx later => ∀ txin ∈ tx.vin, txin.prevout.hash ≠ later.hash) ∧
        ∀ tx ∈ txs, ∀ txin ∈ tx.vin, txin.prevout.hash ≠ tx.hash)
    ⟨fun h => ⟨h.1, h.2.1, h.2.2.1, h.2.2.2⟩, fun h => ⟨h.hashes, h.outside, h.order, h.self⟩⟩

instance decidableParentsFirst : (before vtx : List CTransaction) → Decidable (s.ParentsFirst before vtx)
  | _, [] => .isTrue trivial
  | before, tx :: vtx =>
    have := decidableParentsFirst (before ++ [tx]) vtx
    inferInstanceAs (Decidable ((∀ p, s.Spends p tx.hash → p ∈ before.map (·.hash)) ∧ s.ParentsFirst (before ++ [tx]) vtx))

end CTxMemPool

open CTxMemPool

/-- The calls, and the bare `addUnchecked`. -/
inductive PoolEvent
  | addUnchecked (tx : CTransaction) (nFee : CAmount) (nTime : Int) (nTxSize : Nat)
  | mempool (e : MempoolEvent)

def poolStep (GetOutputFor : COutPoint → CTxOut) (s : CTxMemPool) : PoolEvent → CTxMemPool
  | .addUnchecked tx nFee nTime nTxSize => s.addUnchecked (.new tx nFee nTime nTxSize)
      (s.calculateMemPoolAncestors (s.parentsOf tx))
  | .mempool e => mempoolStep GetOutputFor s e

def InOrder (s : CTxMemPool) : PoolEvent → Prop
  | .addUnchecked tx _ _ _ => s.mapTx[tx.hash]? = none ∧ (∀ txin ∈ tx.vin, s.mapNextTx[txin.prevout]? = none) ∧ s.Childless tx
  | .mempool (.accept tx _ _ _) => s.mapTx[tx.hash]? = none → s.Childless tx
  | .mempool (.remove tx fRecursive) => fRecursive = false → ∀ p, s.Spends p tx.hash → p ∈ []
  | .mempool (.removeForBlock vtx) => s.ParentsFirst [] vtx
  | .mempool (.disconnectBlock vtx) => s.FromChain (vtx.map (·.tx))
  | _ => True

instance : (s : CTxMemPool) → (e : PoolEvent) → Decidable (InOrder s e)
  | s, .addUnchecked tx _ _ _ =>
    inferInstanceAs (Decidable (s.mapTx[tx.hash]? = none ∧ (∀ txin ∈ tx.vin, s.mapNextTx[txin.prevout]? = none) ∧ s.Childless tx))
  | s, .mempool (.accept tx _ _ _) => inferInstanceAs (Decidable (s.mapTx[tx.hash]? = none → s.Childless tx))
  | s, .mempool (.remove tx fRecursive) => inferInstanceAs (Decidable (fRecursive = false → ∀ p, s.Spends p tx.hash → p ∈ []))
  | s, .mempool (.removeForBlock vtx) => inferInstanceAs (Decidable (s.ParentsFirst [] vtx))
  | s, .mempool (.disconnectBlock vtx) => inferInstanceAs (Decidable (s.FromChain (vtx.map (·.tx))))
  | _, .mempool (.removeConflicts _) | _, .mempool (.removeForReorg _) | _, .mempool (.expire _) | _, .mempool (.trimToSize _)
  | _, .mempool (.prioritise _ _) | _, .mempool .clear => .isTrue trivial

variable {GetOutputFor : COutPoint → CTxOut} {s : CTxMemPool} {e : PoolEvent}

theorem event_settled (h : s.Settled) (hok : InOrder s e) : (poolStep GetOutputFor s e).Settled := by
  cases e with
  | addUnchecked tx nFee nTime nTxSize =>
    obtain ⟨hnew, hfree, hchildless⟩ := hok
    exact settled_addUnchecked h hnew hfree hchildless.children hchildless.self (Int.natCast_nonneg nTxSize)
  | mempool e =>
    cases e with
    | accept tx nFee nTime nTxSize =>
      exact settled_accept h (fun hnew => ⟨(hok hnew).children, (hok hnew).self⟩) (Int.natCast_nonneg nTxSize)
    | remove tx fRecursive =>
      cases fRecursive with
      | false => exact settled_remove h fun p hp => (by cases hok rfl p hp)
      | true => exact settled_remove_recursive h tx
    | removeConflicts tx => exact (settled_removeConflicts h tx).1
    | removeForBlock vtx => exact settled_removeForBlock h .refl (fun tx htx => (by cases htx)) hok
    | removeForReorg txs => exact settled_removeForReorg h txs
    | expire time => exact settled_expire h time
    | trimToSize evicted => exact settled_trimToSize h evicted
    | prioritise hash nFeeDelta => exact settled_prioritise h hash nFeeDelta
    | disconnectBlock vtx => exact settled_disconnectBlock h hok
    | clear => exact settled_empty rfl rfl rfl rfl

/-- In every run from the empty pool whose events are in order, the pool's invariants hold. -/
theorem poolInv_of_orderly (GetOutputFor : COutPoint → CTxOut) (es : List PoolEvent)
    (hm : Meets (fun s e => some (poolStep GetOutputFor s e)) InOrder .empty es) :
    (es.foldl (poolStep GetOutputFor) .empty).PoolInv := by
  have hstep : ∀ s e s', s.Settled → InOrder s e → some (poolStep GetOutputFor s e) = some s' → s'.Settled := by
    intro s e s' h hok hs'
    cases hs'
    exact event_settled h hok
  have hrun : run (fun s e => some (poolStep GetOutputFor s e)) .empty es = some (es.foldl (poolStep GetOutputFor) .empty) :=
    run_total (fun _ _ => rfl) CTxMemPool.empty es
  exact (run_inv_of_meets Settled hstep hm (settled_empty rfl rfl rfl rfl) hrun).poolInv

/-! ### Runs on a chain of three transactions -/

namespace PoolRunSample

/-- The transaction `hash` spends the one output of `spent`. -/
def spending (hash spent : Uint256) : CTransaction := ⟨⟨[⟨⟨spent, 0⟩, [], 0⟩], [⟨5, []⟩], hash⟩, 1⟩

def accepted (hash spent : Uint256) : PoolEvent := .mempool (.accept (spending hash spent) 10 0 200)

def disconnected (txs : List CTransaction) : PoolEvent := .mempool (.disconnectBlock (txs.map fun tx => ⟨tx, some (10, 0, 200)⟩))

def pool (es : List PoolEvent) : CTxMemPool := es.foldl (poolStep fun _ => ⟨6, []⟩) .empty

/-- The first two of the chain come back above the third; the first is mined again. -/
def orderly : List PoolEvent :=
  [accepted 3 2, disconnected [spending 1 7, spending 2 1], .mempool (.removeForBlock [spending 1 7]),
    .mempool (.prioritise 3 50)]

def middleRemoved : List PoolEvent :=
  [accepted 3 2, disconnected [spending 1 7, spending 2 1], .mempool (.remove (spending 2 1) false)]

def addedAbove : List PoolEvent := [accepted 3 2, .addUnchecked (spending 2 1) 10 0 200]

/-- The second comes back from a block, and the first was in the pool all the while. -/
def notFromChain : List PoolEvent := [accepted 1 7, accepted 3 2, disconnected [spending 2 1]]

end PoolRunSample

open PoolRunSample

theorem poolInv_of_orderly_sample :
    Meets (fun s e => some (poolStep (fun _ => ⟨6, []⟩) s e)) InOrder .empty orderly ∧ (pool orderly).PoolInv := by
  have hm : Meets (fun s e => some (poolStep (fun _ => ⟨6, []⟩) s e)) InOrder .empty orderly := by decide +kernel
  exact ⟨hm, poolInv_of_orderly _ orderly hm⟩

theorem count_of_poolInv (it : Uint256) {n : Int} (h : s.PoolInv) (hcount : (s.mapTx[it]?).map (·.nCountWithDescendants) = some n)
    (hn : n ≠ 0) : n = (s.descendants it).card := by
  obtain ⟨e, he, rfl⟩ := Option.map_eq_some_iff.1 hcount
  have hclean : s.dirtyAt it = false := by simpa [dirtyAt, he, CTxMemPoolEntry.isDirty] using hn
  rw [(h.counted it e he).1, descendantCount, hclean, if_neg (by decide)]

theorem spends_of_any {p c : Uint256} (h : (s.mapTx[c]?).any (fun e => decide (p ∈ s.parentsOf e.tx)) = true) : s.Spends p c := by
  cases he : s.mapTx[c]? with
  | none => simp [he] at h
  | some e => exact ⟨e, he, by simpa [he] using h⟩

/-- Removed from between two others, added above its child, spending what is in the pool. -/
theorem disorderly_pools : ¬ (pool middleRemoved).PoolInv ∧ ¬ (pool addedAbove).PoolInv ∧ ¬ (pool notFromChain).PoolInv := by
  refine ⟨fun h => ?_, fun h => ?_, fun h => ?_⟩
  · have hcount := count_of_poolInv 1 (n := 2) h (by decide +kernel) (by decide)
    have hnone : ∀ c, ¬ (pool middleRemoved).Mentions 1 c := by decide +kernel
    have halone : (pool middleRemoved).descendants 1 ⊆ {1} := by
      intro d hd
      rcases (mem_package.1 hd).2.cases_head with heq | ⟨c, hstep, -⟩
      · exact Finset.mem_singleton.2 heq.symm
      · exact absurd hstep.mentions (hnone c)
    have hcard := Finset.card_le_card halone
    rw [Finset.card_singleton] at hcard
    omega
  · have hspends : (pool addedAbove).Spends 2 3 := spends_of_any (by decide +kernel)
    have hchild := (h.children 2 3).2 hspends
    have hnot : 3 ∉ (pool addedAbove).getMemPoolChildren 2 := by decide +kernel
    exact hnot hchild
  · have hcount := count_of_poolInv 1 (n := 2) h (by decide +kernel) (by decide)
    have hspends : (pool notFromChain).Spends 1 2 := spends_of_any (by decide +kernel)
    have hspends' : (pool notFromChain).Spends 2 3 := spends_of_any (by decide +kernel)
    have hthree : {1, 2, 3} ⊆ (pool notFromChain).descendants 1 := by
      intro d hd
      simp only [Finset.mem_insert, Finset.mem_singleton] at hd
      rcases hd with rfl | rfl | rfl
      · exact mem_package.2 ⟨hspends.mem.1, .refl⟩
      · exact mem_package.2 ⟨hspends.mem.2, .single hspends⟩
      · exact mem_package.2 ⟨hspends'.mem.2, .head hspends (.single hspends')⟩
    have hcard := Finset.card_le_card hthree
    have hsize : ({1, 2, 3} : SetEntries).card = 3 := rfl
    omega

end Zumy.Mempool
