/-
  Zumy.Mempool.Reorg — `UpdateTransactionsFromBlock` (txmempool.cpp).

  A transaction that comes back from a block is linked to the others of the block, and not
  to those of its children that were in the pool already: the links are `Within` the block.
  They are completed from the last transaction of the block to the first. At its turn, the
  block's transactions below it are done, so what the search finds and the block has not is
  just what its tally lacks.

  - `joining_turn`: one transaction's links and tally.
  - `updateTransactionsFromBlock_spec`: afterwards the links are what the transactions
    spend, and the tallies are of the packages, but for the dirty ones.
-/
import Zumy.Mempool.Descendants
import Zumy.Mempool.Links

namespace Zumy.Mempool

open Zumy.Lib

namespace CTxMemPool

/-- Those of `block` lead to the others only where they are done. -/
def Within (spends : Uint256 → Uint256 → Prop) (block done : SetEntries) (p c : Uint256) : Prop :=
  spends p c ∧ (p ∈ block → c ∈ block ∨ p ∈ done)

section Graph

variable {spends : Uint256 → Uint256 → Prop} {block done : SetEntries} {x y : Uint256}

theorem within_mono (h : Relation.ReflTransGen (Within spends block done) x y) : Relation.ReflTransGen spends x y :=
  Relation.ReflTransGen.mono (fun _ _ h => h.1) _ _ h

theorem reach_within (hup : ∀ p c, spends p c → c ∈ block → p ∈ block) (hdone : ∀ d ∈ done, ∀ c ∈ block, spends d c → c ∈ done)
    (hx : x ∈ block → x ∈ done) : Relation.ReflTransGen (Within spends block done) x y ↔ Relation.ReflTransGen spends x y := by
  refine ⟨within_mono, fun h => ?_⟩
  suffices hboth : Relation.ReflTransGen (Within spends block done) x y ∧ (y ∈ block → y ∈ done) from hboth.1
  induction h with
  | refl => exact ⟨.refl, hx⟩
  | @tail b c _ hstep ih =>
    refine ⟨ih.1.tail ⟨hstep, fun hb => .inr (ih.2 hb)⟩, fun hc => ?_⟩
    exact hdone b (ih.2 (hup b c hstep hc)) c hc hstep

theorem reach_block (hup : ∀ p c, spends p c → c ∈ block → p ∈ block) (hy : y ∈ block) (h : Relation.ReflTransGen spends x y) :
    Relation.ReflTransGen (Within spends block ∅) x y := by
  induction h with
  | refl => exact .refl
  | @tail b c _ hstep ih => exact (ih (hup b c hstep hy)).tail ⟨hstep, fun _ => .inl hy⟩

theorem mem_block_of_reach (hx : x ∈ block) (h : Relation.ReflTransGen (Within spends block ∅) x y) : y ∈ block := by
  induction h with
  | refl => exact hx
  | tail _ hstep ih => exact (hstep.2 ih).resolve_right (Finset.notMem_empty _)

open scoped Classical in
theorem packageSum_split {M : Type} [AddCommGroup M] {N rest : SetEntries} {w : Uint256 → M}
    (hup : ∀ p c, spends p c → c ∈ block → p ∈ block) (hx : x ∈ block) (hrestN : rest ⊆ N)
    (hrest : ∀ d, d ∈ rest ↔ Relation.ReflTransGen spends x d ∧ d ∉ block) :
    packageSum spends N w x = packageSum (Within spends block ∅) N w x + ∑ d ∈ rest, w d := by
  have hdisjoint : Disjoint (package (Within spends block ∅) N x) rest := by
    rw [Finset.disjoint_left]
    intro d hd hmem
    exact ((hrest d).1 hmem).2 (mem_block_of_reach hx (mem_package.1 hd).2)
  have hpackage : package spends N x = package (Within spends block ∅) N x ∪ rest := by
    ext d
    rw [Finset.mem_union, mem_package, mem_package]
    constructor
    · rintro ⟨hd, hreach⟩
      by_cases hin : d ∈ block
      · exact .inl ⟨hd, reach_block hup hin hreach⟩
      · exact .inr ((hrest d).2 ⟨hreach, hin⟩)
    · rintro (⟨hd, hreach⟩ | hd)
      · exact ⟨hd, within_mono hreach⟩
      · exact ⟨hrestN hd, ((hrest d).1 hd).1⟩
  rw [packageSum, hpackage, Finset.sum_union hdisjoint, packageSum]

end Graph

/-! ## The children that were in the pool -/

variable {s s₀ : CTxMemPool} {block done : SetEntries} {cached : CacheMap} {h p c a : Uint256} {e : CTxMemPoolEntry}

theorem mem_nextChildren (hs : s.Sound) (hin : h ∈ s.ids) : c ∈ s.nextChildren h ↔ s.Spends h c := by
  have hmem : c ∈ s.nextChildren h ↔ ∃ o : COutPoint, s.mapNextTx[o]? = some c ∧ o.hash = h := by
    simp only [nextChildren, List.mem_toFinset, List.mem_map, List.mem_filter, decide_eq_true_eq, Prod.exists,
      Std.TreeMap.mem_toList_iff_getElem?_eq_some]
    constructor
    · rintro ⟨o, c, ⟨ho, hhash⟩, rfl⟩
      exact ⟨o, ho, hhash⟩
    · rintro ⟨o, ho, hhash⟩
      exact ⟨o, c, ⟨ho, hhash⟩, rfl⟩
  rw [hmem]
  constructor
  · rintro ⟨o, ho, hhash⟩
    obtain ⟨e, he, txin, htxin, rfl⟩ := (hs.spent o c).1 ho
    exact ⟨e, he, mem_parentsOf.2 ⟨hin, txin, htxin, hhash⟩⟩
  · rintro ⟨e, he, hp⟩
    obtain ⟨-, txin, htxin, hhash⟩ := mem_parentsOf.1 hp
    exact ⟨txin.prevout, (hs.spent _ c).2 ⟨e, he, txin, htxin, rfl⟩, hhash⟩

def linkChildren (s : CTxMemPool) (h : Uint256) (children : SetEntries) : CTxMemPool :=
  (children.sort (· ≤ ·)).foldl (fun s childIter => (s.updateChild h childIter true).updateParent childIter h true) s

theorem alike_linkChildren (children : SetEntries) : Alike s (s.linkChildren h children) :=
  alike_foldl (fun _ childIter => Alike.trans (alike_updateChild childIter true) (alike_updateParent h true)) _

theorem linkChildren_links (children : SetEntries) :
    (p ∈ (s.linkChildren h children).getMemPoolParents c ↔ p ∈ s.getMemPoolParents c ∨ (p = h ∧ c ∈ children)) ∧
      (c ∈ (s.linkChildren h children).getMemPoolChildren p ↔ c ∈ s.getMemPoolChildren p ∨ (p = h ∧ c ∈ children)) ∧
      (s.linkChildren h children).mapTx = s.mapTx := by
  have hfold (l : List Uint256) (s : CTxMemPool) :
      let s' := l.foldl (fun s childIter => (s.updateChild h childIter true).updateParent childIter h true) s
      (p ∈ s'.getMemPoolParents c ↔ p ∈ s.getMemPoolParents c ∨ (p = h ∧ c ∈ l)) ∧
        (c ∈ s'.getMemPoolChildren p ↔ c ∈ s.getMemPoolChildren p ∨ (p = h ∧ c ∈ l)) ∧ s'.mapTx = s.mapTx := by
    induction l generalizing s with
    | nil => simp
    | cons x l ih =>
      obtain ⟨hparents, hchildren, hmap⟩ := ih ((s.updateChild h x true).updateParent x h true)
      dsimp only at hparents hchildren hmap ⊢
      rw [List.foldl_cons, hparents, hchildren, hmap, parents_updateParent, children_updateParent, children_updateChild,
        parents_updateChild,
        parents_updateChild]
      refine ⟨?_, ?_, rfl⟩
      · by_cases hc : c = x
        · rw [if_pos hc, mem_addTo, if_pos rfl, List.mem_cons]
          by_cases hp : p = h <;> simp [hp, hc]
        · simp [hc]
      · by_cases hp : p = h
        · rw [if_pos hp, mem_addTo, if_pos rfl, List.mem_cons]
          by_cases hc : c = x <;> simp [hp, hc]
        · simp [hp]
  have hsort := hfold (children.sort (· ≤ ·)) s
  simp only [Finset.mem_sort] at hsort
  exact hsort

/-! ## One transaction of the block -/

/-- The transactions of `done` are linked, and have their tallies. -/
structure Joining (s₀ : CTxMemPool) (block done : SetEntries) (s : CTxMemPool) (cached : CacheMap) : Prop where
  alike : Alike s₀ s
  parents : ∀ p c, p ∈ s.getMemPoolParents c ↔ Within s₀.Spends block done p c
  children : ∀ p c, c ∈ s.getMemPoolChildren p ↔ Within s₀.Spends block done p c
  pending : ∀ a ∈ block, a ∉ done → ∀ e : CTxMemPoolEntry, s.mapTx[a]? = some e →
    e.tally = e.ownTally ∨ e.tally = packageSum (Within s₀.Spends block ∅) s₀.ids s₀.weight a
  counted : ∀ a, (a ∈ block → a ∈ done) → ∀ e : CTxMemPoolEntry, s.mapTx[a]? = some e →
    e.tally = e.ownTally ∨ e.tally = packageSum s₀.Spends s₀.ids s₀.weight a
  cache : ∀ (c : Uint256) (E : SetEntries), cached[c]? = some E →
    c ∈ block ∧ c ∈ done ∧ ∀ y, y ∈ E ↔ Relation.ReflTransGen s₀.Spends c y ∧ y ∉ block

theorem sum_weight {D : SetEntries} (hD : D ⊆ s.ids) : ∑ d ∈ D, s.weight d = ((D.card : Int),
    ∑ d ∈ D, (s.mapTx[d]?).elim 0 CTxMemPoolEntry.nTxSize, ∑ d ∈ D, (s.mapTx[d]?).elim 0 CTxMemPoolEntry.getModifiedFee) := by
  have hweight : ∀ d ∈ D, s.weight d = (1, (s.mapTx[d]?).elim 0 CTxMemPoolEntry.nTxSize, (s.mapTx[d]?).elim 0 CTxMemPoolEntry.getModifiedFee) := by
    intro d hd
    obtain ⟨e, he⟩ := mem_ids.1 (hD hd)
    rw [weight_of_some he, he]
    rfl
  rw [Finset.sum_congr rfl hweight]
  refine Prod.ext ?_ (Prod.ext ?_ ?_)
  · rw [Prod.fst_sum]
    simp
  · rw [Prod.snd_sum, Prod.fst_sum]
  · rw [Prod.snd_sum, Prod.snd_sum]

theorem found_spec {m : Nat} {v : Visit} (hup : ∀ p c, s₀.Spends p c → c ∈ block → p ∈ block)
    (hdone : ∀ d ∈ insert h done, ∀ c ∈ block, s₀.Spends d c → c ∈ insert h done) (halike : Alike s₀ s)
    (hchildren : ∀ p c, c ∈ s.getMemPoolChildren p ↔ Within s₀.Spends block (insert h done) p c)
    (hcache : ∀ (c : Uint256) (E : SetEntries), cached[c]? = some E →
      c ∈ block ∧ c ∈ done ∧ ∀ y, y ∈ E ↔ Relation.ReflTransGen s₀.Spends c y ∧ y ∉ block) (hh : h ∈ block)
    (hv : s.visitLoop block m cached s.mapTx.size ⟨s.getMemPoolChildren h, ∅, 0⟩ = some v) (y : Uint256) :
    y ∈ v.setAllDescendants \ block ↔ Relation.ReflTransGen s₀.Spends h y ∧ y ∉ block := by
  have hedge : (fun a b => b ∈ s.getMemPoolChildren a) = Within s₀.Spends block (insert h done) := by
    funext a b
    exact propext (hchildren a b)
  have hreach (x : Uint256) (hx : x ∈ block → x ∈ insert h done) (y : Uint256) :
      Reach s.getMemPoolChildren x y ↔ Relation.ReflTransGen s₀.Spends x y := by
    rw [Reach, hedge, reach_within hup hdone hx]
  have hnext : ∀ k ∈ s.ids, s.getMemPoolChildren k ⊆ s.ids := fun k _ c hc => by
    rw [halike.ids]
    exact ((hchildren k c).1 hc).1.mem.2
  have hexact : CacheExact s.getMemPoolChildren block cached := by
    refine ⟨fun c E hE => (hcache c E hE).1, fun c E hE y => ?_⟩
    obtain ⟨-, hc, hfound⟩ := hcache c E hE
    rw [hfound, hreach c fun _ => Finset.mem_insert_of_mem hc]
  have hout : ∀ y ∉ block, ∀ z ∈ s.getMemPoolChildren y, z ∉ block :=
    fun y hy z hz hzB => hy (hup y z ((hchildren y z).1 hz).1 hzB)
  have hstart : s.getMemPoolChildren h ⊆ s.ids := fun c hc => by
    rw [halike.ids]
    exact ((hchildren h c).1 hc).1.mem.2
  rw [visitLoop_spec hnext hexact hout hstart card_ids.le hv, ← hreach h (fun _ => Finset.mem_insert_self h done)]
  refine and_congr_left fun hy => ?_
  constructor
  · rintro ⟨x, hx, hxy⟩
    exact .head hx hxy
  · intro hhy
    rcases hhy.cases_head with rfl | ⟨x, hx, hxy⟩
    · exact absurd hh hy
    · exact ⟨x, hx, hxy⟩

theorem within_insert (hin : h ∈ block) (hlater : ∀ c ∈ block, s₀.Spends h c → c ∈ done) :
    Within s₀.Spends block (insert h done) p c ↔ Within s₀.Spends block done p c ∨ (p = h ∧ s₀.Spends h c ∧ c ∉ block) := by
  unfold Within
  rw [Finset.mem_insert]
  by_cases hp : p = h
  · subst hp
    by_cases hc : c ∈ block <;> simp [hc, hin]
    tauto
  · simp [hp]

theorem Joining.skip (hj : Joining s₀ block done s cached) (hout : h ∉ s₀.ids) : Joining s₀ block (insert h done) s cached := by
  have hwithin (p c : Uint256) : Within s₀.Spends block (insert h done) p c ↔ Within s₀.Spends block done p c := by
    unfold Within
    refine and_congr_right fun hspends => ?_
    have hne : p ≠ h := fun heq => hout (heq ▸ hspends.mem.1)
    simp [hne]
  have hne {a : Uint256} {e : CTxMemPoolEntry} (he : s.mapTx[a]? = some e) : a ≠ h := by
    rintro rfl
    rw [← hj.alike.ids] at hout
    exact hout (mem_ids.2 ⟨e, he⟩)
  refine ⟨hj.alike, fun p c => (hj.parents p c).trans (hwithin p c).symm, fun p c => (hj.children p c).trans (hwithin p c).symm,
    fun a ha hnot e he => hj.pending a ha (fun hd => hnot (Finset.mem_insert_of_mem hd)) e he, fun a ha e he =>
      ?_, fun c E hE => ?_⟩
  · exact hj.counted a (fun hin => (Finset.mem_insert.1 (ha hin)).resolve_left (hne he)) e he
  · obtain ⟨hblock, hc, hfound⟩ := hj.cache c E hE
    exact ⟨hblock, Finset.mem_insert_of_mem hc, hfound⟩

theorem Joining.finish {t : CTxMemPool} {f : CTxMemPoolEntry → CTxMemPoolEntry} {cached' : CacheMap}
    (hj : Joining s₀ block done s cached)
    (halike : Alike s t) (hmap : t.mapTx = s.mapTx)
    (hparents : ∀ p c, p ∈ t.getMemPoolParents c ↔ Within s₀.Spends block (insert h done) p c)
    (hchildren : ∀ p c, c ∈ t.getMemPoolChildren p ↔ Within s₀.Spends block (insert h done) p c)
    (hf : ∀ e, (f e).blank = e.blank)
    (htally : ∀ e : CTxMemPoolEntry, t.mapTx[h]? = some e →
      (f e).tally = (f e).ownTally ∨ (f e).tally = packageSum s₀.Spends s₀.ids s₀.weight h)
    (hcache : ∀ (c : Uint256) (E : SetEntries), cached'[c]? = some E →
      c ∈ block ∧ c ∈ insert h done ∧ ∀ y, y ∈ E ↔ Relation.ReflTransGen s₀.Spends c y ∧ y ∉ block) :
    Joining s₀ block (insert h done) (t.modify h f) cached' := by
  have hother {a : Uint256} {e : CTxMemPoolEntry} (ha : a ≠ h) (he : (t.modify h f).mapTx[a]? = some e) :
      s.mapTx[a]? = some e := by
    rwa [modify, lookup_modify, if_neg ha, hmap] at he
  refine ⟨hj.alike.trans (halike.trans (alike_modify hf)), hparents, hchildren, fun a ha hnot e he => ?_,
    fun a ha e he => ?_, hcache⟩
  · rw [Finset.mem_insert, not_or] at hnot
    exact hj.pending a ha hnot.2 e (hother hnot.1 he)
  · by_cases hah : a = h
    · rw [hah, modify, lookup_modify, if_pos rfl] at he
      obtain ⟨x, hx, rfl⟩ := Option.map_eq_some_iff.1 he
      rw [hah]
      exact htally x hx
    · exact hj.counted a (fun hin => (Finset.mem_insert.1 (ha hin)).resolve_left hah) e (hother hah he)

theorem updateFromBlock_contained (hcontains : s.mapTx.contains h = true) : updateFromBlock block s cached h =
    ((s.linkChildren h (s.nextChildren h \ block)).updateForDescendants block h 100 cached).getD
      ((s.linkChildren h (s.nextChildren h \ block)).modify h CTxMemPoolEntry.setDirty, cached) := by
  rw [updateFromBlock, if_pos hcontains]
  dsimp only [linkChildren]
  split
  · rename_i r hr
    rw [hr, Option.getD_some]
  · rename_i hnone
    rw [hnone, Option.getD_none]

theorem joining_turn (hs : s₀.Sound) (hup : ∀ p c, s₀.Spends p c → c ∈ block → p ∈ block)
    (hdone : ∀ d ∈ done, ∀ c ∈ block, s₀.Spends d c → c ∈ done) (hj : Joining s₀ block done s cached) (hh : h ∈ block)
    (hnot : h ∉ done)
    (hlater : ∀ c ∈ block, s₀.Spends h c → c ∈ done) :
    Joining s₀ block (insert h done) (updateFromBlock block s cached h).1 (updateFromBlock block s cached h).2 := by
  by_cases hcontains : s.mapTx.contains h = true
  swap
  · rw [updateFromBlock, if_neg hcontains]
    refine hj.skip fun hin => hcontains ?_
    rw [← hj.alike.ids] at hin
    exact contains_iff.2 (mem_ids.1 hin)
  rw [updateFromBlock_contained hcontains]
  have hin : h ∈ s.ids := mem_ids.2 (contains_iff.1 hcontains)
  obtain ⟨t, ht⟩ : ∃ t, t = s.linkChildren h (s.nextChildren h \ block) := ⟨_, rfl⟩
  have hlinks (p c : Uint256) := linkChildren_links (s := s) (h := h) (p := p) (c := c) (s.nextChildren h \ block)
  have halike : Alike s t := ht ▸ alike_linkChildren _
  have hnew (p c : Uint256) : (p = h ∧ c ∈ s.nextChildren h \ block) ↔ (p = h ∧ s₀.Spends h c ∧ c ∉ block) := by
    rw [Finset.mem_sdiff, mem_nextChildren (hj.alike.sound hs) hin, hj.alike.spends]
  rw [← ht] at hlinks
  have hparents (p c : Uint256) : p ∈ t.getMemPoolParents c ↔ Within s₀.Spends block (insert h done) p c := by
    rw [(hlinks p c).1, hj.parents, hnew, within_insert hh hlater]
  have hchildren (p c : Uint256) : c ∈ t.getMemPoolChildren p ↔ Within s₀.Spends block (insert h done) p c := by
    rw [(hlinks p c).2.1, hj.children, hnew, within_insert hh hlater]
  have hmap : t.mapTx = s.mapTx := (hlinks h h).2.2
  rw [← ht]
  have hcache : ∀ (c : Uint256) (E : SetEntries), cached[c]? = some E →
      c ∈ block ∧ c ∈ insert h done ∧ ∀ y, y ∈ E ↔ Relation.ReflTransGen s₀.Spends c y ∧ y ∉ block := by
    intro c E hE
    obtain ⟨hblock, hc, hfound⟩ := hj.cache c E hE
    exact ⟨hblock, Finset.mem_insert_of_mem hc, hfound⟩
  cases hupdate : t.updateForDescendants block h 100 cached with
  | none => exact hj.finish halike hmap hparents hchildren (fun e => rfl) (fun e _ => .inl rfl) hcache
  | some r =>
    obtain ⟨v, hv, rfl⟩ := Option.map_eq_some_iff.1 hupdate
    have hdone' : ∀ d ∈ insert h done, ∀ c ∈ block, s₀.Spends d c → c ∈ insert h done := by
      intro d hd c hc hspends
      rcases Finset.mem_insert.1 hd with rfl | hd
      · exact Finset.mem_insert_of_mem (hlater c hc hspends)
      · exact Finset.mem_insert_of_mem (hdone d hd c hc hspends)
    have hfound := found_spec hup hdone' (hj.alike.trans halike) hchildren hj.cache hh hv
    rw [Option.getD_some]
    dsimp only
    refine hj.finish halike hmap hparents hchildren (fun e => CTxMemPoolEntry.blank_updateState) (fun e he => ?_) fun c E hE => ?_
    · rw [hmap] at he
      rcases hj.pending h hh hnot e he with hown | hcount
      · exact .inl (tally_dirty hown)
      · right
        have hin₀ : h ∈ s₀.ids := hj.alike.ids ▸ hin
        have hpos : e.tally.1 ≠ 0 := by
          have hone := one_le_packageSum (L := Within s₀.Spends block ∅) hin₀
          rw [← hcount] at hone
          omega
        have hsub : v.setAllDescendants \ block ⊆ s₀.ids := by
          intro y hy
          obtain ⟨hreach, hout⟩ := (hfound y).1 hy
          rcases hreach.cases_tail with rfl | ⟨x, -, hstep⟩
          · exact hin₀
          · exact hstep.mem.2
        have hsub' : v.setAllDescendants \ block ⊆ t.ids := by
          rw [(hj.alike.trans halike).ids]
          exact hsub
        rw [tally_bump hpos, packageSum_split hup hh hsub hfound, hcount, ← (hj.alike.trans halike).weight, sum_weight hsub']
    · split at hE
      · exact hcache c E hE
      · rw [lookup_insert] at hE
        split at hE
        next hc =>
          cases hE
          have hnone : cached[h]? = none := by
            cases hE : cached[h]? with
            | none => rfl
            | some E => exact absurd (hj.cache h E hE).2.1 hnot
          rw [hc, hnone]
          refine ⟨hh, Finset.mem_insert_self h done, fun y => ?_⟩
          rw [Option.getD_none, Finset.empty_union]
          exact hfound y
        · exact hcache c E hE

/-! ## All of them -/

/-- The induction is on the transactions from the last to the first: those that are left
    are spent by none of those before them. -/
theorem joining_foldl (hs : s₀.Sound) (hup : ∀ p c, s₀.Spends p c → c ∈ block → p ∈ block) {l : List Uint256} (hl : l.Nodup)
    (hin : ∀ h ∈ l, h ∈ block ∧ h ∉ done ∧ ¬ s₀.Spends h h) (hall : ∀ c ∈ block, c ∈ done ∨ c ∈ l)
    (horder : l.Pairwise fun a b => ¬ s₀.Spends a b) (hdone : ∀ d ∈ done, ∀ c ∈ block, s₀.Spends d c → c ∈ done)
    (hj : Joining s₀ block done s cached) :
    Joining s₀ block (done ∪ l.toFinset) (l.foldl (fun (s, cached) hash => updateFromBlock block s cached hash) (s, cached)).1
      (l.foldl (fun (s, cached) hash => updateFromBlock block s cached hash) (s, cached)).2 := by
  induction l generalizing s cached done with
  | nil => simpa using hj
  | cons h l ih =>
    rw [List.nodup_cons] at hl
    rw [List.pairwise_cons] at horder
    obtain ⟨hh, hnot, hself⟩ := hin h (by simp)
    have hlater : ∀ c ∈ block, s₀.Spends h c → c ∈ done := by
      intro c hc hspends
      refine (hall c hc).resolve_right fun hcl => ?_
      rcases List.mem_cons.1 hcl with rfl | hcl
      · exact hself hspends
      · exact horder.1 c hcl hspends
    have hturn := joining_turn hs hup hdone hj hh hnot hlater
    have hunion : done ∪ (h :: l).toFinset = insert h done ∪ l.toFinset := by
      rw [List.toFinset_cons, Finset.insert_union, Finset.union_insert]
    rw [List.foldl_cons, hunion]
    refine ih hl.2 (fun x hx => ?_) (fun c hc => ?_) horder.2 (fun d hd c hc hspends => ?_) hturn
    · obtain ⟨hx₁, hx₂, hx₃⟩ := hin x (List.mem_cons_of_mem h hx)
      refine ⟨hx₁, fun hmem => ?_, hx₃⟩
      rcases Finset.mem_insert.1 hmem with rfl | hmem
      · exact hl.1 hx
      · exact hx₂ hmem
    · rcases hall c hc with hc | hc
      · exact .inl (Finset.mem_insert_of_mem hc)
      · rcases List.mem_cons.1 hc with rfl | hc
        · exact .inl (Finset.mem_insert_self c done)
        · exact .inr hc
    · rcases Finset.mem_insert.1 hd with rfl | hd
      · exact Finset.mem_insert_of_mem (hlater c hc hspends)
      · exact Finset.mem_insert_of_mem (hdone d hd c hc hspends)

/-- What comes before `UpdateTransactionsFromBlock`: the hashes are of transactions that came
    back in this order, and spend nothing of the pool but each other. -/
structure Returned (s : CTxMemPool) (hashes : List Uint256) : Prop where
  nodup : hashes.Nodup
  up : ∀ p c, s.Spends p c → c ∈ hashes → p ∈ hashes
  order : hashes.Pairwise fun a b => ¬ s.Spends b a
  irreflexive : ∀ a ∈ hashes, ¬ s.Spends a a

theorem updateTransactionsFromBlock_spec {hashes : List Uint256} (hs : s.Sound) (h : Linked (Within s.Spends hashes.toFinset ∅) s)
    (hr : Returned s hashes) :
    Alike s (s.updateTransactionsFromBlock hashes) ∧
      Linked (s.updateTransactionsFromBlock hashes).Spends (s.updateTransactionsFromBlock hashes) := by
  have hup : ∀ p c, s.Spends p c → c ∈ hashes.toFinset → p ∈ hashes.toFinset := by
    intro p c hspends hc
    rw [List.mem_toFinset] at hc ⊢
    exact hr.up p c hspends hc
  have hstart : Joining s hashes.toFinset ∅ s ∅ := by
    refine ⟨.refl, h.parents, h.children, fun a _ _ => h.counted a, fun a ha e he => ?_, fun c E hE => ?_⟩
    · -- outside the block nothing leads into it
      have hpackage : package (Within s.Spends hashes.toFinset ∅) s.ids a = package s.Spends s.ids a := by
        ext d
        rw [mem_package, mem_package, reach_within hup (fun d hd => absurd hd (Finset.notMem_empty d)) ha]
      have hcount := h.counted a e he
      rwa [packageSum, hpackage] at hcount
    · rw [Std.TreeMap.getElem?_emptyc] at hE
      cases hE
  have hj := joining_foldl hs hup (l := hashes.reverse) (List.nodup_reverse.2 hr.nodup)
    (fun x hx => ⟨List.mem_toFinset.2 (List.mem_reverse.1 hx), Finset.notMem_empty x, hr.irreflexive x (List.mem_reverse.1 hx)⟩)
    (fun c hc => .inr (List.mem_reverse.2 (List.mem_toFinset.1 hc))) (List.pairwise_reverse.2 hr.order)
    (fun d hd => absurd hd (Finset.notMem_empty d)) hstart
  rw [Finset.empty_union, List.toFinset_reverse] at hj
  rw [updateTransactionsFromBlock]
  generalize (hashes.reverse.foldl (fun (s, cached) hash => updateFromBlock hashes.toFinset s cached hash) (s, ∅)).1 = t at hj ⊢
  have hall (p c : Uint256) : Within s.Spends hashes.toFinset hashes.toFinset p c ↔ s.Spends p c :=
    ⟨fun hw => hw.1, fun hspends => ⟨hspends, .inr⟩⟩
  have hspends : t.Spends = s.Spends := by
    funext p c
    exact propext hj.alike.spends
  rw [hspends]
  refine ⟨hj.alike, fun p c hl => ?_, fun p c => ?_, fun p c => ?_, fun a e he => ?_⟩
  · rw [hj.alike.ids]
    exact hl.mem
  · rw [hj.parents, hall]
  · rw [hj.children, hall]
  · rw [hj.alike.ids, hj.alike.weight]
    exact hj.counted a id e he

end CTxMemPool

end Zumy.Mempool
