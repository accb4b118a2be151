/-
  Zumy.Mempool.Removal — `RemoveStaged` (txmempool.cpp), for any links.

  All the ancestors of the set are told first, while the parents' links are whole; then the
  links to the children that stay are cut, and the entries leave. `linked_removeStaged`: the
  links of the others and their tallies are right afterwards, where what reaches the set
  through one of its transactions reaches nothing else through that.
-/
import Zumy.Mempool.Links

namespace Zumy.Mempool

open Zumy.Lib

namespace CTxMemPool

variable {s s₀ : CTxMemPool} {L : Uint256 → Uint256 → Prop} {p c it a : Uint256} {e : CTxMemPoolEntry}

variable {S T : SetEntries}

/-! ## The entries leave -/

theorem removeUnchecked_fields (he : s.mapTx[it]? = some e) :
    (s.removeUnchecked it).mapTx = s.mapTx.erase it ∧ (s.removeUnchecked it).mapLinks = s.mapLinks.erase it ∧
      (s.removeUnchecked it).mapNextTx = e.tx.vin.foldl (fun m (txin : CTxIn) => m.erase txin.prevout) s.mapNextTx ∧
      (s.removeUnchecked it).totalTxSize = s.totalTxSize - e.nTxSize ∧ (s.removeUnchecked it).mapDeltas = s.mapDeltas := by
  unfold removeUnchecked
  rw [he]
  dsimp only
  unfold removeSpentIndex
  split <;> (unfold removeAddressIndex; split <;> exact ⟨rfl, rfl, rfl, rfl, rfl⟩)

theorem sound_removeUnchecked (hs : s.Sound) (it : Uint256) : (s.removeUnchecked it).Sound := by
  cases he : s.mapTx[it]? with
  | none => rwa [removeUnchecked, he]
  | some e =>
    obtain ⟨hmap, -, hnext, htotal, hdeltas⟩ := removeUnchecked_fields he
    have hlookup (a : Uint256) : (s.removeUnchecked it).mapTx[a]? = if a = it then none else s.mapTx[a]? := by
      rw [hmap, lookup_erase]
    have hsome {a : Uint256} {x : CTxMemPoolEntry} (hx : (s.removeUnchecked it).mapTx[a]? = some x) :
        a ≠ it ∧ s.mapTx[a]? = some x := by
      rw [hlookup] at hx
      split at hx
      · cases hx
      next hne => exact ⟨hne, hx⟩
    have hids : (s.removeUnchecked it).ids = s.ids.erase it := by
      ext a
      rw [Finset.mem_erase, mem_ids, mem_ids, hlookup]
      by_cases ha : a = it <;> simp [ha]
    refine ⟨fun a x hx => hs.keyed a x (hsome hx).2, fun a x hx => hs.sized a x (hsome hx).2, fun a x hx => ?_, fun o c => ?_, ?_⟩
    · rw [hdeltas]
      exact hs.prioritised a x (hsome hx).2
    · have hlook : (s.removeUnchecked it).mapNextTx[o]? = if o ∈ e.tx.vin.map CTxIn.prevout then none else s.mapNextTx[o]? := by
        rw [hnext, ← lookup_foldl_erase, List.foldl_map]
      rw [hlook]
      constructor
      · intro h
        split at h
        · cases h
        next ho =>
          obtain ⟨x, hx, hin⟩ := (hs.spent o c).1 h
          have hne : c ≠ it := by
            rintro rfl
            cases he.symm.trans hx
            exact ho (List.mem_map.2 hin)
          exact ⟨x, by rw [hlookup, if_neg hne, hx], hin⟩
      · rintro ⟨x, hx, hin⟩
        obtain ⟨hne, hx⟩ := hsome hx
        have hspender := (hs.spent o c).2 ⟨x, hx, hin⟩
        rw [if_neg, hspender]
        intro ho
        have hspender' := (hs.spent o it).2 ⟨e, he, List.mem_map.1 ho⟩
        exact hne (Option.some.inj (hspender.symm.trans hspender'))
    · have hin : it ∈ s.ids := mem_ids.2 ⟨e, he⟩
      have hsum := Finset.add_sum_erase s.ids s.txSize hin
      rw [txSize_of_some he, ← hs.total] at hsum
      have hcongr : ∑ a ∈ s.ids.erase it, (s.removeUnchecked it).txSize a = ∑ a ∈ s.ids.erase it, s.txSize a :=
        Finset.sum_congr rfl fun a ha => by rw [txSize, hlookup, if_neg (Finset.ne_of_mem_erase ha), txSize]
      rw [hids, hcongr, htotal]
      omega

theorem sound_foldl_removeUnchecked (hs : s.Sound) (l : List Uint256) : (l.foldl removeUnchecked s).Sound := by
  induction l generalizing s with
  | nil => exact hs
  | cons it l ih => exact ih (sound_removeUnchecked hs it)

theorem foldl_removeUnchecked {l : List Uint256} (hl : l.Nodup) (hin : ∀ it ∈ l, it ∈ s.ids) :
    (l.foldl removeUnchecked s).mapTx[a]? = (if a ∈ l then none else s.mapTx[a]?) ∧
      (l.foldl removeUnchecked s).links a = if a ∈ l then ⟨∅, ∅⟩ else s.links a := by
  induction l generalizing s with
  | nil => simp
  | cons it l ih =>
    rw [List.nodup_cons] at hl
    obtain ⟨e, he⟩ := mem_ids.1 (hin it (by simp))
    obtain ⟨hmap, hlinks, -⟩ := removeUnchecked_fields he
    have hrest : ∀ x ∈ l, x ∈ (s.removeUnchecked it).ids := by
      intro x hx
      obtain ⟨e', he'⟩ := mem_ids.1 (hin x (List.mem_cons_of_mem it hx))
      have hne : x ≠ it := fun heq => hl.1 (heq ▸ hx)
      exact mem_ids.2 ⟨e', by rw [hmap, lookup_erase, if_neg hne, he']⟩
    obtain ⟨hih, hih'⟩ := ih hl.2 hrest
    have hlink : (s.removeUnchecked it).links a = if a = it then ⟨∅, ∅⟩ else s.links a := by
      rw [links, hlinks, lookup_erase, links]
      split <;> rfl
    rw [List.foldl_cons, hih, hih', hmap, lookup_erase, hlink]
    by_cases ha : a = it <;> simp [ha]

theorem alike_updateChildrenForRemoval (it : Uint256) : Alike s (s.updateChildrenForRemoval it) :=
  alike_foldl (fun _ _ => alike_updateParent it false) _

theorem alike_updateForRemoveFromMempool : Alike s (s.updateForRemoveFromMempool S) :=
  (alike_foldl (fun _ _ => alike_updateAncestorsOf false) _).trans (alike_foldl (fun _ it => alike_updateChildrenForRemoval it) _)

theorem sound_removeStaged (hs : s.Sound) : (s.removeStaged S).Sound :=
  sound_foldl_removeUnchecked (alike_updateForRemoveFromMempool.sound hs) _

theorem entry_removeStaged (hS : S ⊆ s.ids) : ((s.removeStaged S).mapTx[a]?).map CTxMemPoolEntry.blank =
    if a ∈ S then none else (s.mapTx[a]?).map CTxMemPoolEntry.blank := by
  have halike := alike_updateForRemoveFromMempool (s := s) (S := S)
  have hin : ∀ it ∈ S.sort (· ≤ ·), it ∈ (s.updateForRemoveFromMempool S).ids := fun it hit => by
    rw [halike.ids]
    exact hS ((Finset.mem_sort _).1 hit)
  rw [removeStaged, (foldl_removeUnchecked (Finset.sort_nodup S (· ≤ ·)) hin).1]
  simp only [Finset.mem_sort]
  split
  · rfl
  · exact halike.entries a

theorem entry_left (hS : S ⊆ s.ids) {e : CTxMemPoolEntry} (he : (s.removeStaged S).mapTx[a]? = some e) :
    a ∉ S ∧ ∃ e₀, s.mapTx[a]? = some e₀ ∧ e.tx = e₀.tx := by
  have hentry := entry_removeStaged (a := a) hS
  rw [he] at hentry
  split at hentry
  · cases hentry
  next ha =>
    obtain ⟨e₀, he₀, hblank⟩ := Option.map_eq_some_iff.1 hentry.symm
    exact ⟨ha, e₀, he₀, (CTxMemPoolEntry.tx_of_blank hblank).symm⟩

theorem ids_removeStaged (hS : S ⊆ s.ids) : (s.removeStaged S).ids = s.ids \ S := by
  ext a
  have h := congrArg Option.isSome (entry_removeStaged (a := a) hS)
  rw [Finset.mem_sdiff, mem_ids, mem_ids, ← Option.isSome_iff_exists, ← Option.isSome_iff_exists]
  rw [Option.isSome_map] at h
  rw [h]
  by_cases ha : a ∈ S <;> simp [ha]

theorem spends_removeStaged (hS : S ⊆ s.ids) : (s.removeStaged S).Spends p c ↔ s.Spends p c ∧ p ∉ S ∧ c ∉ S := by
  have hentry := entry_removeStaged (a := c) hS
  have hparents (tx : CTransaction) : p ∈ (s.removeStaged S).parentsOf tx ↔ p ∈ s.parentsOf tx ∧ p ∉ S := by
    rw [mem_parentsOf, mem_parentsOf, ids_removeStaged hS, Finset.mem_sdiff]
    tauto
  by_cases hc : c ∈ S
  · rw [if_pos hc, Option.map_eq_none_iff] at hentry
    constructor
    · rintro ⟨e, he, -⟩
      rw [hentry] at he
      cases he
    · exact fun h => absurd hc h.2.2
  · rw [if_neg hc] at hentry
    constructor
    · rintro ⟨e, he, hp⟩
      rw [he] at hentry
      obtain ⟨e₀, he₀, hblank⟩ := Option.map_eq_some_iff.1 hentry.symm
      rw [hparents, ← CTxMemPoolEntry.tx_of_blank hblank] at hp
      exact ⟨⟨e₀, he₀, hp.1⟩, hp.2, hc⟩
    · rintro ⟨⟨e₀, he₀, hp⟩, hpS, -⟩
      rw [he₀] at hentry
      obtain ⟨e, he, hblank⟩ := Option.map_eq_some_iff.1 hentry
      refine ⟨e, he, ?_⟩
      rw [hparents, CTxMemPoolEntry.tx_of_blank hblank]
      exact ⟨hp, hpS⟩

/-- The ancestors of the transactions of `T` have been told of their removal. -/
structure Severed (L : Uint256 → Uint256 → Prop) (s₀ : CTxMemPool) (S T : SetEntries) (s : CTxMemPool) : Prop where
  alike : Alike s₀ s
  parents : ∀ c, s.getMemPoolParents c = s₀.getMemPoolParents c
  children : ∀ p c, c ∈ s.getMemPoolChildren p ↔ c ∈ s₀.getMemPoolChildren p ∧ c ∉ T
  counted : ∀ a ∉ S, ∀ e : CTxMemPoolEntry, s.mapTx[a]? = some e → e.tally = e.ownTally ∨
    e.tally = packageSum L s₀.ids s₀.weight a - packageSum L T s₀.weight a

theorem one_le_packageSum_sub (hT : T ⊆ s.ids) (ha : a ∈ s.ids) (haT : a ∉ T) :
    1 ≤ (packageSum L s.ids s.weight a - packageSum L T s.weight a).1 := by
  have hsub : package L T a ⊆ package L s.ids a := fun d hd => mem_package.2 ⟨hT (mem_package.1 hd).1, (mem_package.1 hd).2⟩
  have hleft : packageSum L s.ids s.weight a - packageSum L T s.weight a =
    ∑ d ∈ package L s.ids a \ package L T a, s.weight d := by
    rw [packageSum, packageSum, sub_eq_iff_eq_add]
    exact (Finset.sum_sdiff hsub).symm
  have hone : ∀ d ∈ package L s.ids a \ package L T a, (s.weight d).1 = 1 := by
    intro d hd
    obtain ⟨e, he⟩ := mem_ids.1 (mem_package.1 (Finset.mem_sdiff.1 hd).1).1
    rw [weight_of_some he]
    rfl
  have hself : a ∈ package L s.ids a \ package L T a :=
    Finset.mem_sdiff.2 ⟨mem_package_self ha, fun h => haT (mem_package.1 h).1⟩
  have hpos := Finset.card_pos.2 ⟨a, hself⟩
  rw [hleft, Prod.fst_sum, Finset.sum_congr rfl hone]
  simp only [Finset.sum_const, nsmul_eq_mul, mul_one]
  omega

theorem severed_turn (h : Linked L s₀) (hs : Severed L s₀ S T s) (hS : S ⊆ s₀.ids) (hT : T ⊆ S) (hit : it ∈ S) (hitT : it ∉ T) :
    Severed L s₀ S (insert it T) (s.updateAncestorsOf false it (s.calculateMemPoolAncestors (s.getMemPoolParents it))) := by
  obtain ⟨e₀, he₀⟩ := mem_ids.1 (hS hit)
  obtain ⟨e, he, hblank⟩ := hs.alike.entry' he₀
  have hwithin : ∀ p c, L p c → p ∈ s.ids := fun p c hl => by
    rw [hs.alike.ids]
    exact (h.within p c hl).1
  have hparents : ∀ p c, p ∈ s.getMemPoolParents c ↔ L p c := fun p c => by rw [hs.parents, h.parents]
  refine ⟨hs.alike.trans (alike_updateAncestorsOf false), fun c => ?_, fun p c => ?_, fun a haS x hx => ?_⟩
  · rw [parents_updateAncestorsOf, hs.parents]
  · rw [children_updateAncestorsOf he, Finset.mem_insert, not_or]
    split
    next hp =>
      rw [addTo, if_neg (by decide), Finset.mem_erase, hs.children]
      tauto
    next hp =>
      rw [hs.children]
      have hne : c ∈ s₀.getMemPoolChildren p → c ≠ it := by
        rintro hc rfl
        exact hp ((hparents p c).2 ((h.children p c).1 hc))
      tauto
  · rw [lookup_updateAncestorsOf he] at hx
    obtain ⟨y, hy, rfl⟩ := Option.map_eq_some_iff.1 hx
    have hne : a ≠ it := fun heq => haS (heq ▸ hit)
    have hreach : a ∈ s.calculateMemPoolAncestors (s.getMemPoolParents it) ↔ Relation.ReflTransGen L a it := by
      rw [mem_ancestors_of hwithin hparents, Relation.reflTransGen_iff_eq_or_transGen, or_iff_right hne.symm]
    have hsum := packageSum_insert L s₀.weight a hitT
    rw [weight_of_some he₀, ← CTxMemPoolEntry.weight_of_blank hblank] at hsum
    rcases hs.counted a haS y hy with hown | hcount
    · left
      split
      · exact tally_dirty hown
      · exact hown
    · right
      have ha : a ∈ s₀.ids := by
        rw [← hs.alike.ids]
        exact mem_ids.2 ⟨y, hy⟩
      have hpos : y.tally.1 ≠ 0 := by
        have hone := one_le_packageSum_sub (L := L) (hT.trans hS) ha fun haT => haS (hT haT)
        rw [← hcount] at hone
        omega
      by_cases hanc : a ∈ s.calculateMemPoolAncestors (s.getMemPoolParents it)
      · have hneg : (((if false = true then 1 else -1 : Int), (if false = true then 1 else -1 : Int) * e.nTxSize,
            (if false = true then 1 else -1 : Int) * e.getModifiedFee) : Int × Int × Int) = -e.weight := by
          simp [CTxMemPoolEntry.weight]
        rw [if_pos (hreach.1 hanc)] at hsum
        rw [if_pos hanc, tally_bump hpos, hcount, hneg, hsum, ← sub_eq_add_neg, sub_sub, add_comm e.weight]
      · rw [if_neg fun h => hanc (hreach.2 h), zero_add] at hsum
        rw [if_neg hanc, hsum, hcount]

theorem severed_foldl (h : Linked L s₀) (hS : S ⊆ s₀.ids) {l : List Uint256} (hl : l.Nodup) (hlS : ∀ it ∈ l, it ∈ S)
    (hT : T ⊆ S) (hlT : ∀ it ∈ l, it ∉ T) (hs : Severed L s₀ S T s) :
    Severed L s₀ S (T ∪ l.toFinset) (l.foldl (fun s it => s.updateAncestorsOf false it (s.calculateMemPoolAncestors (s.getMemPoolParents it))) s) := by
  induction l generalizing s T with
  | nil => simpa using hs
  | cons it l ih =>
    rw [List.nodup_cons] at hl
    have hit := hlS it (by simp)
    have hturn := severed_turn h hs hS hT hit (hlT it (by simp))
    have hunion : T ∪ (it :: l).toFinset = insert it T ∪ l.toFinset := by
      rw [List.toFinset_cons, Finset.insert_union, Finset.union_insert]
    rw [List.foldl_cons, hunion]
    refine ih hl.2 (fun x hx => hlS x (List.mem_cons_of_mem it hx)) (Finset.insert_subset hit hT) (fun x hx hmem => ?_) hturn
    rcases Finset.mem_insert.1 hmem with rfl | hmem
    · exact hl.1 hx
    · exact hlT x (List.mem_cons_of_mem it hx) hmem

theorem foldl_cutParent (it : Uint256) (l : List Uint256) :
    (p ∈ (l.foldl (fun s x => s.updateParent x it false) s).getMemPoolParents c ↔ p ∈ s.getMemPoolParents c ∧
      ¬ (p = it ∧ c ∈ l)) ∧
      (∀ q, (l.foldl (fun s x => s.updateParent x it false) s).getMemPoolChildren q = s.getMemPoolChildren q) ∧
      (l.foldl (fun s x => s.updateParent x it false) s).mapTx = s.mapTx := by
  induction l generalizing s with
  | nil => simp
  | cons x l ih =>
    obtain ⟨hparents, hchildren, hmap⟩ := ih (s := s.updateParent x it false)
    rw [List.foldl_cons, hparents, hmap, parents_updateParent]
    refine ⟨?_, fun q => by rw [hchildren, children_updateParent], rfl⟩
    by_cases hc : c = x
    · rw [if_pos hc, mem_addTo, if_neg (by decide), ← hc]
      simp only [List.mem_cons, true_or, and_true]
      tauto
    · simp [hc]

theorem foldl_updateChildrenForRemoval (l : List Uint256) :
    (p ∈ (l.foldl updateChildrenForRemoval s).getMemPoolParents c ↔ p ∈ s.getMemPoolParents c ∧
      ¬ (p ∈ l ∧ c ∈ s.getMemPoolChildren p)) ∧
      (∀ q, (l.foldl updateChildrenForRemoval s).getMemPoolChildren q = s.getMemPoolChildren q) ∧
      (l.foldl updateChildrenForRemoval s).mapTx = s.mapTx := by
  induction l generalizing s with
  | nil => simp
  | cons it l ih =>
    obtain ⟨hparents, hchildren, hmap⟩ := ih (s := s.updateChildrenForRemoval it)
    obtain ⟨hparents', hchildren', hmap'⟩ :=
      foldl_cutParent (s := s) (p := p) (c := c) it ((s.getMemPoolChildren it).sort (· ≤ ·))
    rw [← updateChildrenForRemoval] at hparents' hchildren' hmap'
    rw [Finset.mem_sort] at hparents'
    rw [List.foldl_cons, hparents, hmap, hparents', hchildren', hmap']
    refine ⟨?_, fun q => by rw [hchildren, hchildren'], rfl⟩
    rw [List.mem_cons]
    by_cases hp : p = it
    · rw [← hp]
      by_cases hc : c ∈ s.getMemPoolChildren p <;> simp [hc]
    · simp only [hp, false_or, false_and, not_false_iff, and_true]

theorem updateForRemoveFromMempool_spec (h : Linked L s) (hS : S ⊆ s.ids) :
    (∀ p, ∀ c ∉ S, p ∈ (s.updateForRemoveFromMempool S).getMemPoolParents c ↔ L p c ∧ p ∉ S) ∧
      (∀ p c, c ∈ (s.updateForRemoveFromMempool S).getMemPoolChildren p ↔ L p c ∧ c ∉ S) ∧
      ∀ a ∉ S, ∀ e : CTxMemPoolEntry, (s.updateForRemoveFromMempool S).mapTx[a]? = some e →
        e.tally = e.ownTally ∨ e.tally = packageSum L s.ids s.weight a - packageSum L S s.weight a := by
  have hstart : Severed L s S ∅ s := ⟨.refl, fun _ => rfl, fun p c => by simp, fun a ha e he => by
    have hzero : packageSum L ∅ s.weight a = 0 := by simp [packageSum, package]
    rw [hzero, sub_zero]
    exact h.counted a e he⟩
  have hsevered := severed_foldl h hS (Finset.sort_nodup S (· ≤ ·)) (fun it hit => (Finset.mem_sort _).1 hit)
    (Finset.empty_subset S) (fun it _ => Finset.notMem_empty it) hstart
  rw [Finset.empty_union, Finset.sort_toFinset] at hsevered
  have hlinks (p c : Uint256) := foldl_updateChildrenForRemoval (p := p) (c := c) (S.sort (· ≤ ·))
    (s := (S.sort (· ≤ ·)).foldl (fun s it => s.updateAncestorsOf false it (s.calculateMemPoolAncestors (s.getMemPoolParents it))) s)
  simp only [Finset.mem_sort, hsevered.parents, h.parents, hsevered.children, h.children] at hlinks
  change ∀ p c, (p ∈ (s.updateForRemoveFromMempool S).getMemPoolParents c ↔ _) ∧
    (∀ q, (s.updateForRemoveFromMempool S).getMemPoolChildren q = _) ∧
    (s.updateForRemoveFromMempool S).mapTx = _ at hlinks
  refine ⟨fun p c hc => ?_, fun p c => ?_, fun a ha e he => ?_⟩
  · rw [(hlinks p c).1]
    tauto
  · rw [(hlinks p c).2.1, hsevered.children, h.children]
  · rw [(hlinks a a).2.2] at he
    exact hsevered.counted a ha e he

theorem linked_removeStaged (h : Linked L s) (hS : S ⊆ s.ids) (hleaves : ∀ a ∉ S, LeavesWithin L S a) :
    Linked (fun p c => L p c ∧ p ∉ S ∧ c ∉ S) (s.removeStaged S) := by
  have halike := alike_updateForRemoveFromMempool (s := s) (S := S)
  obtain ⟨hparents, hchildren, hcounted⟩ := updateForRemoveFromMempool_spec h hS
  have hin : ∀ it ∈ S.sort (· ≤ ·), it ∈ (s.updateForRemoveFromMempool S).ids := fun it hit => by
    rw [halike.ids]
    exact hS ((Finset.mem_sort _).1 hit)
  have hrest (a : Uint256) := foldl_removeUnchecked (a := a) (Finset.sort_nodup S (· ≤ ·)) hin
  rw [← removeStaged] at hrest
  simp only [Finset.mem_sort] at hrest
  have hlinks (a : Uint256) := (hrest a).2
  have hids := ids_removeStaged hS
  refine ⟨fun p c hl => ?_, fun p c => ?_, fun p c => ?_, fun a e he => ?_⟩
  · rw [hids, Finset.mem_sdiff, Finset.mem_sdiff]
    exact ⟨⟨(h.within p c hl.1).1, hl.2.1⟩, (h.within p c hl.1).2, hl.2.2⟩
  · rw [getMemPoolParents, hlinks]
    split
    next hc => simp [hc]
    next hc =>
      rw [← getMemPoolParents, hparents p c hc]
      tauto
  · rw [getMemPoolChildren, hlinks]
    split
    next hp => simp [hp]
    next hp =>
      rw [← getMemPoolChildren, hchildren]
      tauto
  · have heq := (hrest a).1
    rw [he] at heq
    split at heq
    · cases heq
    next ha =>
      have hweight : ∀ d ∈ s.ids, d ∉ S → (s.removeStaged S).weight d = s.weight d := by
        intro d _ hd
        rw [← halike.weight, CTxMemPool.weight, (hrest d).1, if_neg hd, CTxMemPool.weight]
      rw [hids, packageSum_remove (fun p c => Iff.rfl) ha (hleaves a ha) hS hweight]
      exact hcounted a ha e heq.symm

end CTxMemPool

end Zumy.Mempool
