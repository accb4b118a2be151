/-
  Zumy.Mempool.Links — what the pool's operations do to the links and to what is counted of
  the descendants (txmempool.cpp).

  While a block is disconnected the links are less than what the transactions spend: one
  that comes back from the block is not linked to its children that were in the pool before
  it. So `Linked L` speaks of the links `L`, whatever they are; the tallies are of the
  packages that `L` gives. `Sound` is the rest of what holds between the operations.

  `linked_add`: a new transaction, under its parents and without children.
-/
import Mathlib.Algebra.BigOperators.Pi
import Zumy.Mempool.Pool

namespace Zumy.Mempool

open Zumy.Lib

/-! ## An entry's tally -/

namespace CTxMemPoolEntry

variable (e : CTxMemPoolEntry)

def tally : Int × Int × Int := (e.nCountWithDescendants, e.nSizeWithDescendants, e.nModFeesWithDescendants)

def weight : Int × Int × Int := (1, e.nTxSize, e.getModifiedFee)

def ownTally : Int × Int × Int := (0, e.nTxSize, e.getModifiedFee)

def blank : CTxMemPoolEntry := { e with nCountWithDescendants := 0, nSizeWithDescendants := 0, nModFeesWithDescendants := 0 }

variable {e} {e' : CTxMemPoolEntry} {size count : Int} {fee : CAmount}

theorem tx_of_blank (h : e.blank = e'.blank) : e.tx = e'.tx := by
  show e.blank.tx = e'.blank.tx
  rw [h]

theorem nTxSize_of_blank (h : e.blank = e'.blank) : e.nTxSize = e'.nTxSize := by
  show e.blank.nTxSize = e'.blank.nTxSize
  rw [h]

theorem feeDelta_of_blank (h : e.blank = e'.blank) : e.feeDelta = e'.feeDelta := by
  show e.blank.feeDelta = e'.blank.feeDelta
  rw [h]

theorem weight_of_blank (h : e.blank = e'.blank) : e.weight = e'.weight := by
  show e.blank.weight = e'.blank.weight
  rw [h]

theorem isDirty_iff : e.isDirty = true ↔ e.tally.1 = 0 := beq_iff_eq

theorem blank_updateState : (e.updateState size fee count).blank = e.blank := by
  unfold updateState
  split <;> rfl

theorem tally_updateState : (e.updateState size fee count).tally =
    if e.isDirty then e.tally else e.tally + (count, size, fee) := by
  unfold updateState
  split <;> rfl

end CTxMemPoolEntry

namespace CTxMemPool

variable (s : CTxMemPool)

def weight (it : Uint256) : Int × Int × Int := (s.mapTx[it]?).elim 0 CTxMemPoolEntry.weight

/-! ## Pools that differ in links and tallies -/

structure Alike (s₀ s : CTxMemPool) : Prop where
  entries : ∀ it : Uint256, (s.mapTx[it]?).map CTxMemPoolEntry.blank = (s₀.mapTx[it]?).map CTxMemPoolEntry.blank
  next : s.mapNextTx = s₀.mapNextTx
  deltas : s.mapDeltas = s₀.mapDeltas
  total : s.totalTxSize = s₀.totalTxSize

variable {s} {s₀ t : CTxMemPool} {p c it a : Uint256} {e : CTxMemPoolEntry} {tx : CTransaction} {A : SetEntries}

theorem Alike.refl : Alike s s := ⟨fun _ => rfl, rfl, rfl, rfl⟩

theorem Alike.trans (h : Alike s₀ s) (h' : Alike s t) : Alike s₀ t :=
  ⟨fun it => (h'.entries it).trans (h.entries it), h'.next.trans h.next, h'.deltas.trans h.deltas, h'.total.trans h.total⟩

theorem Alike.entry (h : Alike s₀ s) (he : s.mapTx[it]? = some e) : ∃ e₀, s₀.mapTx[it]? = some e₀ ∧ e.blank = e₀.blank := by
  have heq := h.entries it
  rw [he] at heq
  obtain ⟨e₀, he₀, hblank⟩ := Option.map_eq_some_iff.1 heq.symm
  exact ⟨e₀, he₀, hblank.symm⟩

theorem Alike.entry' (h : Alike s₀ s) (he : s₀.mapTx[it]? = some e) : ∃ e', s.mapTx[it]? = some e' ∧ e'.blank = e.blank := by
  have heq := h.entries it
  rw [he] at heq
  obtain ⟨e', he', hblank⟩ := Option.map_eq_some_iff.1 heq
  exact ⟨e', he', hblank⟩

theorem Alike.ids (h : Alike s₀ s) : s.ids = s₀.ids := by
  ext it
  rw [mem_ids, mem_ids]
  constructor
  · rintro ⟨e, he⟩
    obtain ⟨e₀, he₀, -⟩ := h.entry he
    exact ⟨e₀, he₀⟩
  · rintro ⟨e, he⟩
    obtain ⟨e', he', -⟩ := h.entry' he
    exact ⟨e', he'⟩

theorem Alike.weight (h : Alike s₀ s) : s.weight = s₀.weight := by
  funext it
  have heq := congrArg (fun o => o.elim 0 CTxMemPoolEntry.weight) (h.entries it)
  unfold CTxMemPool.weight
  cases he : s.mapTx[it]? with
  | none =>
    cases he₀ : s₀.mapTx[it]? with
    | none => rfl
    | some e₀ =>
      rw [he, he₀] at heq
      exact heq
  | some e =>
    obtain ⟨e₀, he₀, hblank⟩ := h.entry he
    rw [he₀]
    exact CTxMemPoolEntry.weight_of_blank hblank

theorem Alike.parentsOf (h : Alike s₀ s) : s.parentsOf tx = s₀.parentsOf tx := by
  ext p
  rw [mem_parentsOf, mem_parentsOf, h.ids]

theorem Alike.spends (h : Alike s₀ s) : s.Spends p c ↔ s₀.Spends p c := by
  constructor
  · rintro ⟨e, he, hp⟩
    obtain ⟨e₀, he₀, hblank⟩ := h.entry he
    rw [h.parentsOf, CTxMemPoolEntry.tx_of_blank hblank] at hp
    exact ⟨e₀, he₀, hp⟩
  · rintro ⟨e, he, hp⟩
    obtain ⟨e', he', hblank⟩ := h.entry' he
    rw [← h.parentsOf, ← CTxMemPoolEntry.tx_of_blank hblank] at hp
    exact ⟨e', he', hp⟩

theorem alike_foldl {α : Type} {f : CTxMemPool → α → CTxMemPool} (hf : ∀ s a, Alike s (f s a)) (l : List α) :
    Alike s (l.foldl f s) := by
  induction l generalizing s with
  | nil => exact .refl
  | cons a l ih => exact (hf s a).trans ih

theorem alike_modify {f : CTxMemPoolEntry → CTxMemPoolEntry} (hf : ∀ e, (f e).blank = e.blank) : Alike s (s.modify it f) := by
  refine ⟨fun a => ?_, rfl, rfl, rfl⟩
  rw [modify, lookup_modify]
  by_cases ha : a = it
  · rw [if_pos ha, ha, Option.map_map]
    congr 1
    funext e
    exact hf e
  · rw [if_neg ha]

theorem alike_updateChild (child : Uint256) (add : Bool) : Alike s (s.updateChild it child add) := ⟨fun _ => rfl, rfl, rfl, rfl⟩

theorem alike_updateParent (parent : Uint256) (add : Bool) :
    Alike s (s.updateParent it parent add) := ⟨fun _ => rfl, rfl, rfl, rfl⟩

theorem alike_updateAncestorsOf (add : Bool) : Alike s (s.updateAncestorsOf add it A) := by
  unfold updateAncestorsOf
  cases s.mapTx[it]? with
  | none => exact .refl
  | some e =>
    exact (alike_foldl (fun _ piter => alike_updateChild it add) _).trans
      (alike_foldl (fun _ a => alike_modify fun _ => CTxMemPoolEntry.blank_updateState) _)

/-! ## What holds of the transactions -/

/-- The invariants that are not about links. A transaction does not depend on itself. -/
structure Sound (s : CTxMemPool) : Prop where
  keyed : ∀ (it : Uint256) (e : CTxMemPoolEntry), s.mapTx[it]? = some e → e.tx.hash = it
  sized : ∀ (it : Uint256) (e : CTxMemPoolEntry), s.mapTx[it]? = some e → 0 ≤ e.nTxSize
  prioritised : ∀ (it : Uint256) (e : CTxMemPoolEntry), s.mapTx[it]? = some e → e.feeDelta = (s.mapDeltas[it]?).getD 0
  spent : ∀ (o : COutPoint) (c : Uint256),
    s.mapNextTx[o]? = some c ↔ ∃ e : CTxMemPoolEntry, s.mapTx[c]? = some e ∧ ∃ txin ∈ e.tx.vin, txin.prevout = o
  total : s.totalTxSize = ∑ it ∈ s.ids, s.txSize it

theorem Sound.mem_of_next (hs : s.Sound) {o : COutPoint} (h : s.mapNextTx[o]? = some it) : it ∈ s.ids := by
  obtain ⟨e, he, -⟩ := (hs.spent o it).1 h
  exact mem_ids.2 ⟨e, he⟩

theorem txSize_eq_weight : s.txSize it = (s.weight it).2.1 := by
  unfold txSize CTxMemPool.weight
  cases s.mapTx[it]? <;> rfl

theorem Sound.transfer (hs : s₀.Sound)
    (hold : ∀ (it : Uint256) (e : CTxMemPoolEntry), s.mapTx[it]? = some e → ∃ e₀, s₀.mapTx[it]? = some e₀ ∧ e.tx = e₀.tx ∧
      e.nTxSize = e₀.nTxSize)
    (hnew : ∀ (it : Uint256) (e₀ : CTxMemPoolEntry), s₀.mapTx[it]? = some e₀ → ∃ e, s.mapTx[it]? = some e)
    (hdelta : ∀ (it : Uint256) (e : CTxMemPoolEntry), s.mapTx[it]? = some e → e.feeDelta = (s.mapDeltas[it]?).getD 0)
    (hnext : s.mapNextTx = s₀.mapNextTx) (htotal : s.totalTxSize = s₀.totalTxSize) : s.Sound where
  keyed it e he := by
    obtain ⟨e₀, he₀, htx, -⟩ := hold it e he
    rw [htx]
    exact hs.keyed it e₀ he₀
  sized it e he := by
    obtain ⟨e₀, he₀, -, hsize⟩ := hold it e he
    rw [hsize]
    exact hs.sized it e₀ he₀
  prioritised := hdelta
  spent o c := by
    rw [hnext, hs.spent]
    constructor
    · rintro ⟨e₀, he₀, hin⟩
      obtain ⟨e, he⟩ := hnew c e₀ he₀
      obtain ⟨e₀', he₀', htx, -⟩ := hold c e he
      cases he₀.symm.trans he₀'
      exact ⟨e, he, by rwa [htx]⟩
    · rintro ⟨e, he, hin⟩
      obtain ⟨e₀, he₀, htx, -⟩ := hold c e he
      exact ⟨e₀, he₀, by rwa [← htx]⟩
  total := by
    have hids : s.ids = s₀.ids := by
      ext it
      rw [mem_ids, mem_ids]
      exact ⟨fun ⟨e, he⟩ => (hold it e he).imp fun _ h => h.1, fun ⟨e₀, he₀⟩ => hnew it e₀ he₀⟩
    rw [htotal, hs.total, hids]
    refine Finset.sum_congr rfl fun it hit => ?_
    obtain ⟨e₀, he₀⟩ := mem_ids.1 hit
    obtain ⟨e, he⟩ := hnew it e₀ he₀
    obtain ⟨e₀', he₀', -, hsize⟩ := hold it e he
    cases he₀.symm.trans he₀'
    rw [txSize_of_some he₀, txSize_of_some he, hsize]

theorem Alike.sound (h : Alike s₀ s) (hs : s₀.Sound) : s.Sound := by
  refine hs.transfer (fun it e he => ?_) (fun it e he => ?_) (fun it e he => ?_) h.next h.total
  · obtain ⟨e₀, he₀, hblank⟩ := h.entry he
    exact ⟨e₀, he₀, CTxMemPoolEntry.tx_of_blank hblank, CTxMemPoolEntry.nTxSize_of_blank hblank⟩
  · obtain ⟨e', he', -⟩ := h.entry' he
    exact ⟨e', he'⟩
  · obtain ⟨e₀, he₀, hblank⟩ := h.entry he
    rw [CTxMemPoolEntry.feeDelta_of_blank hblank, h.deltas]
    exact hs.prioritised it e₀ he₀

/-! ## Links -/

section Updates

variable {add : Bool} {size count : Int} {fee : CAmount} {l : List Uint256}

theorem links_of_mapLinks (h : s.mapLinks = t.mapLinks) (it : Uint256) : s.links it = t.links it := by
  rw [links, links, h]

theorem parents_updateChild (p c : Uint256) : (s.updateChild p c add).getMemPoolParents it = s.getMemPoolParents it := by
  simp only [getMemPoolParents, links, updateChild, lookup_insert]
  split
  next heq => rw [heq, Option.getD_some]
  · rfl

theorem children_updateChild (p c : Uint256) :
    (s.updateChild p c add).getMemPoolChildren it = if it =
      p then addTo add c (s.getMemPoolChildren p) else s.getMemPoolChildren it := by
  simp only [getMemPoolChildren, links, updateChild, lookup_insert]
  split <;> rfl

theorem children_updateParent (c p : Uint256) : (s.updateParent c p add).getMemPoolChildren it = s.getMemPoolChildren it := by
  simp only [getMemPoolChildren, links, updateParent, lookup_insert]
  split
  next heq => rw [heq, Option.getD_some]
  · rfl

theorem parents_updateParent (c p : Uint256) :
    (s.updateParent c p add).getMemPoolParents it = if it =
      c then addTo add p (s.getMemPoolParents c) else s.getMemPoolParents it := by
  simp only [getMemPoolParents, links, updateParent, lookup_insert]
  split <;> rfl

theorem addTo_idem (A : SetEntries) : addTo add it (addTo add it A) = addTo add it A := by
  cases add <;> simp [addTo]

theorem mem_addTo (A : SetEntries) : a ∈ addTo add it A ↔ if add then a = it ∨ a ∈ A else a ≠ it ∧ a ∈ A := by
  cases add <;> simp [addTo]

theorem parents_foldl_updateChild (s : CTxMemPool) (add : Bool) (c it : Uint256) (l : List Uint256) :
    (l.foldl (fun s p => s.updateChild p c add) s).getMemPoolParents it = s.getMemPoolParents it := by
  induction l generalizing s with
  | nil => rfl
  | cons p l ih => rw [List.foldl_cons, ih, parents_updateChild]

theorem children_foldl_updateChild (s : CTxMemPool) (add : Bool) (c it : Uint256) (l : List Uint256) :
    (l.foldl (fun s p => s.updateChild p c add) s).getMemPoolChildren it =
      if it ∈ l then addTo add c (s.getMemPoolChildren it) else s.getMemPoolChildren it := by
  induction l generalizing s with
  | nil => simp
  | cons p l ih =>
    rw [List.foldl_cons, ih, children_updateChild]
    by_cases hp : it = p
    · subst hp
      simp [addTo_idem]
    · simp [hp]

theorem mapTx_foldl_updateChild (c : Uint256) (l : List Uint256) :
    (l.foldl (fun s p => s.updateChild p c add) s).mapTx = s.mapTx := by
  induction l generalizing s with
  | nil => rfl
  | cons p l ih => rw [List.foldl_cons, ih, updateChild]

theorem mapLinks_foldl_modify (f : CTxMemPoolEntry → CTxMemPoolEntry) (l : List Uint256) :
    (l.foldl (fun s a => s.modify a f) s).mapLinks = s.mapLinks := by
  induction l generalizing s with
  | nil => rfl
  | cons p l ih => rw [List.foldl_cons, ih, modify]

theorem lookup_foldl_modify (f : CTxMemPoolEntry → CTxMemPoolEntry) (hl : l.Nodup) :
    (l.foldl (fun s a => s.modify a f) s).mapTx[it]? = (s.mapTx[it]?).map fun e => if it ∈ l then f e else e := by
  induction l generalizing s with
  | nil => simp
  | cons a l ih =>
    rw [List.nodup_cons] at hl
    rw [List.foldl_cons, ih hl.2, modify, lookup_modify]
    by_cases ha : it = a
    · subst ha
      simp [hl.1, Function.comp_def]
    · simp [ha]

/-! ### One transaction and its ancestors -/

theorem parents_updateAncestorsOf : (s.updateAncestorsOf add it A).getMemPoolParents c = s.getMemPoolParents c := by
  unfold updateAncestorsOf
  cases s.mapTx[it]? with
  | none => rfl
  | some e =>
    dsimp only
    have hparents := parents_foldl_updateChild s add it c ((s.getMemPoolParents it).sort (· ≤ ·))
    rw [← hparents, getMemPoolParents, links_of_mapLinks (mapLinks_foldl_modify _ _)]
    rfl

theorem children_updateAncestorsOf (he : s.mapTx[it]? = some e) : (s.updateAncestorsOf add it A).getMemPoolChildren p =
    if p ∈ s.getMemPoolParents it then addTo add it (s.getMemPoolChildren p) else s.getMemPoolChildren p := by
  unfold updateAncestorsOf
  rw [he]
  dsimp only
  have hchildren := children_foldl_updateChild s add it p ((s.getMemPoolParents it).sort (· ≤ ·))
  simp only [Finset.mem_sort] at hchildren
  rw [← hchildren, getMemPoolChildren, links_of_mapLinks (mapLinks_foldl_modify _ _), getMemPoolChildren]

theorem lookup_updateAncestorsOf (he : s.mapTx[it]? = some e) : (s.updateAncestorsOf add it A).mapTx[a]? =
    (s.mapTx[a]?).map fun x =>
      if a ∈ A then x.updateState ((if add then 1 else -1) * e.nTxSize) ((if add then 1 else -1) * e.getModifiedFee)
        (if add then 1 else -1)
      else x := by
  unfold updateAncestorsOf
  rw [he]
  dsimp only
  rw [lookup_foldl_modify _ (Finset.sort_nodup A (· ≤ ·)), mapTx_foldl_updateChild]
  simp only [Finset.mem_sort]

end Updates

/-! ## Links and tallies -/

/-- The links are `L`, and what an entry that is not dirty counts is its package. -/
structure Linked (L : Uint256 → Uint256 → Prop) (s : CTxMemPool) : Prop where
  within : ∀ p c, L p c → p ∈ s.ids ∧ c ∈ s.ids
  parents : ∀ p c, p ∈ s.getMemPoolParents c ↔ L p c
  children : ∀ p c, c ∈ s.getMemPoolChildren p ↔ L p c
  counted : ∀ (it : Uint256) (e : CTxMemPoolEntry), s.mapTx[it]? = some e →
    e.tally = e.ownTally ∨ e.tally = packageSum L s.ids s.weight it

variable {L : Uint256 → Uint256 → Prop}

theorem weight_of_some (h : s.mapTx[it]? = some e) : s.weight it = e.weight := by
  simp [CTxMemPool.weight, h]

theorem packageSum_count : (packageSum L s.ids s.weight a).1 = (package L s.ids a).card := by
  have hone : ∀ d ∈ package L s.ids a, (s.weight d).1 = 1 := by
    intro d hd
    obtain ⟨e, he⟩ := mem_ids.1 (mem_package.1 hd).1
    rw [weight_of_some he]
    rfl
  rw [packageSum, Prod.fst_sum, Finset.sum_congr rfl hone]
  simp

theorem mem_package_self (ha : a ∈ s.ids) : a ∈ package L s.ids a := mem_package.2 ⟨ha, .refl⟩

theorem one_le_packageSum (ha : a ∈ s.ids) : 1 ≤ (packageSum L s.ids s.weight a).1 := by
  have hpos : 0 < (package L s.ids a).card := Finset.card_pos.2 ⟨a, mem_package_self ha⟩
  rw [packageSum_count]
  omega

theorem mem_ancestors_iff (hwithin : ∀ p c, L p c → p ∈ s.ids) (hparents : ∀ p c, p ∈ s.getMemPoolParents c ↔ L p c)
    (hA : A ⊆ s.ids) :
    a ∈ s.calculateMemPoolAncestors A ↔ ∃ p ∈ A, Relation.ReflTransGen L a p := by
  have hnext : ∀ k ∈ s.ids, s.getMemPoolParents k ⊆ s.ids := fun k _ p hp => hwithin p k ((hparents p k).1 hp)
  have hstart : Searching s.getMemPoolParents s.ids A ∅ :=
    ⟨hA, Finset.disjoint_empty_right A, fun x hx => absurd hx (Finset.notMem_empty x)⟩
  have hreach (x : Uint256) : Reach s.getMemPoolParents x a ↔ Relation.ReflTransGen L a x := by
    rw [← Relation.reflTransGen_swap]
    have hswap : (fun a b => b ∈ s.getMemPoolParents a) = Function.swap L := by
      funext a b
      exact propext (hparents b a)
    rw [Reach, hswap]
  rw [calculateMemPoolAncestors, mem_explore hnext hstart card_ids.le]
  simp only [Finset.notMem_empty, false_or, hreach]

theorem mem_ancestors_of (hwithin : ∀ p c, L p c → p ∈ s.ids) (hparents : ∀ p c, p ∈ s.getMemPoolParents c ↔ L p c)
    (it : Uint256) :
    a ∈ s.calculateMemPoolAncestors (s.getMemPoolParents it) ↔ Relation.TransGen L a it := by
  have hsub : s.getMemPoolParents it ⊆ s.ids := fun p hp => hwithin p it ((hparents p it).1 hp)
  rw [mem_ancestors_iff hwithin hparents hsub, Relation.TransGen.tail'_iff]
  constructor
  · rintro ⟨p, hp, hreach⟩
    exact ⟨p, hreach, (hparents p it).1 hp⟩
  · rintro ⟨p, hreach, hp⟩
    exact ⟨p, (hparents p it).2 hp, hreach⟩

theorem tally_bump {x : CTxMemPoolEntry} {size count : Int} {fee : CAmount} (hx : x.tally.1 ≠ 0) :
    (x.updateState size fee count).tally = x.tally + (count, size, fee) := by
  rw [CTxMemPoolEntry.tally_updateState, if_neg]
  rwa [CTxMemPoolEntry.isDirty_iff]

theorem tally_dirty {x : CTxMemPoolEntry} {size count : Int} {fee : CAmount} (hx : x.tally = x.ownTally) :
    (x.updateState size fee count).tally = (x.updateState size fee count).ownTally := by
  have hdirty : x.isDirty = true := by
    rw [CTxMemPoolEntry.isDirty_iff, hx]
    rfl
  rw [CTxMemPoolEntry.updateState, if_pos hdirty, hx]

/-! ## A new transaction -/

/-- `addUnchecked`, before the links and the ancestors. -/
def insertEntry (s : CTxMemPool) (entry : CTxMemPoolEntry) : CTxMemPool :=
  { s with
    mapTx := s.mapTx.insertIfNew entry.tx.hash
      (if (s.mapDeltas[entry.tx.hash]?).getD 0 ≠ 0 then entry.updateFeeDelta ((s.mapDeltas[entry.tx.hash]?).getD 0) else entry)
    mapLinks := s.mapLinks.insertIfNew entry.tx.hash ⟨∅, ∅⟩
    mapNextTx := entry.tx.vin.foldl (fun m (txin : CTxIn) => m.insertIfNew txin.prevout entry.tx.hash) s.mapNextTx
    totalTxSize := s.totalTxSize + entry.nTxSize }

def linkParents (s : CTxMemPool) (hash : Uint256) (parents : SetEntries) : CTxMemPool :=
  (parents.sort (· ≤ ·)).foldl (fun s pit => s.updateParent hash pit true) s

theorem addUnchecked_eq (entry : CTxMemPoolEntry) :
    s.addUnchecked entry A = ((s.insertEntry entry).linkParents entry.tx.hash (s.parentsOf entry.tx)).updateAncestorsOf true entry.tx.hash A := rfl

theorem alike_linkParents : Alike s (s.linkParents it A) := alike_foldl (fun _ pit => alike_updateParent pit true) _

theorem linkParents_links (s : CTxMemPool) (it : Uint256) (A : SetEntries) (c : Uint256) :
    (s.linkParents it A).getMemPoolParents c = (if c = it then s.getMemPoolParents it ∪ A else s.getMemPoolParents c) ∧
    (s.linkParents it A).getMemPoolChildren c = s.getMemPoolChildren c ∧ (s.linkParents it A).mapTx = s.mapTx := by
  have hfold (l : List Uint256) (s : CTxMemPool) :
      (l.foldl (fun s pit => s.updateParent it pit true) s).getMemPoolParents c =
        (if c = it then s.getMemPoolParents it ∪ l.toFinset else s.getMemPoolParents c) ∧
      (l.foldl (fun s pit => s.updateParent it pit true) s).getMemPoolChildren c = s.getMemPoolChildren c ∧
      (l.foldl (fun s pit => s.updateParent it pit true) s).mapTx = s.mapTx := by
    induction l generalizing s with
    | nil => by_cases hc : c = it <;> simp [hc]
    | cons p l ih =>
      obtain ⟨hparents, hchildren, hmap⟩ := ih (s.updateParent it p true)
      rw [List.foldl_cons, hparents, hchildren, hmap, children_updateParent, parents_updateParent, parents_updateParent]
      refine ⟨?_, rfl, rfl⟩
      by_cases hc : c = it
      · simp [hc, addTo, Finset.insert_union, Finset.union_insert]
      · simp [hc]
  have h := hfold (A.sort (· ≤ ·)) s
  rw [Finset.sort_toFinset] at h
  exact h

variable {nFee : CAmount} {nTime nTxSize : Int}

def newEntry (s : CTxMemPool) (entry : CTxMemPoolEntry) : CTxMemPoolEntry :=
  if (s.mapDeltas[entry.tx.hash]?).getD 0 ≠ 0 then entry.updateFeeDelta ((s.mapDeltas[entry.tx.hash]?).getD 0) else entry

theorem newEntry_new (s : CTxMemPool) (tx : CTransaction) (nFee : CAmount) (nTime nTxSize : Int) :
    (s.newEntry (.new tx nFee nTime nTxSize)).tx = tx ∧ (s.newEntry (.new tx nFee nTime nTxSize)).nTxSize = nTxSize ∧
    (s.newEntry (.new tx nFee nTime nTxSize)).feeDelta = (s.mapDeltas[tx.hash]?).getD 0 ∧
    (s.newEntry (.new tx nFee nTime nTxSize)).tally = (s.newEntry (.new tx nFee nTime nTxSize)).weight := by
  have htx : (CTxMemPoolEntry.new tx nFee nTime nTxSize).tx = tx := rfl
  rw [newEntry, htx]
  by_cases hdelta : (s.mapDeltas[tx.hash]?).getD 0 = 0
  · rw [if_neg (not_not.2 hdelta), hdelta]
    refine ⟨rfl, rfl, rfl, ?_⟩
    simp [CTxMemPoolEntry.tally, CTxMemPoolEntry.weight, CTxMemPoolEntry.new, CTxMemPoolEntry.getModifiedFee]
  · rw [if_pos hdelta]
    refine ⟨rfl, rfl, rfl, ?_⟩
    simp [CTxMemPoolEntry.tally, CTxMemPoolEntry.weight, CTxMemPoolEntry.new, CTxMemPoolEntry.getModifiedFee,
      CTxMemPoolEntry.updateFeeDelta]

section Add

variable (hnew : s.mapTx[tx.hash]? = none)
include hnew

theorem lookup_insertEntry : (s.insertEntry (.new tx nFee nTime nTxSize)).mapTx[a]? =
    if a = tx.hash then some (s.newEntry (.new tx nFee nTime nTxSize)) else s.mapTx[a]? := by
  show (s.mapTx.insertIfNew tx.hash _)[a]? = _
  rw [lookup_insertIfNew, hnew]
  simp only [and_true]
  rfl

theorem ids_insertEntry : (s.insertEntry (.new tx nFee nTime nTxSize)).ids = insert tx.hash s.ids := by
  ext a
  rw [Finset.mem_insert, mem_ids, mem_ids, lookup_insertEntry hnew]
  by_cases ha : a = tx.hash <;> simp [ha]

theorem weight_insertEntry (ha : a ≠ tx.hash) : (s.insertEntry (.new tx nFee nTime nTxSize)).weight a = s.weight a := by
  rw [CTxMemPool.weight, lookup_insertEntry hnew, if_neg ha, CTxMemPool.weight]

theorem notMem_ids : tx.hash ∉ s.ids := by
  rw [mem_ids, hnew]
  rintro ⟨e, he⟩
  cases he

theorem sound_insertEntry (hs : s.Sound) (hfree : ∀ txin ∈ tx.vin, s.mapNextTx[txin.prevout]? = none) (hsize : 0 ≤ nTxSize) :
    (s.insertEntry (.new tx nFee nTime nTxSize)).Sound := by
  obtain ⟨htx, hsizes, hdelta, -⟩ := newEntry_new s tx nFee nTime nTxSize
  have hsome {it : Uint256} {e : CTxMemPoolEntry} (he : (s.insertEntry (.new tx nFee nTime nTxSize)).mapTx[it]? = some e) :
      (it = tx.hash ∧ e = s.newEntry (.new tx nFee nTime nTxSize)) ∨ s.mapTx[it]? = some e := by
    rw [lookup_insertEntry hnew] at he
    split at he
    next hit =>
      cases he
      exact .inl ⟨hit, rfl⟩
    · exact .inr he
  refine ⟨fun it e he => ?_, fun it e he => ?_, fun it e he => ?_, fun o c => ?_, ?_⟩
  · rcases hsome he with ⟨rfl, rfl⟩ | he
    · rw [htx]
    · exact hs.keyed it e he
  · rcases hsome he with ⟨rfl, rfl⟩ | he
    · rwa [hsizes]
    · exact hs.sized it e he
  · rcases hsome he with ⟨rfl, rfl⟩ | he
    · exact hdelta
    · exact hs.prioritised it e he
  · have hnext : (s.insertEntry (.new tx nFee nTime nTxSize)).mapNextTx[o]? =
        (s.mapNextTx[o]?).or (if o ∈ tx.vin.map CTxIn.prevout then some tx.hash else none) := by
      rw [← lookup_foldl_insertIfNew, List.foldl_map]
      rfl
    rw [hnext]
    constructor
    · intro h
      rcases Option.or_eq_some_iff.1 h with h | ⟨-, h⟩
      · obtain ⟨e, he, hin⟩ := (hs.spent o c).1 h
        have hne : c ≠ tx.hash := by
          rintro rfl
          rw [hnew] at he
          cases he
        exact ⟨e, by rw [lookup_insertEntry hnew, if_neg hne, he], hin⟩
      · split at h
        next ho =>
          cases h
          refine ⟨_, by rw [lookup_insertEntry hnew, if_pos rfl], ?_⟩
          rw [htx]
          exact List.mem_map.1 ho
        · cases h
    · rintro ⟨e, he, txin, htxin, rfl⟩
      rcases hsome he with ⟨rfl, rfl⟩ | he
      · rw [htx] at htxin
        rw [hfree txin htxin, if_pos (List.mem_map_of_mem htxin)]
        rfl
      · rw [(hs.spent _ c).2 ⟨e, he, txin, htxin, rfl⟩]
        rfl
  · have hmem := notMem_ids hnew
    rw [ids_insertEntry hnew, Finset.sum_insert hmem, add_comm]
    have hhash : (s.insertEntry (.new tx nFee nTime nTxSize)).txSize tx.hash = nTxSize := by
      rw [txSize, lookup_insertEntry hnew, if_pos rfl]
      exact hsizes
    rw [hhash, show (s.insertEntry (.new tx nFee nTime nTxSize)).totalTxSize = s.totalTxSize + nTxSize from rfl, hs.total]
    congr 1
    refine Finset.sum_congr rfl fun it hit => ?_
    have hne : it ≠ tx.hash := fun heq => hmem (heq ▸ hit)
    rw [txSize_eq_weight, txSize_eq_weight, weight_insertEntry hnew hne]

theorem Linked.links_insertEntry (h : Linked L s) : (s.insertEntry (.new tx nFee nTime nTxSize)).links it = s.links it := by
  by_cases hit : it = tx.hash
  · have hout := notMem_ids hnew
    have hparents : s.getMemPoolParents tx.hash = ∅ :=
      Finset.eq_empty_iff_forall_notMem.2 fun p hp => hout (h.within _ _ ((h.parents p _).1 hp)).2
    have hchildren : s.getMemPoolChildren tx.hash = ∅ :=
      Finset.eq_empty_iff_forall_notMem.2 fun c hc => hout (h.within _ _ ((h.children _ c).1 hc)).1
    have hlinks : s.links tx.hash = ⟨s.getMemPoolParents tx.hash, s.getMemPoolChildren tx.hash⟩ := rfl
    rw [hparents, hchildren] at hlinks
    rw [hit, hlinks]
    show ((s.mapLinks.insertIfNew tx.hash ⟨∅, ∅⟩)[tx.hash]?).getD ⟨∅, ∅⟩ = _
    rw [lookup_insertIfNew]
    cases hl : s.mapLinks[tx.hash]? with
    | none => simp
    | some l =>
      rw [links, hl] at hlinks
      simpa using hlinks
  · show ((s.mapLinks.insertIfNew tx.hash ⟨∅, ∅⟩)[it]?).getD ⟨∅, ∅⟩ = _
    rw [lookup_insertIfNew, if_neg fun hand => hit hand.1, links]

theorem sink_add (h : Linked L s) :
    Sink L (fun p c => L p c ∨ (c = tx.hash ∧ p ∈ s.parentsOf tx)) s.ids (s.parentsOf tx) tx.hash :=
  ⟨notMem_ids hnew, h.within, parentsOf_subset, fun _ _ => Iff.rfl⟩

theorem linked_add (h : Linked L s) (hA : ∀ a, a ∈ A ↔ ∃ p ∈ s.parentsOf tx, Relation.ReflTransGen L a p) :
    Linked (fun p c => L p c ∨ (c = tx.hash ∧ p ∈ s.parentsOf tx)) (s.addUnchecked (.new tx nFee nTime nTxSize) A) := by
  have hout := notMem_ids hnew
  have hnoparent (p : Uint256) : ¬ L p tx.hash := fun hl => hout (h.within p _ hl).2
  rw [addUnchecked_eq]
  show Linked _ (((s.insertEntry (.new tx nFee nTime nTxSize)).linkParents tx.hash (s.parentsOf tx)).updateAncestorsOf true tx.hash A)
  have hlinks (it : Uint256) := linkParents_links (s.insertEntry (.new tx nFee nTime nTxSize)) tx.hash (s.parentsOf tx) it
  have halike : Alike (s.insertEntry (.new tx nFee nTime nTxSize))
      (((s.insertEntry (.new tx nFee nTime nTxSize)).linkParents tx.hash (s.parentsOf tx)).updateAncestorsOf true tx.hash A) :=
    alike_linkParents.trans (alike_updateAncestorsOf true)
  have hparents (c : Uint256) : ((s.insertEntry (.new tx nFee nTime nTxSize)).linkParents tx.hash (s.parentsOf tx)).getMemPoolParents c =
      if c = tx.hash then s.parentsOf tx else s.getMemPoolParents c := by
    have hempty : s.getMemPoolParents tx.hash = ∅ :=
      Finset.eq_empty_iff_forall_notMem.2 fun p hp => hnoparent p ((h.parents p _).1 hp)
    rw [(hlinks c).1, getMemPoolParents, getMemPoolParents, h.links_insertEntry hnew, h.links_insertEntry hnew,
      ← getMemPoolParents,
      ← getMemPoolParents, hempty, Finset.empty_union]
  have hstored : ((s.insertEntry (.new tx nFee nTime nTxSize)).linkParents tx.hash (s.parentsOf tx)).mapTx[tx.hash]? =
      some (s.newEntry (.new tx nFee nTime nTxSize)) := by
    rw [(hlinks tx.hash).2.2, lookup_insertEntry hnew, if_pos rfl]
  have hids := halike.ids.trans (ids_insertEntry hnew)
  refine ⟨fun p c hl => ?_, fun p c => ?_, fun p c => ?_, fun a e he => ?_⟩
  · rw [hids, Finset.mem_insert, Finset.mem_insert]
    rcases hl with hl | ⟨rfl, hp⟩
    · exact ⟨.inr (h.within p c hl).1, .inr (h.within p c hl).2⟩
    · exact ⟨.inr (parentsOf_subset hp), .inl rfl⟩
  · rw [parents_updateAncestorsOf, hparents]
    split
    next hc => simp [hc, hnoparent]
    next hc => rw [h.parents, or_iff_left fun hand => hc hand.1]
  · rw [children_updateAncestorsOf hstored, hparents, if_pos rfl, (hlinks p).2.1]
    have hchildren : (s.insertEntry (.new tx nFee nTime nTxSize)).getMemPoolChildren p = s.getMemPoolChildren p := by
      rw [getMemPoolChildren, h.links_insertEntry hnew, getMemPoolChildren]
    rw [hchildren]
    split
    next hp => simp [addTo, h.children, hp, or_comm]
    next hp => simp [h.children, hp]
  · rw [lookup_updateAncestorsOf hstored, (hlinks a).2.2, lookup_insertEntry hnew] at he
    obtain ⟨-, hsizes, -, htally⟩ := newEntry_new s tx nFee nTime nTxSize
    have hweight : (s.insertEntry (.new tx nFee nTime nTxSize)).weight tx.hash =
      (s.newEntry (.new tx nFee nTime nTxSize)).weight := by
      rw [CTxMemPool.weight, lookup_insertEntry hnew, if_pos rfl]
      rfl
    rw [hids, halike.weight]
    by_cases ha : a = tx.hash
    · have haA : tx.hash ∉ A := by
        rw [hA]
        rintro ⟨p, hp, hreach⟩
        rcases hreach.cases_head with heq | ⟨c, hstep, -⟩
        · exact hout (heq ▸ parentsOf_subset hp)
        · exact hout (h.within _ _ hstep).1
      rw [ha] at he
      simp only [if_true, Option.map_some, if_neg haA] at he
      cases he
      right
      rw [ha, packageSum_new (sink_add hnew h), hweight, htally]
    · rw [if_neg ha] at he
      obtain ⟨e₀, he₀, rfl⟩ := Option.map_eq_some_iff.1 he
      have hin : a ∈ s.ids := mem_ids.2 ⟨e₀, he₀⟩
      have hweights : ∀ d ∈ s.ids, (s.insertEntry (.new tx nFee nTime nTxSize)).weight d = s.weight d :=
        fun d hd => weight_insertEntry hnew fun heq => hout (heq ▸ hd)
      have hsum := packageSum_sink (sink_add hnew h) hin hweights
      rw [hsum, hweight]
      rcases h.counted a e₀ he₀ with hown | hcount
      · left
        split
        · exact tally_dirty hown
        · exact hown
      · right
        have hpos : e₀.tally.1 ≠ 0 := by
          have hone := one_le_packageSum (L := L) hin
          rw [← hcount] at hone
          omega
        rw [← hcount]
        by_cases hanc : a ∈ A
        · rw [if_pos hanc, if_pos ((hA a).1 hanc), tally_bump hpos]
          simp [CTxMemPoolEntry.weight]
        · rw [if_neg hanc, if_neg fun hp => hanc ((hA a).2 hp), add_zero]

end Add

end CTxMemPool

end Zumy.Mempool
