/-
  Zumy.Container.CacheMultiMapIndex — the operations of CacheMultiMap that are not in a
  container of votes, and what all of them do to the index.

  The constructor and the assignment that rebuild the index take a `CacheMap`; a
  `CacheMultiMap` is copied member by member, and the index of the copy keeps the iterators
  of the list it was copied from.
-/
import Mathlib.Data.List.Pairwise
import Zumy.Container.CacheMapRuns
import Zumy.Container.CacheMultiMap

namespace Zumy.Container

open Lib

variable {K V : Type} [Ord K] {lt : V → V → Bool}

namespace CacheMultiMap

def clear (c : CacheMultiMap K V lt) : CacheMultiMap K V lt := { c with mapIndex := ∅, listItems := [], nCurrentSize := 0 }

def setMaxSize (c : CacheMultiMap K V lt) (nMaxSize : Nat) : CacheMultiMap K V lt := { c with nMaxSize := nMaxSize }

/-- `Erase(key)` -/
def eraseKey (c : CacheMultiMap K V lt) (key : K) : CacheMultiMap K V lt :=
  match c.mapIndex[key]? with
  | none => c
  | some mapIt =>
    { c with
      listItems := mapIt.toList.foldl (fun l it => l.filter (·.addr != it.2)) c.listItems
      nCurrentSize := mapIt.toList.foldl (fun n _ => n - 1) c.nCurrentSize
      mapIndex := c.mapIndex.erase key }

def rebuildIndex (c : CacheMultiMap K V lt) : CacheMultiMap K V lt :=
  { c with
    mapIndex := c.listItems.foldl (fun m lit =>
      let m := m.insertIfNew lit.item.key ∅
      m.modify lit.item.key fun mapIt => mapIt.insert lit.item.value lit.addr) ∅ }

def copy (other : CacheMultiMap K V lt) : CacheMultiMap K V lt :=
  { other with
    listItems := nodesOf other.nextAddr (other.listItems.map ListNode.item)
    nextAddr := other.nextAddr + other.listItems.length }

def serialize (c : CacheMultiMap K V lt) : CacheMapData K V := ⟨c.nMaxSize, c.nCurrentSize, c.listItems.map ListNode.item⟩

def unserialize (d : CacheMapData K V) : CacheMultiMap K V lt :=
  rebuildIndex {
    nMaxSize := d.nMaxSize
    nCurrentSize := d.nCurrentSize
    listItems := nodesOf 0 d.listItems
    mapIndex := ∅
    nextAddr := d.listItems.length }

def owns (c : CacheMultiMap K V lt) (lit : Nat) : Bool := c.listItems.any (·.addr == lit)

def nPairs (c : CacheMultiMap K V lt) : Nat := (c.mapIndex.toList.map fun it => it.2.size).sum

/-! ## The index and the list -/

def Same (lt : V → V → Bool) (a b : CacheItem K V) : Prop := compare a.key b.key = .eq ∧ cmpOf lt a.value b.value = .eq

structure Indexed (c : CacheMultiMap K V lt) : Prop where
  fresh : ∀ n ∈ c.listItems, n.addr < c.nextAddr
  issued : ∀ key value lit, c.entry key value = some lit → lit < c.nextAddr
  distinct : (c.listItems.map ListNode.addr).Nodup
  apart : c.listItems.Pairwise fun n m => ¬ Same lt n.item m.item
  present : ∀ key value, (c.entry key value).isSome ↔ ∃ n ∈ c.listItems, Same lt n.item ⟨key, value⟩
  own : ∀ key value, ∀ n ∈ c.listItems, c.entry key value = some n.addr → Same lt n.item ⟨key, value⟩
  filled : ∀ (key : K) (mapIt : Std.TreeMap V Nat (cmpOf lt)), c.mapIndex[key]? = some mapIt → mapIt.isEmpty = false

variable {c : CacheMultiMap K V lt} {key : K} {value : V}

variable [Std.TransOrd K] [Std.TransCmp (cmpOf lt)]

variable (K lt) in
theorem same_equivalence : Equivalence (Same (K := K) lt) where
  refl _ := ⟨Std.ReflCmp.compare_self, Std.ReflCmp.compare_self⟩
  symm h := ⟨Std.OrientedCmp.eq_symm h.1, Std.OrientedCmp.eq_symm h.2⟩
  trans h h' := ⟨Std.TransCmp.eq_trans h.1 h'.1, Std.TransCmp.eq_trans h.2 h'.2⟩

theorem Same.symm {a b : CacheItem K V} (h : Same lt a b) : Same lt b a := (same_equivalence K lt).symm h

theorem Same.trans {a b d : CacheItem K V} (h : Same lt a b) (h' : Same lt b d) : Same lt a d :=
  (same_equivalence K lt).trans h h'

theorem Indexed.eq_of_same (hc : c.Indexed) {n m : ListNode K V} (hn : n ∈ c.listItems) (hm : m ∈ c.listItems)
    (h : Same lt n.item m.item) : n = m := by
  have : Std.Symm fun n m : ListNode K V => ¬ Same lt n.item m.item := ⟨fun _ _ h hs => h hs.symm⟩
  by_contra hne
  exact hc.apart.forall hn hm hne h

/-- The inner maps of a consistent index list as many pairs as the list has nodes. -/
theorem Indexed.paired (hc : c.Indexed) : c.nPairs = c.listItems.length := by
  let pairs : List (CacheItem K V) := c.mapIndex.toList.flatMap fun it => it.2.toList.map fun p => ⟨it.1, p.1⟩
  have hmem (item : CacheItem K V) (hitem : item ∈ pairs) : (c.entry item.key item.value).isSome := by
    obtain ⟨⟨k, mapIt⟩, hk, hv⟩ := List.mem_flatMap.1 hitem
    obtain ⟨⟨v, lit⟩, hlit, rfl⟩ := List.mem_map.1 hv
    rw [Std.TreeMap.mem_toList_iff_getKey?_eq_some_and_getElem?_eq_some] at hk hlit
    unfold entry
    rw [hk.2, Option.bind_some, hlit.2]
    rfl
  have hin (k : K) (v : V) (h : (c.entry k v).isSome) : ∃ item ∈ pairs, Same lt item ⟨k, v⟩ := by
    obtain ⟨lit, hlit⟩ := Option.isSome_iff_exists.1 h
    unfold entry at hlit
    obtain ⟨mapIt, hmap, hlit⟩ := Option.bind_eq_some_iff.1 hlit
    obtain ⟨k', hk, hk'⟩ := Std.TreeMap.getElem?_eq_some_iff_exists_compare_eq_eq_and_mem_toList.1 hmap
    obtain ⟨v', hv, hv'⟩ := Std.TreeMap.getElem?_eq_some_iff_exists_compare_eq_eq_and_mem_toList.1 hlit
    have hpair : (⟨k', v'⟩ : CacheItem K V) ∈ pairs := List.mem_flatMap.2 ⟨_, hk', List.mem_map.2 ⟨_, hv', rfl⟩⟩
    exact ⟨_, hpair, Std.OrientedCmp.eq_symm hk, Std.OrientedCmp.eq_symm hv⟩
  have hlength : c.nPairs = pairs.length := by
    unfold nPairs
    simp only [pairs, List.length_flatMap, List.length_map, Std.TreeMap.length_toList]
  rw [hlength, ← @List.length_map _ _ c.listItems ListNode.item]
  apply length_eq_of_cover (same_equivalence K lt)
  · rw [List.pairwise_flatMap]
    constructor
    · intro it _
      rw [List.pairwise_map]
      exact Std.TreeMap.distinct_keys_toList.imp fun hne h => hne h.2
    · apply Std.TreeMap.distinct_keys_toList.imp
      intro it it' hne item hitem item' hitem' h
      obtain ⟨p, -, rfl⟩ := List.mem_map.1 hitem
      obtain ⟨p', -, rfl⟩ := List.mem_map.1 hitem'
      exact hne h.1
  · rw [List.pairwise_map]
    exact hc.apart
  · intro item hitem
    obtain ⟨n, hn, hsame⟩ := (hc.present _ _).1 (hmem item hitem)
    exact ⟨n.item, List.mem_map_of_mem hn, hsame.symm⟩
  · intro item hitem
    obtain ⟨n, hn, rfl⟩ := List.mem_map.1 hitem
    exact hin _ _ ((hc.present _ _).2 ⟨n, hn, (same_equivalence K lt).refl _⟩)

/-! ## What leaves the list -/

omit [Std.TransCmp (cmpOf lt)] in
theorem filled_putInner {m : Map K (Std.TreeMap V Nat (cmpOf lt))} {mapIt : Std.TreeMap V Nat (cmpOf lt)}
    (hm : ∀ (k : K) (it : Std.TreeMap V Nat (cmpOf lt)), m[k]? = some it → it.isEmpty = false) (k : K)
    (it : Std.TreeMap V Nat (cmpOf lt)) (h : (putInner m key mapIt)[k]? = some it) : it.isEmpty = false := by
  unfold putInner at h
  split at h
  · rw [Std.TreeMap.getElem?_erase] at h
    split at h
    · cases h
    · exact hm k it h
  · rename_i hsize
    rw [Std.TreeMap.getElem?_modify] at h
    split at h
    · obtain ⟨old, -, rfl⟩ := Option.map_eq_some_iff.1 h
      rw [Std.TreeMap.isEmpty_eq_size_eq_zero, beq_eq_false_iff_ne]
      omega
    · exact hm k it h

theorem Indexed.remove (hc : c.Indexed) {n : ListNode K V} (hn : n ∈ c.listItems) {mapIt : Std.TreeMap V Nat (cmpOf lt)}
    (hmap : c.mapIndex[key]? = some mapIt) (hsame : Same lt n.item ⟨key, value⟩) {l : List (ListNode K V)}
    (hl : ∀ m, m ∈ l ↔ m ∈ c.listItems ∧ m ≠ n) (hsub : l.Sublist c.listItems) (nCurrentSize : Nat) :
    ({ c with listItems := l, mapIndex := putInner c.mapIndex key (mapIt.erase value),
              nCurrentSize := nCurrentSize } : CacheMultiMap K V lt).Indexed := by
  have hlookup (k : K) (v : V) (lit : Nat) (h : (putInner c.mapIndex key (mapIt.erase value))[k]?.bind (·[v]?) = some lit) :
      ¬ (compare key k = .eq ∧ cmpOf lt value v = .eq) ∧ c.entry k v = some lit := by
    rw [entry_erase hmap] at h
    split at h
    · cases h
    · rename_i hne
      exact ⟨hne, h⟩
  constructor
  · intro m hm
    exact hc.fresh m ((hl m).1 hm).1
  · intro k v lit h
    exact hc.issued k v lit (hlookup k v lit h).2
  · exact (hsub.map _).nodup hc.distinct
  · exact hc.apart.sublist hsub
  · intro k v
    show ((putInner c.mapIndex key (mapIt.erase value))[k]?.bind (·[v]?)).isSome ↔ _
    constructor
    · intro h
      obtain ⟨lit, hlit⟩ := Option.isSome_iff_exists.1 h
      obtain ⟨hne, hlit⟩ := hlookup k v lit hlit
      obtain ⟨m, hm, hs⟩ := (hc.present k v).1 (by rw [hlit]; rfl)
      refine ⟨m, (hl m).2 ⟨hm, ?_⟩, hs⟩
      rintro rfl
      exact hne (hsame.symm.trans hs)
    · intro h
      obtain ⟨m, hm, hs⟩ := h
      obtain ⟨hin, hne⟩ := (hl m).1 hm
      rw [entry_erase hmap, if_neg]
      · exact (hc.present k v).2 ⟨m, hin, hs⟩
      · intro heq
        have heq : Same lt (⟨key, value⟩ : CacheItem K V) ⟨k, v⟩ := heq
        exact hne (hc.eq_of_same hin hn (hs.trans (hsame.trans heq).symm))
  · intro k v m hm h
    exact hc.own k v m ((hl m).1 hm).1 (hlookup k v _ h).2
  · exact filled_putInner hc.filled

theorem pruneLast_indexed (hc : c.Indexed) : c.pruneLast.Indexed := by
  unfold pruneLast
  split
  · exact hc
  split
  · exact hc
  · rename_i n hlast
    obtain ⟨l, hl⟩ := List.getLast?_eq_some_iff.1 hlast
    have hn : n ∈ c.listItems := by
      rw [hl]
      simp
    obtain ⟨lit, hlit⟩ := Option.isSome_iff_exists.1 ((hc.present _ _).2 ⟨n, hn, (same_equivalence K lt).refl _⟩)
    unfold entry at hlit
    obtain ⟨mapIt, hmap, -⟩ := Option.bind_eq_some_iff.1 hlit
    simp only [hmap]
    have hdistinct := hc.distinct.of_map
    rw [hl, List.nodup_append] at hdistinct
    apply hc.remove hn hmap ((same_equivalence K lt).refl _) _ (List.dropLast_sublist _)
    intro m
    rw [hl, List.dropLast_concat, List.mem_append, List.mem_singleton]
    constructor
    · intro hm
      exact ⟨.inl hm, hdistinct.2.2 m hm n (by simp)⟩
    · intro h
      rcases h with ⟨hm | hm, hne⟩
      · exact hm
      · exact absurd hm hne

theorem makeRoom_indexed (hc : c.Indexed) : c.makeRoom.Indexed := by
  unfold makeRoom
  split
  · exact pruneLast_indexed hc
  · exact hc

/-! ## `Insert` -/

theorem insert_of_rejected (h : (c.insert key value).1 = false) : (c.insert key value).2 = c.makeRoom := by
  have hentry := insert_rejected.1 h
  have hkey : c.makeRoom.mapIndex.contains key = true := by
    obtain ⟨lit, hlit⟩ := Option.isSome_iff_exists.1 hentry
    unfold entry at hlit
    obtain ⟨mapIt, hmap, -⟩ := Option.bind_eq_some_iff.1 hlit
    exact contains_iff.2 ⟨mapIt, hmap⟩
  revert h
  simp only [insert]
  split
  · intro _
    simp only
    rw [insertIfNew_eq_self _ hkey]
  · intro h
    cases h

theorem filled_insert (hc : c.makeRoom.Indexed) (h : (c.insert key value).1 = true) (k : K)
    (it : Std.TreeMap V Nat (cmpOf lt)) (hit : (c.insert key value).2.mapIndex[k]? = some it) : it.isEmpty = false := by
  revert h hit
  simp only [insert]
  split
  · intro h
    cases h
  · intro _ hit
    rw [Std.TreeMap.getElem?_modify] at hit
    split at hit
    · obtain ⟨old, -, rfl⟩ := Option.map_eq_some_iff.1 hit
      exact Std.TreeMap.isEmpty_insert
    · rename_i hne
      rw [Std.TreeMap.getElem?_insertIfNew, if_neg (fun h => hne h.1)] at hit
      exact hc.filled k it hit

theorem insert_indexed (hc : c.Indexed) (key : K) (value : V) : (c.insert key value).2.Indexed := by
  have hr := makeRoom_indexed hc
  cases hok : (c.insert key value).1 with
  | false =>
    rw [insert_of_rejected hok]
    exact hr
  | true =>
    have hlist := listItems_insert c key value
    have hnext := nextAddr_insert c key value
    have hentry := entry_insert c key value
    simp only [hok, true_and, if_true] at hlist hnext hentry
    have hnew : ¬ ∃ n ∈ c.makeRoom.listItems, Same lt n.item ⟨key, value⟩ := by
      rw [← hr.present, ← insert_rejected, hok]
      exact Bool.false_ne_true.symm
    constructor
    · intro n hn
      rw [hlist] at hn
      rw [hnext]
      rcases List.mem_cons.1 hn with rfl | hn
      · exact Nat.lt_succ_self _
      · exact (hr.fresh n hn).trans (Nat.lt_succ_self _)
    · intro k v lit h
      rw [hentry] at h
      rw [hnext]
      split at h
      · cases h
        exact Nat.lt_succ_self _
      · exact (hr.issued k v lit h).trans (Nat.lt_succ_self _)
    · rw [hlist, List.map_cons, List.nodup_cons]
      refine ⟨fun hin => ?_, hr.distinct⟩
      obtain ⟨n, hn, haddr⟩ := List.mem_map.1 hin
      exact absurd (hr.fresh n hn) (by rw [haddr]; exact lt_irrefl _)
    · rw [hlist, List.pairwise_cons]
      exact ⟨fun n hn h => hnew ⟨n, hn, h.symm⟩, hr.apart⟩
    · intro k v
      rw [hentry, hlist]
      simp only [List.mem_cons, exists_eq_or_imp]
      by_cases hs : compare key k = .eq ∧ cmpOf lt value v = .eq
      · rw [if_pos hs]
        exact iff_of_true rfl (.inl hs)
      · rw [if_neg hs, hr.present]
        exact (or_iff_right hs).symm
    · intro k v n hn h
      rw [hlist] at hn
      rw [hentry] at h
      split at h
      · rename_i hs
        rcases List.mem_cons.1 hn with rfl | hn
        · exact hs
        · have hlt := hr.fresh n hn
          rw [← Option.some.inj h] at hlt
          exact absurd hlt (lt_irrefl _)
      · rcases List.mem_cons.1 hn with rfl | hn
        · exact absurd (hr.issued k v _ h) (lt_irrefl _)
        · exact hr.own k v n hn h
    · exact filled_insert hr hok

/-! ## `Erase` -/

theorem erase_indexed (hc : c.Indexed) (key : K) (value : V) (howns : (c.entry key value).all c.owns) :
    (c.erase key value).Indexed := by
  unfold erase
  split
  · exact hc
  rename_i mapIt hmap
  split
  · exact hc
  · rename_i lit hlit
    have hentry : c.entry key value = some lit := by
      unfold entry
      rw [hmap]
      exact hlit
    rw [hentry, Option.all_some] at howns
    obtain ⟨n, hn, haddr⟩ := List.any_eq_true.1 howns
    obtain rfl : n.addr = lit := beq_iff_eq.1 haddr
    apply hc.remove hn hmap (hc.own key value n hn hentry) _ List.filter_sublist
    intro m
    rw [List.mem_filter, bne_iff_ne]
    apply and_congr_right
    intro hm
    exact not_congr ⟨List.inj_on_of_nodup_map hc.distinct hm hn, congrArg _⟩

omit [Std.TransOrd K] in
theorem entry_of_mem {mapIt : Std.TreeMap V Nat (cmpOf lt)} (hmap : c.mapIndex[key]? = some mapIt) {it : V × Nat}
    (hit : it ∈ mapIt.toList) : c.entry key it.1 = some it.2 := by
  obtain ⟨v, lit⟩ := it
  unfold entry
  rw [hmap]
  exact (Std.TreeMap.mem_toList_iff_getKey?_eq_some_and_getElem?_eq_some.1 hit).2

/-- The iterators under a key, all of the own list, are those of the nodes of that key. -/
theorem Indexed.exists_addr_iff (hc : c.Indexed) {mapIt : Std.TreeMap V Nat (cmpOf lt)} (hmap : c.mapIndex[key]? = some mapIt)
    (howns : ∀ it ∈ mapIt.toList, c.owns it.2 = true) {n : ListNode K V} (hn : n ∈ c.listItems) :
    (∃ it ∈ mapIt.toList, it.2 = n.addr) ↔ compare n.item.key key = .eq := by
  constructor
  · intro h
    obtain ⟨it, hit, haddr⟩ := h
    have hentry := entry_of_mem hmap hit
    rw [haddr] at hentry
    exact (hc.own key it.1 n hn hentry).1
  · intro hkey
    have hsame : Same lt n.item ⟨key, n.item.value⟩ := ⟨hkey, Std.ReflCmp.compare_self⟩
    obtain ⟨lit, hlit⟩ := Option.isSome_iff_exists.1 ((hc.present _ _).2 ⟨n, hn, hsame⟩)
    have hinner := hlit
    unfold entry at hinner
    rw [hmap, Option.bind_some, Std.TreeMap.getElem?_eq_some_iff_exists_compare_eq_eq_and_mem_toList] at hinner
    obtain ⟨v, -, hv⟩ := hinner
    refine ⟨_, hv, ?_⟩
    -- the iterator is of this list, and its node has the same pair
    obtain ⟨m, hm, haddr⟩ := List.any_eq_true.1 (howns _ hv)
    obtain rfl : m.addr = lit := beq_iff_eq.1 haddr
    rw [hc.eq_of_same hm hn ((hc.own _ _ m hm hlit).trans hsame.symm)]

omit [Ord K] [Std.TransOrd K] [Std.TransCmp (cmpOf lt)] in
theorem foldl_filter_addr (its : List (V × Nat)) (l : List (ListNode K V)) :
    its.foldl (fun l it => l.filter (·.addr != it.2)) l = l.filter fun n => its.all fun it => n.addr != it.2 := by
  induction its generalizing l with
  | nil => simp
  | cons it its ih =>
    rw [List.foldl_cons, ih, List.filter_filter]
    apply List.filter_congr
    intro n _
    rw [List.all_cons, Bool.and_comm]

theorem Indexed.listItems_eraseKey (hc : c.Indexed) {mapIt : Std.TreeMap V Nat (cmpOf lt)}
    (hmap : c.mapIndex[key]? = some mapIt) (howns : ∀ it ∈ mapIt.toList, c.owns it.2 = true) :
    (c.eraseKey key).listItems = c.listItems.filter fun n => compare n.item.key key != .eq := by
  unfold eraseKey
  rw [hmap]
  simp only
  rw [foldl_filter_addr]
  apply List.filter_congr
  intro n hn
  rw [Bool.eq_iff_iff, List.all_eq_true, bne_iff_ne, ne_eq, ← hc.exists_addr_iff hmap howns hn]
  simp only [bne_iff_ne, not_exists, not_and]
  exact ⟨fun h it hit he => h it hit he.symm, fun h it hit he => h it hit he.symm⟩

theorem Indexed.size_inner (hc : c.Indexed) {mapIt : Std.TreeMap V Nat (cmpOf lt)} (hmap : c.mapIndex[key]? = some mapIt)
    (howns : ∀ it ∈ mapIt.toList, c.owns it.2 = true) :
    mapIt.size = (c.listItems.filter fun n => compare n.item.key key == .eq).length := by
  rw [← Std.TreeMap.length_toList, ← @List.length_map _ _ mapIt.toList Prod.snd,
    ← @List.length_map _ _ (c.listItems.filter _) ListNode.addr]
  apply List.Perm.length_eq
  rw [List.perm_ext_iff_of_nodup]
  · intro lit
    simp only [List.mem_map, List.mem_filter, beq_iff_eq]
    constructor
    · intro h
      obtain ⟨it, hit, rfl⟩ := h
      obtain ⟨n, hn, haddr⟩ := List.any_eq_true.1 (howns it hit)
      have haddr := beq_iff_eq.1 haddr
      exact ⟨n, ⟨hn, (hc.exists_addr_iff hmap howns hn).1 ⟨it, hit, haddr.symm⟩⟩, haddr⟩
    · intro h
      obtain ⟨n, ⟨hn, hkey⟩, rfl⟩ := h
      exact (hc.exists_addr_iff hmap howns hn).2 hkey
  · -- two values at one node are one value
    rw [List.Nodup, List.pairwise_map]
    apply Std.TreeMap.distinct_keys_toList.imp_of_mem
    intro it it' hit hit' hne haddr
    obtain ⟨n, hn, hn'⟩ := List.any_eq_true.1 (howns it hit)
    have hentry := entry_of_mem hmap hit
    have hentry' := entry_of_mem hmap hit'
    rw [← haddr] at hentry'
    rw [← beq_iff_eq.1 hn'] at hentry hentry'
    exact hne ((hc.own _ _ n hn hentry).symm.trans (hc.own _ _ n hn hentry')).2
  · exact (List.filter_sublist.map _).nodup hc.distinct

theorem eraseKey_indexed (hc : c.Indexed) (key : K) (howns : ∀ it ∈ (c.mapIndex[key]?.getD ∅).toList, c.owns it.2 = true) :
    (c.eraseKey key).Indexed := by
  cases hmap : c.mapIndex[key]? with
  | none =>
    unfold eraseKey
    rw [hmap]
    exact hc
  | some mapIt =>
    rw [hmap, Option.getD_some] at howns
    have hlist := hc.listItems_eraseKey hmap howns
    have hindex : (c.eraseKey key).mapIndex = c.mapIndex.erase key ∧ (c.eraseKey key).nextAddr = c.nextAddr := by
      unfold eraseKey
      rw [hmap]
      exact ⟨rfl, rfl⟩
    obtain ⟨hindex, hnext⟩ := hindex
    have hlookup (k : K) : (c.eraseKey key).mapIndex[k]? = if compare key k = .eq then none else c.mapIndex[k]? := by
      rw [hindex, Std.TreeMap.getElem?_erase]
    have hentry (k : K) (v : V) : (c.eraseKey key).entry k v = if compare key k = .eq then none else c.entry k v := by
      unfold entry
      rw [hlookup]
      split <;> rfl
    have hmem (n : ListNode K V) : n ∈ (c.eraseKey key).listItems ↔ n ∈ c.listItems ∧ compare n.item.key key ≠ .eq := by
      rw [hlist, List.mem_filter, bne_iff_ne]
    have hsub : (c.eraseKey key).listItems.Sublist c.listItems := by
      rw [hlist]
      exact List.filter_sublist
    constructor
    · intro n hn
      rw [hnext]
      exact hc.fresh n ((hmem n).1 hn).1
    · intro k v lit h
      rw [hentry] at h
      split at h
      · cases h
      · rw [hnext]
        exact hc.issued k v lit h
    · exact (hsub.map _).nodup hc.distinct
    · exact hc.apart.sublist hsub
    · intro k v
      rw [hentry]
      split
      · rename_i hk
        apply iff_of_false Bool.false_ne_true
        intro h
        obtain ⟨n, hn, hs⟩ := h
        exact ((hmem n).1 hn).2 (Std.TransCmp.eq_trans hs.1 (Std.OrientedCmp.eq_symm hk))
      · rename_i hk
        rw [hc.present]
        constructor
        · intro h
          obtain ⟨n, hn, hs⟩ := h
          exact ⟨n, (hmem n).2 ⟨hn, fun h => hk (Std.TransCmp.eq_trans (Std.OrientedCmp.eq_symm h) hs.1)⟩, hs⟩
        · intro h
          obtain ⟨n, hn, hs⟩ := h
          exact ⟨n, ((hmem n).1 hn).1, hs⟩
    · intro k v n hn h
      rw [hentry] at h
      split at h
      · cases h
      · exact hc.own k v n ((hmem n).1 hn).1 h
    · intro k it h
      rw [hlookup] at h
      split at h
      · cases h
      · exact hc.filled k it h

/-! ## Copies and files -/

omit [Std.TransOrd K] [Std.TransCmp (cmpOf lt)] in
/-- What is asked of the nodes of a list, where it is about their items only, is asked of a copy. -/
theorem exists_item_nodesOf (addr : Nat) (p : CacheItem K V → Prop) :
    (∃ n ∈ nodesOf addr (c.listItems.map ListNode.item), p n.item) ↔ ∃ n ∈ c.listItems, p n.item := by
  have hitems := map_item_nodesOf addr (c.listItems.map ListNode.item)
  constructor
  · intro h
    obtain ⟨n, hn, hp⟩ := h
    have hin : n.item ∈ c.listItems.map ListNode.item := by
      rw [← hitems]
      exact List.mem_map_of_mem hn
    obtain ⟨m, hm, hitem⟩ := List.mem_map.1 hin
    exact ⟨m, hm, by rwa [hitem]⟩
  · intro h
    obtain ⟨n, hn, hp⟩ := h
    have hin : n.item ∈ (nodesOf addr (c.listItems.map ListNode.item)).map ListNode.item := by
      rw [hitems]
      exact List.mem_map_of_mem hn
    obtain ⟨m, hm, hitem⟩ := List.mem_map.1 hin
    exact ⟨m, hm, by rwa [hitem]⟩

omit [Std.TransOrd K] [Std.TransCmp (cmpOf lt)] in
theorem apart_nodesOf (hc : c.listItems.Pairwise fun n m => ¬ Same lt n.item m.item) (addr : Nat) :
    (nodesOf addr (c.listItems.map ListNode.item)).Pairwise fun n m => ¬ Same lt n.item m.item := by
  have h := (List.pairwise_map (f := ListNode.item) (l := c.listItems) (R := fun a b => ¬ Same lt a b)).2 hc
  rw [← map_item_nodesOf addr (c.listItems.map ListNode.item), List.pairwise_map] at h
  exact h

omit [Std.TransOrd K] [Std.TransCmp (cmpOf lt)] in
theorem copy_indexed (hc : c.Indexed) : c.copy.Indexed where
  fresh n hn := by
    have h := (addr_nodesOf hn).2
    rwa [List.length_map] at h
  issued key value lit h := Nat.lt_of_lt_of_le (hc.issued key value lit h) (Nat.le_add_right _ _)
  distinct := nodup_addr_nodesOf _ _
  apart := apart_nodesOf hc.apart _
  present key value := by
    rw [copy, exists_item_nodesOf c.nextAddr fun item => Same lt item ⟨key, value⟩]
    exact hc.present key value
  own key value n hn h := by
    have hlt := hc.issued key value n.addr h
    have hle := (addr_nodesOf hn).1
    omega
  filled := hc.filled

/-- The induction is on the list: a later node has another pair, so it leaves the entry of an earlier one. -/
theorem lookup_foldl_put (l : List (ListNode K V)) (hl : l.Pairwise fun n m => ¬ Same lt n.item m.item)
    (m : Map K (Std.TreeMap V Nat (cmpOf lt))) (k : K) (v : V) (lit : Nat) :
    (l.foldl (fun m lit => (m.insertIfNew lit.item.key ∅).modify lit.item.key fun mapIt => mapIt.insert lit.item.value lit.addr)
      m)[k]?.bind (·[v]?) = some lit ↔
      (∃ n ∈ l, Same lt n.item ⟨k, v⟩ ∧ n.addr = lit) ∨
        (∀ n ∈ l, ¬ Same lt n.item ⟨k, v⟩) ∧ m[k]?.bind (·[v]?) = some lit := by
  induction l generalizing m with
  | nil => simp
  | cons n l ih =>
    obtain ⟨hn, hl⟩ := List.pairwise_cons.1 hl
    rw [List.foldl_cons, ih hl, lookup_modifyInner m n.addr _ rfl]
    simp only [List.mem_cons, exists_eq_or_imp, forall_eq_or_imp]
    by_cases hs : Same lt n.item ⟨k, v⟩
    · have hrest : ∀ m ∈ l, ¬ Same lt m.item ⟨k, v⟩ := fun m hm h => hn m hm (hs.trans h.symm)
      have hnone : ¬ ∃ m ∈ l, Same lt m.item ⟨k, v⟩ ∧ m.addr = lit := by
        intro h
        obtain ⟨m, hm, h, -⟩ := h
        exact hrest m hm h
      have heq : compare n.item.key k = .eq ∧ cmpOf lt n.item.value v = .eq := hs
      rw [if_pos heq, Option.some.injEq]
      simp only [hnone, hs, not_true_eq_false, false_and, or_false, false_or, true_and]
      exact and_iff_right hrest
    · have hne : ¬ (compare n.item.key k = .eq ∧ cmpOf lt n.item.value v = .eq) := hs
      rw [if_neg hne]
      simp only [hs, false_and, false_or, not_false_eq_true, true_and]

theorem filled_foldl_put (l : List (ListNode K V)) (k : K) (it : Std.TreeMap V Nat (cmpOf lt))
    (hit : (l.foldl (fun m lit => (m.insertIfNew lit.item.key ∅).modify lit.item.key fun mapIt =>
      mapIt.insert lit.item.value lit.addr) (∅ : Map K (Std.TreeMap V Nat (cmpOf lt))))[k]? = some it) : it.isEmpty = false := by
  revert k it hit
  apply List.foldlRecOn l (motive := fun m : Map K (Std.TreeMap V Nat (cmpOf lt)) =>
    ∀ (k : K) (it : Std.TreeMap V Nat (cmpOf lt)), m[k]? = some it → it.isEmpty = false)
  · intro k it hit
    simp at hit
  · intro m hm n _ k it hit
    rw [Std.TreeMap.getElem?_modify] at hit
    split at hit
    · obtain ⟨old, -, rfl⟩ := Option.map_eq_some_iff.1 hit
      exact Std.TreeMap.isEmpty_insert
    · rename_i hne
      rw [Std.TreeMap.getElem?_insertIfNew, if_neg (fun h => hne h.1)] at hit
      exact hm k it hit

theorem unserialize_indexed (hc : c.Indexed) : (unserialize c.serialize : CacheMultiMap K V lt).Indexed := by
  have hapart := apart_nodesOf hc.apart 0
  have hentry (k : K) (v : V) (lit : Nat) : (unserialize c.serialize : CacheMultiMap K V lt).entry k v = some lit ↔
      ∃ n ∈ nodesOf 0 (c.listItems.map ListNode.item), Same lt n.item ⟨k, v⟩ ∧ n.addr = lit := by
    have h := lookup_foldl_put _ hapart ∅ k v lit
    simp only [Std.TreeMap.getElem?_emptyc, Option.bind_none, reduceCtorEq, and_false, or_false] at h
    exact h
  have hlt (n : ListNode K V) (hn : n ∈ nodesOf 0 (c.listItems.map ListNode.item)) :
      n.addr < (unserialize c.serialize : CacheMultiMap K V lt).nextAddr := by
    have h := (addr_nodesOf hn).2
    rwa [Nat.zero_add] at h
  constructor
  · exact hlt
  · intro k v lit h
    obtain ⟨n, hn, -, rfl⟩ := (hentry k v lit).1 h
    exact hlt n hn
  · exact nodup_addr_nodesOf _ _
  · exact hapart
  · intro k v
    rw [Option.isSome_iff_exists]
    constructor
    · intro h
      obtain ⟨lit, hlit⟩ := h
      obtain ⟨n, hn, hs, -⟩ := (hentry k v lit).1 hlit
      exact ⟨n, hn, hs⟩
    · intro h
      obtain ⟨n, hn, hs⟩ := h
      exact ⟨n.addr, (hentry k v n.addr).2 ⟨n, hn, hs, rfl⟩⟩
  · intro k v n hn h
    obtain ⟨m, hm, hs, haddr⟩ := (hentry k v n.addr).1 h
    rwa [← List.inj_on_of_nodup_map (nodup_addr_nodesOf 0 _) hm hn haddr]
  · exact filled_foldl_put _

end CacheMultiMap

end Zumy.Container
