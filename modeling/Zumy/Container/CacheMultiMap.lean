/-
  Zumy.Container.CacheMultiMap — cachemultimap.h: the most recently added pairs of a
  key and a value.

  The pairs are nodes of a list, newest first; `mapIndex` maps a key and a value to their
  node. The index compares values with `operator<`, so two values of which neither is less
  are one value to it: `Insert` takes the second for a duplicate.

  - `insert_valid`, `erase_valid`: the index names exactly the nodes of the list.
-/
import Zumy.Container.CacheMap
import Zumy.Lib.WeakOrder

namespace Zumy.Container

open Lib

structure CacheMultiMap (K V : Type) [Ord K] (lt : V → V → Bool) where
  nMaxSize : Nat
  nCurrentSize : Nat
  listItems : List (ListNode K V)
  mapIndex : Map K (Std.TreeMap V Nat (cmpOf lt))
  nextAddr : Nat

variable {K V : Type} [Ord K] {lt : V → V → Bool}

namespace CacheMultiMap

def empty (nMaxSize : Nat) : CacheMultiMap K V lt := ⟨nMaxSize, 0, [], ∅, 0⟩

/-- `mapIt` after an erasure in it: an empty one leaves the index. -/
def putInner (m : Map K (Std.TreeMap V Nat (cmpOf lt))) (key : K) (mapIt : Std.TreeMap V Nat (cmpOf lt)) :
    Map K (Std.TreeMap V Nat (cmpOf lt)) :=
  if mapIt.size < 1 then m.erase key else m.modify key fun _ => mapIt

def pruneLast (c : CacheMultiMap K V lt) : CacheMultiMap K V lt :=
  if c.nCurrentSize < 1 then c
  else match c.listItems.getLast? with
    | none => c
    | some lit =>
      { c with
        mapIndex := match c.mapIndex[lit.item.key]? with
          | none => c.mapIndex
          | some mapIt => putInner c.mapIndex lit.item.key (mapIt.erase lit.item.value)
        listItems := c.listItems.dropLast
        nCurrentSize := c.nCurrentSize - 1 }

/-- The first lines of `Insert`: a full cache makes room before it looks for a duplicate. -/
def makeRoom (c : CacheMultiMap K V lt) : CacheMultiMap K V lt := if c.nCurrentSize = c.nMaxSize then c.pruneLast else c

def insert (c : CacheMultiMap K V lt) (key : K) (value : V) : Bool × CacheMultiMap K V lt :=
  let c := c.makeRoom
  let mapIndex := c.mapIndex.insertIfNew key ∅
  let mapIt := mapIndex[key]?.getD ∅
  if mapIt.contains value then (false, { c with mapIndex := mapIndex })
  else (true, { c with
    listItems := ⟨c.nextAddr, ⟨key, value⟩⟩ :: c.listItems
    mapIndex := mapIndex.modify key fun _ => mapIt.insert value c.nextAddr
    nCurrentSize := c.nCurrentSize + 1
    nextAddr := c.nextAddr + 1 })

def deref (c : CacheMultiMap K V lt) (lit : Nat) : Option V := (c.listItems.find? (·.addr == lit)).map (·.item.value)

def getAll (c : CacheMultiMap K V lt) (key : K) : List V :=
  match c.mapIndex[key]? with
  | none => []
  | some mapIt => mapIt.toList.filterMap fun it => c.deref it.2

/-- `Erase(key, value)` -/
def erase (c : CacheMultiMap K V lt) (key : K) (value : V) : CacheMultiMap K V lt :=
  match c.mapIndex[key]? with
  | none => c
  | some mapIt =>
    match mapIt[value]? with
    | none => c
    | some lit =>
      { c with
        listItems := c.listItems.filter (·.addr != lit)
        nCurrentSize := c.nCurrentSize - 1
        mapIndex := putInner c.mapIndex key (mapIt.erase value) }

/-! ## The index and the list -/

def entry (c : CacheMultiMap K V lt) (key : K) (value : V) : Option Nat := c.mapIndex[key]?.bind (·[value]?)

structure Valid (c : CacheMultiMap K V lt) : Prop where
  fresh : ∀ n ∈ c.listItems, n.addr < c.nextAddr
  distinct : (c.listItems.map ListNode.addr).Nodup
  indexed : ∀ n ∈ c.listItems, c.entry n.item.key n.item.value = some n.addr
  listed : ∀ key value lit, c.entry key value = some lit →
    ∃ n ∈ c.listItems, n.addr = lit ∧ compare n.item.key key = .eq ∧ cmpOf lt n.item.value value = .eq

variable {c : CacheMultiMap K V lt} {key : K} {value : V}

variable (c key value) in
theorem listItems_insert : (c.insert key value).2.listItems =
    if (c.insert key value).1 = true then ⟨c.makeRoom.nextAddr, ⟨key, value⟩⟩ :: c.makeRoom.listItems
    else c.makeRoom.listItems := by
  simp only [insert]
  split <;> simp

variable (c key value) in
theorem nextAddr_insert : (c.insert key value).2.nextAddr =
    if (c.insert key value).1 = true then c.makeRoom.nextAddr + 1 else c.makeRoom.nextAddr := by
  simp only [insert]
  split <;> simp

theorem nCurrentSize_insert : (c.insert key value).2.nCurrentSize =
    if (c.insert key value).1 = true then c.makeRoom.nCurrentSize + 1 else c.makeRoom.nCurrentSize := by
  simp only [insert]
  split <;> simp

theorem nMaxSize_makeRoom : c.makeRoom.nMaxSize = c.nMaxSize := by
  simp only [makeRoom, pruneLast]
  repeat' split
  all_goals rfl

theorem nMaxSize_insert : (c.insert key value).2.nMaxSize = c.nMaxSize := by
  simp only [insert]
  split <;> exact nMaxSize_makeRoom

theorem mem_listItems_pruneLast {n : ListNode K V} (h : n ∈ c.pruneLast.listItems) : n ∈ c.listItems := by
  unfold pruneLast at h
  split at h
  · exact h
  split at h
  · exact h
  · exact List.mem_of_mem_dropLast h

theorem mem_listItems_insert {n : ListNode K V} (h : n ∈ (c.insert key value).2.listItems) :
    n ∈ c.listItems ∨ n.item = ⟨key, value⟩ := by
  have hroom (hn : n ∈ c.makeRoom.listItems) : n ∈ c.listItems := by
    unfold makeRoom at hn
    split at hn
    · exact mem_listItems_pruneLast hn
    · exact hn
  rw [listItems_insert] at h
  split at h
  · rcases List.mem_cons.1 h with rfl | h
    · exact .inr rfl
    · exact .inl (hroom h)
  · exact .inl (hroom h)

theorem mem_listItems_erase {n : ListNode K V} (h : n ∈ (c.erase key value).listItems) : n ∈ c.listItems := by
  unfold erase at h
  split at h
  · exact h
  split at h
  · exact h
  · exact (List.mem_filter.1 h).1

variable [Std.TransOrd K] [Std.TransCmp (cmpOf lt)]

omit [Std.TransCmp (cmpOf lt)] in
theorem empty_valid (nMaxSize : Nat) : (empty nMaxSize : CacheMultiMap K V lt).Valid where
  fresh := by simp [empty]
  distinct := by simp [empty]
  indexed := by simp [empty]
  listed key value lit h := by simp [empty, entry] at h

theorem entry_congr {k : K} {v : V} (hk : compare key k = .eq) (hv : cmpOf lt value v = .eq) :
    c.entry key value = c.entry k v := by
  unfold entry
  rw [Std.TreeMap.getElem?_congr hk]
  cases c.mapIndex[k]? with
  | none => rfl
  | some mapIt => exact Std.TreeMap.getElem?_congr hv

theorem lookup_putInner {m : Map K (Std.TreeMap V Nat (cmpOf lt))} {mapIt : Std.TreeMap V Nat (cmpOf lt)}
    (h : (m[key]?).isSome) (k : K) (v : V) :
    (putInner m key mapIt)[k]?.bind (·[v]?) = if compare key k = .eq then mapIt[v]? else m[k]?.bind (·[v]?) := by
  unfold putInner
  split
  · rename_i hsize
    rw [Std.TreeMap.getElem?_erase]
    split
    · have hempty : mapIt.isEmpty = true := by
        rw [Std.TreeMap.isEmpty_eq_size_eq_zero, beq_iff_eq]
        omega
      simp [Std.TreeMap.getElem?_of_isEmpty hempty]
    · rfl
  · rw [Std.TreeMap.getElem?_modify]
    split
    · obtain ⟨old, hold⟩ := Option.isSome_iff_exists.1 h
      simp [hold]
    · rfl

theorem entry_erase {mapIt : Std.TreeMap V Nat (cmpOf lt)} (hmap : c.mapIndex[key]? = some mapIt) (value : V) (k : K) (v : V) :
    (putInner c.mapIndex key (mapIt.erase value))[k]?.bind (·[v]?) =
      if compare key k = .eq ∧ cmpOf lt value v = .eq then none else c.entry k v := by
  rw [lookup_putInner (by rw [hmap]; rfl), Std.TreeMap.getElem?_erase]
  by_cases hk : compare key k = .eq
  · have hck : c.entry k v = mapIt[v]? := by
      unfold entry
      rw [← Std.TreeMap.getElem?_congr hk, hmap, Option.bind_some]
    by_cases hv : cmpOf lt value v = .eq <;> simp [hk, hv, hck]
  · simp [hk, entry]

theorem Valid.remove (hc : c.Valid) {n : ListNode K V} {mapIt : Std.TreeMap V Nat (cmpOf lt)} {l : List (ListNode K V)}
    (hmap : c.mapIndex[key]? = some mapIt) (hentry : mapIt[value]? = some n.addr)
    (hl : ∀ m, m ∈ l ↔ m ∈ c.listItems ∧ m.addr ≠ n.addr) (hsub : l.Sublist c.listItems) :
    ({ c with listItems := l, mapIndex := putInner c.mapIndex key (mapIt.erase value),
              nCurrentSize := c.nCurrentSize - 1 } : CacheMultiMap K V lt).Valid := by
  have hlookup (k : K) (v : V) := entry_erase hmap value k v
  have hremoved : c.entry key value = some n.addr := by
    unfold entry
    rw [hmap]
    exact hentry
  refine ⟨fun m hm => hc.fresh m ((hl m).1 hm).1, (hsub.map _).nodup hc.distinct, fun m hm => ?_, fun k v lit h => ?_⟩
  · obtain ⟨hin, hne⟩ := (hl m).1 hm
    have hm := hc.indexed m hin
    show (putInner c.mapIndex key (mapIt.erase value))[m.item.key]?.bind (·[m.item.value]?) = some m.addr
    rw [hlookup, if_neg, hm]
    intro h
    rw [← entry_congr h.1 h.2, hremoved, Option.some.injEq] at hm
    exact hne hm.symm
  · have h' : (putInner c.mapIndex key (mapIt.erase value))[k]?.bind (·[v]?) = some lit := h
    rw [hlookup] at h'
    split at h'
    · cases h'
    · rename_i hne
      obtain ⟨m, hm, hlit, hk, hv⟩ := hc.listed k v lit h'
      refine ⟨m, (hl m).2 ⟨hm, fun haddr => hne ?_⟩, hlit, hk, hv⟩
      -- the entry removed is the only one of its node
      obtain ⟨m', hm', haddr', hk', hv'⟩ := hc.listed key value n.addr hremoved
      have hmm : m = m' := List.inj_on_of_nodup_map hc.distinct hm hm' (haddr.trans haddr'.symm)
      subst hmm
      exact ⟨Std.TransCmp.eq_trans (Std.OrientedCmp.eq_symm hk') hk, Std.TransCmp.eq_trans (Std.OrientedCmp.eq_symm hv') hv⟩

theorem pruneLast_valid (hc : c.Valid) : c.pruneLast.Valid := by
  unfold pruneLast
  split
  · exact hc
  split
  · exact hc
  · rename_i n hlast
    obtain ⟨l, hl⟩ := List.getLast?_eq_some_iff.1 hlast
    have hn := hc.indexed n (by rw [hl]; simp)
    unfold entry at hn
    obtain ⟨mapIt, hmap, hentry⟩ := Option.bind_eq_some_iff.1 hn
    simp only [hmap]
    have hdistinct := hc.distinct
    rw [hl, List.map_append, List.nodup_append] at hdistinct
    refine hc.remove hmap hentry (fun m => ?_) (List.dropLast_sublist _)
    rw [hl, List.dropLast_concat, List.mem_append, List.mem_singleton]
    constructor
    · intro hm
      exact ⟨.inl hm, hdistinct.2.2 m.addr (List.mem_map_of_mem hm) n.addr (by simp)⟩
    · intro h
      rcases h with ⟨hm | rfl, hne⟩
      · exact hm
      · exact absurd rfl hne

theorem erase_valid (hc : c.Valid) : (c.erase key value).Valid := by
  unfold erase
  split
  · exact hc
  rename_i mapIt hmap
  split
  · exact hc
  · rename_i lit hlit
    obtain ⟨n, -, rfl, -, -⟩ := hc.listed key value lit (by unfold entry; rw [hmap]; exact hlit)
    exact hc.remove hmap hlit (fun m => by simp) List.filter_sublist

variable (key) in
theorem lookup_insertIfNew_inner (m : Map K (Std.TreeMap V Nat (cmpOf lt))) (k : K) (v : V) :
    (m.insertIfNew key ∅)[k]?.bind (·[v]?) = m[k]?.bind (·[v]?) := by
  rw [Std.TreeMap.getElem?_insertIfNew]
  split
  · rename_i h
    have hnone : m[k]? = none := by
      rw [← Std.TreeMap.getElem?_congr h.1]
      exact Std.TreeMap.getElem?_eq_none h.2
    simp [hnone]
  · rfl

variable (key) in
theorem inner_getElem? (m : Map K (Std.TreeMap V Nat (cmpOf lt))) (v : V) :
    ((m.insertIfNew key ∅)[key]?.getD ∅)[v]? = m[key]?.bind (·[v]?) := by
  rw [← lookup_insertIfNew_inner key]
  cases h : (m.insertIfNew key ∅)[key]? <;> simp

theorem lookup_modifyInner (m : Map K (Std.TreeMap V Nat (cmpOf lt))) (addr : Nat)
    (f : Std.TreeMap V Nat (cmpOf lt) → Std.TreeMap V Nat (cmpOf lt))
    (hf : f ((m.insertIfNew key ∅)[key]?.getD ∅) = ((m.insertIfNew key ∅)[key]?.getD ∅).insert value addr) (k : K) (v : V) :
    ((m.insertIfNew key ∅).modify key f)[k]?.bind (·[v]?) =
      if compare key k = .eq ∧ cmpOf lt value v = .eq then some addr else m[k]?.bind (·[v]?) := by
  rw [Std.TreeMap.getElem?_modify]
  by_cases hk : compare key k = .eq
  · have hsome : ((m.insertIfNew key ∅)[key]?).isSome := by
      rw [Std.TreeMap.isSome_getElem?_iff_mem]
      simp
    obtain ⟨old, hold⟩ := Option.isSome_iff_exists.1 hsome
    have hlookup := inner_getElem? key m v
    rw [hold, Option.getD_some] at hf hlookup
    rw [if_pos hk, hold, Option.map_some, Option.bind_some, hf, Std.TreeMap.getElem?_insert, hlookup,
      Std.TreeMap.getElem?_congr hk]
    simp [hk]
  · rw [if_neg hk, if_neg (fun h => hk h.1)]
    exact lookup_insertIfNew_inner ..

theorem makeRoom_valid (hc : c.Valid) : c.makeRoom.Valid := by
  unfold makeRoom
  split
  · exact pruneLast_valid hc
  · exact hc

theorem insert_rejected : (c.insert key value).1 = false ↔ (c.makeRoom.entry key value).isSome := by
  simp only [insert]
  rw [← Std.TreeMap.isSome_getElem?_eq_contains, inner_getElem?]
  unfold entry
  split <;> simp_all

variable (c key value) in
theorem entry_insert (k : K) (v : V) : (c.insert key value).2.entry k v =
    if (c.insert key value).1 = true ∧ compare key k = .eq ∧ cmpOf lt value v = .eq then some c.makeRoom.nextAddr
    else c.makeRoom.entry k v := by
  simp only [insert]
  split
  · simp only [entry, Bool.false_eq_true, false_and, if_false]
    exact lookup_insertIfNew_inner ..
  · rename_i hnew
    simp only [entry, true_and]
    exact lookup_modifyInner c.makeRoom.mapIndex c.makeRoom.nextAddr _ rfl k v

theorem insert_valid (hc : c.Valid) : (c.insert key value).2.Valid := by
  have hr := makeRoom_valid hc
  cases hok : (c.insert key value).1 with
  | false =>
    have hlist := listItems_insert c key value
    have hnext := nextAddr_insert c key value
    have hentry := entry_insert c key value
    simp only [hok, Bool.false_eq_true, false_and, if_false] at hlist hnext hentry
    exact ⟨by rw [hlist, hnext]; exact hr.fresh, by rw [hlist]; exact hr.distinct,
      by rw [hlist]; intro n hn; rw [hentry]; exact hr.indexed n hn,
      by rw [hlist]; intro k v lit h; rw [hentry] at h; exact hr.listed k v lit h⟩
  | true =>
    have hlist := listItems_insert c key value
    have hnext := nextAddr_insert c key value
    have hentry := entry_insert c key value
    simp only [hok, true_and, if_true] at hlist hnext hentry
    have hnone : c.makeRoom.entry key value = none := by
      rw [← Option.isNone_iff_eq_none, ← Option.isSome_eq_false_iff, Bool.eq_false_iff]
      intro hsome
      rw [insert_rejected.2 hsome] at hok
      cases hok
    refine ⟨?_, ?_, ?_, ?_⟩
    · rw [hlist, hnext]
      intro n hn
      rcases List.mem_cons.1 hn with rfl | hn
      · exact Nat.lt_succ_self _
      · exact (hr.fresh n hn).trans (Nat.lt_succ_self _)
    · rw [hlist, List.map_cons, List.nodup_cons]
      refine ⟨fun hin => ?_, hr.distinct⟩
      obtain ⟨n, hn, haddr⟩ := List.mem_map.1 hin
      exact absurd (hr.fresh n hn) (by rw [haddr]; exact lt_irrefl _)
    · rw [hlist]
      intro n hn
      rw [hentry]
      rcases List.mem_cons.1 hn with rfl | hn
      · rw [if_pos ⟨Std.ReflCmp.compare_self, Std.ReflCmp.compare_self⟩]
      · have hin := hr.indexed n hn
        rw [if_neg, hin]
        intro h
        rw [entry_congr h.1 h.2, hin] at hnone
        cases hnone
    · rw [hlist]
      intro k v lit h
      rw [hentry] at h
      split at h
      · rename_i heq
        cases h
        exact ⟨_, List.mem_cons_self, rfl, heq.1, heq.2⟩
      · obtain ⟨n, hn, hlit⟩ := hr.listed k v lit h
        exact ⟨n, List.mem_cons_of_mem _ hn, hlit⟩

/-- A value refused for a duplicate has an equivalent one in the list under its key. -/
theorem held_of_rejected (hc : c.Valid) (h : (c.insert key value).1 = false) :
    ∃ n ∈ (c.insert key value).2.listItems, compare n.item.key key = .eq ∧ cmpOf lt n.item.value value = .eq := by
  obtain ⟨lit, hlit⟩ := Option.isSome_iff_exists.1 (insert_rejected.1 h)
  obtain ⟨n, hn, -, hk, hv⟩ := (makeRoom_valid hc).listed key value lit hlit
  refine ⟨n, ?_, hk, hv⟩
  rw [listItems_insert, h]
  exact hn

end CacheMultiMap

end Zumy.Container
