/-
  Zumy.Container.CacheMap — cachemap.h: the most recently added values of a map.

  `insert_valid`, `erase_valid`: the index names exactly the nodes of the list.
  `insert_spec`, `erase_spec`: what the map has for a key afterwards; an insertion into a
  full map forgets one key, `pruned`.
-/
import Zumy.Primitives
import Zumy.Lib.OrdMap

namespace Zumy.Container

structure CacheItem (K V : Type) where
  key : K
  value : V

/-- A node of a `std::list`; its number stands for its address. -/
structure ListNode (K V : Type) where
  addr : Nat
  item : CacheItem K V

structure CacheMap (K V : Type) [Ord K] where
  nMaxSize : Nat
  nCurrentSize : Nat
  listItems : List (ListNode K V)
  mapIndex : Map K Nat
  nextAddr : Nat

variable {K V : Type} [Ord K]

namespace CacheMap

def empty (nMaxSize : Nat) : CacheMap K V := ⟨nMaxSize, 0, [], ∅, 0⟩

def pruneLast (c : CacheMap K V) : CacheMap K V :=
  if c.nCurrentSize < 1 then c
  else match c.listItems.getLast? with
    | none => c
    | some lit =>
      { c with
        mapIndex := c.mapIndex.erase lit.item.key
        listItems := c.listItems.dropLast
        nCurrentSize := c.nCurrentSize - 1 }

def insert (c : CacheMap K V) (key : K) (value : V) : CacheMap K V :=
  match c.mapIndex[key]? with
  | some lit =>
    { c with listItems := c.listItems.map fun n => if n.addr == lit then { n with item := ⟨n.item.key, value⟩ } else n }
  | none =>
    let c := if c.nCurrentSize = c.nMaxSize then c.pruneLast else c
    { c with
      listItems := ⟨c.nextAddr, ⟨key, value⟩⟩ :: c.listItems
      mapIndex := c.mapIndex.insert key c.nextAddr
      nCurrentSize := c.nCurrentSize + 1
      nextAddr := c.nextAddr + 1 }

def hasKey (c : CacheMap K V) (key : K) : Bool := c.mapIndex.contains key

/-- `Get`, its answer and the value in one. -/
def get (c : CacheMap K V) (key : K) : Option V :=
  c.mapIndex[key]?.bind fun lit => (c.listItems.find? (·.addr == lit)).map (·.item.value)

def erase (c : CacheMap K V) (key : K) : CacheMap K V :=
  match c.mapIndex[key]? with
  | none => c
  | some lit =>
    { c with
      listItems := c.listItems.filter (·.addr != lit)
      mapIndex := c.mapIndex.erase key
      nCurrentSize := c.nCurrentSize - 1 }

def clear (c : CacheMap K V) : CacheMap K V := { c with mapIndex := ∅, listItems := [], nCurrentSize := 0 }

/-! ## The index and the list -/

/-- The key that `Insert` evicts to make room for a new one. -/
def pruned (c : CacheMap K V) (key : K) : Option K :=
  if c.mapIndex[key]? = none ∧ c.nCurrentSize = c.nMaxSize ∧
    1 ≤ c.nCurrentSize then c.listItems.getLast?.map (·.item.key) else none

structure Valid (c : CacheMap K V) : Prop where
  fresh : ∀ n ∈ c.listItems, n.addr < c.nextAddr
  distinct : (c.listItems.map ListNode.addr).Nodup
  indexed : ∀ n ∈ c.listItems, c.mapIndex[n.item.key]? = some n.addr
  listed : ∀ key lit, c.mapIndex[key]? = some lit → ∃ n ∈ c.listItems, n.addr = lit ∧ n.item.key = key

variable {c : CacheMap K V} {key k : K} {value v : V}

theorem Valid.get_iff (hc : c.Valid) : c.get key = some v ↔ ∃ n ∈ c.listItems, n.item = ⟨key, v⟩ := by
  unfold get
  constructor
  · intro h
    obtain ⟨lit, hlit, hfind⟩ := Option.bind_eq_some_iff.1 h
    obtain ⟨n, hn, rfl⟩ := Option.map_eq_some_iff.1 hfind
    obtain ⟨m, hm, hmaddr, hmkey⟩ := hc.listed key lit hlit
    have haddr : (n.addr == lit) = true := by simpa using List.find?_some hn
    have hsame : m = n :=
      List.inj_on_of_nodup_map hc.distinct hm (List.mem_of_find?_eq_some hn) (hmaddr.trans (beq_iff_eq.1 haddr).symm)
    exact ⟨n, List.mem_of_find?_eq_some hn, by rw [← hmkey, hsame]⟩
  · intro hex
    obtain ⟨n, hn, hitem⟩ := hex
    have hlit : c.mapIndex[key]? = some n.addr := by
      have h := hc.indexed n hn
      rwa [hitem] at h
    have hfind : c.listItems.find? (·.addr == n.addr) = some n := by
      cases hf : c.listItems.find? (·.addr == n.addr) with
      | none => exact absurd (beq_self_eq_true n.addr) (List.find?_eq_none.1 hf n hn)
      | some m =>
        have haddr : (m.addr == n.addr) = true := by simpa using List.find?_some hf
        rw [List.inj_on_of_nodup_map hc.distinct (List.mem_of_find?_eq_some hf) hn (beq_iff_eq.1 haddr)]
    rw [hlit, Option.bind_some, hfind, Option.map_some, hitem]

theorem Valid.get_eq_none_iff (hc : c.Valid) : c.get key = none ↔ c.mapIndex[key]? = none := by
  constructor
  · intro h
    cases hlit : c.mapIndex[key]? with
    | none => rfl
    | some lit =>
      obtain ⟨n, hn, -, rfl⟩ := hc.listed key lit hlit
      rw [hc.get_iff.2 ⟨n, hn, rfl⟩] at h
      cases h
  · intro h
    unfold get
    rw [h, Option.bind_none]

theorem Valid.get_congr {c' : CacheMap K V} (hc : c.Valid) (hc' : c'.Valid) {p : Prop} [Decidable p]
    (h : ∀ v, (∃ n ∈ c'.listItems, n.item = ⟨k, v⟩) ↔ ¬ p ∧ ∃ n ∈ c.listItems, n.item = ⟨k, v⟩) :
    c'.get k = if p then none else c.get k := by
  apply Option.ext
  intro v
  rw [hc'.get_iff, h v]
  split
  · simp_all
  · rename_i hp
    rw [← hc.get_iff]
    simp [hp]

variable [Std.TransOrd K]

theorem Valid.hasKey_eq (hc : c.Valid) : c.hasKey key = (c.get key).isSome := by
  rw [Bool.eq_iff_iff, hasKey, Lib.contains_iff, ← Option.isSome_iff_exists, ← Option.ne_none_iff_isSome,
    ← Option.ne_none_iff_isSome, ne_eq, ne_eq, hc.get_eq_none_iff]

theorem empty_valid (nMaxSize : Nat) : (empty nMaxSize : CacheMap K V).Valid where
  fresh := by simp [empty]
  distinct := by simp [empty]
  indexed := by simp [empty]
  listed key lit h := by simp [empty] at h

theorem clear_valid : c.clear.Valid where
  fresh := by simp [clear]
  distinct := by simp [clear]
  indexed := by simp [clear]
  listed key lit h := by simp [clear] at h

@[simp] theorem get_clear : c.clear.get key = none := by simp [get, clear]

variable [Std.LawfulEqOrd K] [DecidableEq K]

theorem Valid.remove (hc : c.Valid) {n : ListNode K V} (hn : n ∈ c.listItems) {l : List (ListNode K V)}
    (hl : ∀ m, m ∈ l ↔ m ∈ c.listItems ∧ m.addr ≠ n.addr) (hsub : l.Sublist c.listItems) (c' : CacheMap K V)
    (hlist : c'.listItems = l) (hindex : c'.mapIndex = c.mapIndex.erase n.item.key) (hnext : c'.nextAddr = c.nextAddr) :
    c'.Valid ∧ ∀ k, c'.get k = if k = n.item.key then none else c.get k := by
  have hkey (m : ListNode K V) (hm : m ∈ c.listItems) : m.item.key = n.item.key ↔ m.addr = n.addr := by
    constructor
    · intro h
      have h1 := hc.indexed m hm
      rw [h, hc.indexed n hn, Option.some.injEq] at h1
      exact h1.symm
    · intro h
      rw [List.inj_on_of_nodup_map hc.distinct hm hn h]
  have hvalid : c'.Valid := by
    refine ⟨fun m hm => ?_, ?_, fun m hm => ?_, fun k lit h => ?_⟩
    · rw [hlist] at hm
      rw [hnext]
      exact hc.fresh m ((hl m).1 hm).1
    · rw [hlist]
      exact (hsub.map _).nodup hc.distinct
    · rw [hlist] at hm
      obtain ⟨hin, hne⟩ := (hl m).1 hm
      rw [hindex, Lib.lookup_erase, if_neg (fun h => hne ((hkey m hin).1 h))]
      exact hc.indexed m hin
    · rw [hindex, Lib.lookup_erase] at h
      split at h
      · cases h
      · rename_i hne
        obtain ⟨m, hm, haddr, rfl⟩ := hc.listed k lit h
        exact ⟨m, by rw [hlist]; exact (hl m).2 ⟨hm, fun h => hne ((hkey m hm).2 h)⟩, haddr, rfl⟩
  refine ⟨hvalid, fun k => hc.get_congr hvalid fun v => ?_⟩
  rw [hlist]
  constructor
  · intro hex
    obtain ⟨m, hm, hitem⟩ := hex
    obtain ⟨hin, hne⟩ := (hl m).1 hm
    refine ⟨fun hk => hne ((hkey m hin).1 ?_), m, hin, hitem⟩
    rw [hitem, hk]
  · intro hboth
    obtain ⟨hk, m, hin, hitem⟩ := hboth
    refine ⟨m, (hl m).2 ⟨hin, fun h => hk ?_⟩, hitem⟩
    have hmkey := (hkey m hin).2 h
    rwa [hitem] at hmkey

theorem erase_spec (hc : c.Valid) (key : K) :
    (c.erase key).Valid ∧ ∀ k, (c.erase key).get k = if k = key then none else c.get k := by
  unfold erase
  split
  · rename_i hnone
    refine ⟨hc, fun k => ?_⟩
    split
    · rename_i hk
      rw [hk, hc.get_eq_none_iff, hnone]
    · rfl
  · rename_i lit hlit
    obtain ⟨n, hn, rfl, rfl⟩ := hc.listed key lit hlit
    exact hc.remove hn (fun m => by simp) List.filter_sublist _ rfl rfl rfl

theorem foldl_erase_spec (hc : c.Valid) (keys : List K) : (keys.foldl (fun c key => c.erase key) c).Valid ∧
    ∀ k, (keys.foldl (fun c key => c.erase key) c).get k = if k ∈ keys then none else c.get k := by
  induction keys generalizing c with
  | nil => exact ⟨hc, by simp⟩
  | cons key keys ih =>
    obtain ⟨hvalid, hget⟩ := erase_spec hc key
    obtain ⟨hvalid', hget'⟩ := ih hvalid
    refine ⟨hvalid', fun k => ?_⟩
    rw [List.foldl_cons, hget' k, hget k]
    by_cases hk : k = key <;> simp [hk]

theorem pruneLast_spec (hc : c.Valid) : c.pruneLast.Valid ∧ c.pruneLast.nextAddr = c.nextAddr ∧
    ∀ k, c.pruneLast.get k = if 1 ≤ c.nCurrentSize ∧ c.listItems.getLast?.map (·.item.key) = some k then none else c.get k := by
  unfold pruneLast
  split
  · rename_i hsize
    exact ⟨hc, rfl, fun k => (if_neg fun h => absurd h.1 (by omega)).symm⟩
  rename_i hsize
  split
  · rename_i hnone
    exact ⟨hc, rfl, fun k => by simp [hnone]⟩
  · rename_i n hlast
    obtain ⟨l, hl⟩ := List.getLast?_eq_some_iff.1 hlast
    have hdistinct := hc.distinct
    rw [hl, List.map_append, List.nodup_append] at hdistinct
    have hn : n ∈ c.listItems := by rw [hl]; simp
    have hdrop (m : ListNode K V) : m ∈ c.listItems.dropLast ↔ m ∈ c.listItems ∧ m.addr ≠ n.addr := by
      rw [hl, List.dropLast_concat, List.mem_append, List.mem_singleton]
      constructor
      · intro hm
        exact ⟨.inl hm, hdistinct.2.2 m.addr (List.mem_map_of_mem hm) n.addr (by simp)⟩
      · intro hboth
        rcases hboth with ⟨hm | rfl, hne⟩
        · exact hm
        · exact absurd rfl hne
    obtain ⟨hvalid, hget⟩ := hc.remove hn hdrop (List.dropLast_sublist _) { c with
      mapIndex := c.mapIndex.erase n.item.key
      listItems := c.listItems.dropLast
      nCurrentSize := c.nCurrentSize - 1 } rfl rfl rfl
    refine ⟨hvalid, rfl, fun k => ?_⟩
    rw [hget k]
    by_cases hk : n.item.key = k
    · rw [if_pos hk.symm, if_pos ⟨by omega, by simp [hlast, hk]⟩]
    · rw [if_neg (Ne.symm hk), if_neg (fun h => hk (by simpa [hlast] using h.2))]

theorem Valid.push (hc : c.Valid) (hnew : c.mapIndex[key]? = none) (value : V) (c' : CacheMap K V)
    (hlist : c'.listItems = ⟨c.nextAddr, ⟨key, value⟩⟩ :: c.listItems) (hindex : c'.mapIndex = c.mapIndex.insert key c.nextAddr)
    (hnext : c'.nextAddr = c.nextAddr + 1) : c'.Valid ∧ ∀ k, c'.get k = if k = key then some value else c.get k := by
  have hkey (n : ListNode K V) (hn : n ∈ c.listItems) : n.item.key ≠ key := by
    intro h
    have h1 := hc.indexed n hn
    rw [h, hnew] at h1
    cases h1
  have hvalid : c'.Valid := by
    refine ⟨fun n hn => ?_, ?_, fun n hn => ?_, fun k lit h => ?_⟩
    · rw [hlist] at hn
      rw [hnext]
      rcases List.mem_cons.1 hn with rfl | hn
      · exact Nat.lt_succ_self _
      · exact (hc.fresh n hn).trans (Nat.lt_succ_self _)
    · rw [hlist, List.map_cons, List.nodup_cons]
      refine ⟨fun hin => ?_, hc.distinct⟩
      obtain ⟨n, hn, haddr⟩ := List.mem_map.1 hin
      exact absurd (hc.fresh n hn) (by rw [haddr]; exact lt_irrefl _)
    · rw [hlist] at hn
      rw [hindex, Lib.lookup_insert]
      rcases List.mem_cons.1 hn with rfl | hn
      · rw [if_pos rfl]
      · rw [if_neg (hkey n hn)]
        exact hc.indexed n hn
    · rw [hindex, Lib.lookup_insert] at h
      rw [hlist]
      split at h
      · rename_i hk
        cases h
        exact ⟨_, List.mem_cons_self, rfl, hk.symm⟩
      · obtain ⟨n, hn, haddr, hnk⟩ := hc.listed k lit h
        exact ⟨n, List.mem_cons_of_mem _ hn, haddr, hnk⟩
  refine ⟨hvalid, fun k => Option.ext fun v => ?_⟩
  rw [hvalid.get_iff, hlist]
  by_cases hk : k = key
  · subst hk
    rw [if_pos rfl, Option.some.injEq]
    constructor
    · intro hex
      obtain ⟨n, hn, hitem⟩ := hex
      rcases List.mem_cons.1 hn with rfl | hn
      · exact (CacheItem.mk.inj hitem).2
      · exact absurd (by rw [hitem]) (hkey n hn)
    · rintro rfl
      exact ⟨_, List.mem_cons_self, rfl⟩
  · rw [if_neg hk, hc.get_iff]
    constructor
    · intro hex
      obtain ⟨n, hn, hitem⟩ := hex
      rcases List.mem_cons.1 hn with rfl | hn
      · exact absurd (CacheItem.mk.inj hitem).1.symm hk
      · exact ⟨n, hn, hitem⟩
    · intro hex
      obtain ⟨n, hn, hitem⟩ := hex
      exact ⟨n, List.mem_cons_of_mem _ hn, hitem⟩

omit [Std.TransOrd K] [Std.LawfulEqOrd K] in
theorem Valid.replace (hc : c.Valid) {lit : Nat} (hlit : c.mapIndex[key]? = some lit) (value : V) (c' : CacheMap K V)
    (hlist : c'.listItems = c.listItems.map fun n => if n.addr == lit then { n with item := ⟨n.item.key, value⟩ } else n)
    (hindex : c'.mapIndex = c.mapIndex) (hnext : c'.nextAddr = c.nextAddr) :
    c'.Valid ∧ ∀ k, c'.get k = if k = key then some value else c.get k := by
  have haddr (n : ListNode K V) : (if n.addr == lit then { n with item := ⟨n.item.key, value⟩ } else n).addr = n.addr := by
    split <;> rfl
  have hkey (n : ListNode K V) : (if n.addr == lit then { n with item := ⟨n.item.key, value⟩ } else n).item.key = n.item.key := by
    split <;> rfl
  have hat (n : ListNode K V) (hn : n ∈ c.listItems) : n.addr = lit ↔ n.item.key = key := by
    obtain ⟨m, hm, hmaddr, hmkey⟩ := hc.listed key lit hlit
    constructor
    · intro h
      rw [List.inj_on_of_nodup_map hc.distinct hn hm (h.trans hmaddr.symm), hmkey]
    · intro h
      have h1 := hc.indexed n hn
      rw [h, hlit, Option.some.injEq] at h1
      exact h1.symm
  have hvalid : c'.Valid := by
    refine ⟨?_, ?_, ?_, fun k l h => ?_⟩
    · rw [hlist, hnext]
      intro n hn
      obtain ⟨m, hm, rfl⟩ := List.mem_map.1 hn
      rw [haddr]
      exact hc.fresh m hm
    · rw [hlist, List.map_map]
      have hmap : ListNode.addr ∘ (fun n : ListNode K V => if n.addr == lit then { n with item := ⟨n.item.key, value⟩ } else n) =
          ListNode.addr := funext haddr
      rw [hmap]
      exact hc.distinct
    · rw [hlist, hindex]
      intro n hn
      obtain ⟨m, hm, rfl⟩ := List.mem_map.1 hn
      rw [haddr, hkey]
      exact hc.indexed m hm
    · rw [hindex] at h
      obtain ⟨n, hn, hl, hk⟩ := hc.listed k l h
      exact ⟨_, by rw [hlist]; exact List.mem_map_of_mem hn, by rw [haddr, hl], by rw [hkey, hk]⟩
  refine ⟨hvalid, fun k => Option.ext fun v => ?_⟩
  rw [hvalid.get_iff, hlist]
  by_cases hk : k = key
  · subst hk
    obtain ⟨m, hm, hmaddr, hmkey⟩ := hc.listed k lit hlit
    rw [if_pos rfl, Option.some.injEq]
    constructor
    · intro hex
      obtain ⟨n', hn', hitem⟩ := hex
      obtain ⟨n, hn, rfl⟩ := List.mem_map.1 hn'
      have hnkey : n.item.key = k := by rw [← hkey n, hitem]
      rw [if_pos (by rw [(hat n hn).2 hnkey]; exact beq_self_eq_true lit)] at hitem
      exact (CacheItem.mk.inj hitem).2
    · rintro rfl
      exact ⟨_, List.mem_map_of_mem hm, by rw [if_pos (by rw [hmaddr]; exact beq_self_eq_true lit), hmkey]⟩
  · rw [if_neg hk, hc.get_iff]
    constructor
    · intro hex
      obtain ⟨n', hn', hitem⟩ := hex
      obtain ⟨n, hn, rfl⟩ := List.mem_map.1 hn'
      refine ⟨n, hn, ?_⟩
      have hnkey : n.item.key = k := by rw [← hkey n, hitem]
      rwa [if_neg (fun h => hk (hnkey.symm.trans ((hat n hn).1 (beq_iff_eq.1 h))))] at hitem
    · intro hex
      obtain ⟨n, hn, hitem⟩ := hex
      refine ⟨_, List.mem_map_of_mem hn, ?_⟩
      rw [if_neg (fun h => hk ?_), hitem]
      rw [← (hat n hn).1 (beq_iff_eq.1 h), hitem]

theorem insert_spec (hc : c.Valid) (key : K) (value : V) : (c.insert key value).Valid ∧
    ∀ k, (c.insert key value).get k = if k = key then some value else if c.pruned key = some k then none else c.get k := by
  unfold insert
  split
  · rename_i lit hlit
    obtain ⟨hvalid, hget⟩ := hc.replace hlit value { c with
      listItems := c.listItems.map fun n => if n.addr == lit then { n with item := ⟨n.item.key, value⟩ } else n } rfl rfl rfl
    refine ⟨hvalid, fun k => ?_⟩
    rw [hget k]
    simp [pruned, hlit]
  · rename_i hnone
    obtain ⟨hroom, hget⟩ : (if c.nCurrentSize = c.nMaxSize then c.pruneLast else c).Valid ∧
        ∀ k, (if c.nCurrentSize = c.nMaxSize then c.pruneLast else c).get k = if c.pruned key =
          some k then none else c.get k := by
      by_cases hfull : c.nCurrentSize = c.nMaxSize
      · obtain ⟨hvalid, -, hget⟩ := pruneLast_spec hc
        rw [if_pos hfull]
        refine ⟨hvalid, fun k => ?_⟩
        rw [hget k]
        by_cases hsize : 1 ≤ c.nCurrentSize
        · simp [pruned, hnone, hsize, ← hfull]
        · simp [pruned, hsize]
      · rw [if_neg hfull]
        exact ⟨hc, fun k => by simp [pruned, hfull]⟩
    have hnew : (if c.nCurrentSize = c.nMaxSize then c.pruneLast else c).mapIndex[key]? = none := by
      rw [← hroom.get_eq_none_iff, hget key, hc.get_eq_none_iff.2 hnone, ite_self]
    generalize (if c.nCurrentSize = c.nMaxSize then c.pruneLast else c) = room at hroom hget hnew
    obtain ⟨hvalid, hlast⟩ := hroom.push hnew value { room with
      listItems := ⟨room.nextAddr, ⟨key, value⟩⟩ :: room.listItems
      mapIndex := room.mapIndex.insert key room.nextAddr
      nCurrentSize := room.nCurrentSize + 1
      nextAddr := room.nextAddr + 1 } rfl rfl rfl
    refine ⟨hvalid, fun k => ?_⟩
    rw [← hget k]
    exact hlast k

/-! ## Evicted keys -/

/-- The evicted keys after `Insert`: one put back is evicted no longer. -/
def evictedBy (c : CacheMap K V) (key : K) (evicted : List K) : List K :=
  ((c.pruned key).toList ++ evicted).filter (· ≠ key)

/-- A key that is there, or evicted, stays so; its value is replaced only by its own. -/
theorem held_insert (hc : c.Valid) {evicted : List K} (h : c.get k = some v ∨ k ∈ evicted) (hv : k = key → v = value) :
    (c.insert key value).get k = some v ∨ k ∈ c.evictedBy key evicted := by
  rw [(insert_spec hc key value).2 k]
  by_cases hk : k = key
  · rw [if_pos hk, hv hk]
    exact .inl rfl
  rw [if_neg hk]
  have hlist (hin : k ∈ (c.pruned key).toList ++ evicted) : k ∈ c.evictedBy key evicted :=
    List.mem_filter.2 ⟨hin, by simpa using hk⟩
  by_cases hp : c.pruned key = some k
  · exact .inr (hlist (by simp [hp]))
  · rw [if_neg hp]
    exact h.imp_right fun hin => hlist (by simp [hin])

def insertAll (c : CacheMap K V) (evicted : List K) : List (K × V) → CacheMap K V × List K
  | [] => (c, evicted)
  | it :: l => insertAll (c.insert it.1 it.2) (c.evictedBy it.1 evicted) l

/-- Every pair inserted is there or evicted, when no two give one key two values; and what is
    there was there before or was inserted. -/
theorem insertAll_spec (hc : c.Valid) (evicted : List K) (l : List (K × V))
    (hl : ∀ it ∈ l, ∀ it' ∈ l, it.1 = it'.1 → it.2 = it'.2) :
    (c.insertAll evicted l).1.Valid ∧
    (∀ k v, (c.insertAll evicted l).1.get k = some v → c.get k = some v ∨ (k, v) ∈ l) ∧
    ∀ k v, ((k, v) ∈ l ∨ ((c.get k = some v ∨ k ∈ evicted) ∧ ∀ it ∈ l, k = it.1 → v = it.2)) →
      (c.insertAll evicted l).1.get k = some v ∨ k ∈ (c.insertAll evicted l).2 := by
  induction l generalizing c evicted with
  | nil => exact ⟨hc, fun k v h => .inl h, fun k v h => (h.resolve_left (by simp)).1⟩
  | cons it l ih =>
    obtain ⟨hvalid, hget⟩ := insert_spec hc it.1 it.2
    obtain ⟨hlast, hfrom, hheld⟩ := ih hvalid (c.evictedBy it.1 evicted)
      fun x hx y hy => hl x (List.mem_cons_of_mem _ hx) y (List.mem_cons_of_mem _ hy)
    refine ⟨hlast, fun k v h => ?_, fun k v h => hheld k v ?_⟩
    · rcases hfrom k v h with hin | hin
      · rw [hget k] at hin
        split at hin
        · rename_i hk
          cases hin
          exact .inr (by rw [hk]; exact List.mem_cons_self)
        · split at hin
          · cases hin
          · exact .inl hin
      · exact .inr (List.mem_cons_of_mem _ hin)
    · rcases h with hin | ⟨hin, hsame⟩
      · rcases List.mem_cons.1 hin with hit | hin
        · refine .inr ⟨.inl ?_, fun x hx hk => ?_⟩
          · rw [hget k, if_pos (by rw [← hit]), ← hit]
          · have hv := hl it List.mem_cons_self x (List.mem_cons_of_mem _ hx) (by rw [← hit]; exact hk)
            rw [← hv, ← hit]
        · exact .inl hin
      · exact .inr ⟨held_insert hc hin (hsame it List.mem_cons_self), fun x hx => hsame x (List.mem_cons_of_mem _ hx)⟩

end CacheMap

end Zumy.Container
