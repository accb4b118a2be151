/-
  Zumy.Container.CacheMapRuns — CacheMap over a whole sequence of operations.

  Beside the map runs the list of recent entries it is meant to hold (`Lib.Recent`).

  - `copy_kept`, `unserialize_kept`: an index built anew names the nodes of its own list.
-/
import Zumy.Container.CacheMap
import Zumy.Lib.Recent
import Zumy.Lib.Run

namespace Zumy.Container

open Lib

variable {K V : Type}

/-! ## Copies and files -/

/-- What `SerializationOp` writes. -/
structure CacheMapData (K V : Type) where
  nMaxSize : Nat
  nCurrentSize : Nat
  listItems : List (CacheItem K V)

def nodesOf (addr : Nat) : List (CacheItem K V) → List (ListNode K V)
  | [] => []
  | item :: l => ⟨addr, item⟩ :: nodesOf (addr + 1) l

theorem map_item_nodesOf (addr : Nat) (l : List (CacheItem K V)) : (nodesOf addr l).map ListNode.item = l := by
  induction l generalizing addr with
  | nil => rfl
  | cons item l ih => rw [nodesOf, List.map_cons, ih]

theorem addr_nodesOf {addr : Nat} {l : List (CacheItem K V)} {n : ListNode K V} (hn : n ∈ nodesOf addr l) :
    addr ≤ n.addr ∧ n.addr < addr + l.length := by
  induction l generalizing addr with
  | nil => cases hn
  | cons item l ih =>
    rw [List.length_cons]
    rcases List.mem_cons.1 hn with rfl | hn
    · show addr ≤ addr ∧ addr < addr + (l.length + 1)
      omega
    · have h := ih hn
      omega

theorem nodup_addr_nodesOf (addr : Nat) (l : List (CacheItem K V)) : ((nodesOf addr l).map ListNode.addr).Nodup := by
  induction l generalizing addr with
  | nil => exact List.nodup_nil
  | cons item l ih =>
    rw [nodesOf, List.map_cons, List.nodup_cons]
    refine ⟨fun hin => ?_, ih _⟩
    obtain ⟨n, hn, haddr⟩ := List.mem_map.1 hin
    have h := (addr_nodesOf hn).1
    simp only at haddr
    omega

variable [Ord K]

namespace CacheMap

def setMaxSize (c : CacheMap K V) (nMaxSize : Nat) : CacheMap K V := { c with nMaxSize := nMaxSize }

def rebuildIndex (c : CacheMap K V) : CacheMap K V :=
  { c with mapIndex := c.listItems.foldl (fun m it => m.insert it.item.key it.addr) ∅ }

/-- The copy constructor; `operator=` leaves the same in its target. -/
def copy (other : CacheMap K V) : CacheMap K V :=
  rebuildIndex {
    nMaxSize := other.nMaxSize
    nCurrentSize := other.nCurrentSize
    listItems := nodesOf other.nextAddr (other.listItems.map ListNode.item)
    mapIndex := ∅
    nextAddr := other.nextAddr + other.listItems.length }

def serialize (c : CacheMap K V) : CacheMapData K V := ⟨c.nMaxSize, c.nCurrentSize, c.listItems.map ListNode.item⟩

def unserialize (d : CacheMapData K V) : CacheMap K V :=
  rebuildIndex {
    nMaxSize := d.nMaxSize
    nCurrentSize := d.nCurrentSize
    listItems := nodesOf 0 d.listItems
    mapIndex := ∅
    nextAddr := d.listItems.length }

/-- A copy and a map read back go on in the place of the one they were made from. -/
inductive Op (K V : Type)
  | insert (key : K) (value : V)
  | erase (key : K)
  | setMaxSize (nMaxSize : Nat)
  | clear
  | copy
  | reload

def apply (c : CacheMap K V) : Op K V → CacheMap K V
  | .insert key value => c.insert key value
  | .erase key => c.erase key
  | .setMaxSize nMaxSize => c.setMaxSize nMaxSize
  | .clear => c.clear
  | .copy => c.copy
  | .reload => unserialize c.serialize

/-! ## The entries of a map -/

def entries (c : CacheMap K V) : List (K × V) := c.listItems.map fun n => (n.item.key, n.item.value)

/-- The map holds the recent entries `r`, and its three records of them agree. -/
structure Kept (c : CacheMap K V) (r : Recent K V) : Prop where
  counted : c.nCurrentSize = c.listItems.length
  sized : c.mapIndex.size = c.nCurrentSize
  bounded : c.nCurrentSize ≤ c.nMaxSize
  valid : c.Valid
  bound : c.nMaxSize = r.bound
  recent : c.entries = r.entries

variable {c : CacheMap K V} {r : Recent K V} {key : K} {value : V}

@[simp] theorem length_entries : c.entries.length = c.listItems.length := by simp [entries]

theorem keys_entries : c.entries.map Prod.fst = c.listItems.map fun n => n.item.key := by
  unfold entries
  rw [List.map_map]
  rfl

theorem Valid.isSome_iff (hc : c.Valid) : c.mapIndex[key]?.isSome ↔ key ∈ c.entries.map Prod.fst := by
  rw [keys_entries, List.mem_map]
  constructor
  · intro h
    obtain ⟨lit, hlit⟩ := Option.isSome_iff_exists.1 h
    obtain ⟨n, hn, -, hkey⟩ := hc.listed key lit hlit
    exact ⟨n, hn, hkey⟩
  · intro h
    obtain ⟨n, hn, rfl⟩ := h
    rw [hc.indexed n hn]
    rfl

theorem Valid.nodup_keys (hc : c.Valid) : (c.entries.map Prod.fst).Nodup := by
  rw [keys_entries]
  apply List.Nodup.map_on _ hc.distinct.of_map
  intro n hn m hm h
  have hnm := hc.indexed n hn
  rw [h, hc.indexed m hm, Option.some.injEq] at hnm
  exact List.inj_on_of_nodup_map hc.distinct hn hm hnm.symm

theorem Valid.key_eq_iff (hc : c.Valid) {lit : Nat} (hlit : c.mapIndex[key]? = some lit) {n : ListNode K V}
    (hn : n ∈ c.listItems) : n.item.key = key ↔ n.addr = lit := by
  obtain ⟨m, hm, rfl, rfl⟩ := hc.listed key lit hlit
  constructor
  · intro h
    have hnm := hc.indexed n hn
    rw [h, hc.indexed m hm, Option.some.injEq] at hnm
    exact hnm.symm
  · intro h
    rw [List.inj_on_of_nodup_map hc.distinct hn hm h]

variable [Std.TransOrd K] [Std.LawfulEqOrd K]

theorem Valid.size_eq (hc : c.Valid) : c.mapIndex.size = c.listItems.length := by
  rw [← Std.TreeMap.length_keys, ← length_entries, ← @List.length_map _ _ c.entries Prod.fst]
  apply List.Perm.length_eq
  rw [List.perm_ext_iff_of_nodup Std.TreeMap.nodup_keys hc.nodup_keys]
  intro key
  rw [Std.TreeMap.mem_keys, ← hc.isSome_iff, Std.TreeMap.isSome_getElem?_iff_mem]

/-! ## The index built anew -/

variable [DecidableEq K]

theorem lookup_foldl_insert (l : List (ListNode K V)) (hl : (l.map fun n => n.item.key).Nodup) (m : Map K Nat) (lit : Nat) :
    (l.foldl (fun m it => m.insert it.item.key it.addr) m)[key]? = some lit ↔
      (∃ n ∈ l, n.item.key = key ∧ n.addr = lit) ∨ (key ∉ l.map fun n => n.item.key) ∧ m[key]? = some lit := by
  induction l generalizing m with
  | nil => simp
  | cons n l ih =>
    rw [List.map_cons, List.nodup_cons] at hl
    rw [List.foldl_cons, ih hl.2, lookup_insert, List.map_cons, List.mem_cons]
    by_cases hkey : key = n.item.key
    · subst hkey
      have hnone : ¬ ∃ n' ∈ l, n'.item.key = n.item.key ∧ n'.addr = lit := by
        intro h
        obtain ⟨n', hn', hk, -⟩ := h
        exact hl.1 (List.mem_map.2 ⟨n', hn', hk⟩)
      simp [hnone, hl.1]
    · rw [if_neg hkey]
      simp only [List.mem_cons, exists_eq_or_imp, hkey, false_or, Ne.symm hkey, false_and]

theorem rebuildIndex_valid (hfresh : ∀ n ∈ c.listItems, n.addr < c.nextAddr) (haddr : (c.listItems.map ListNode.addr).Nodup)
    (hkeys : (c.listItems.map fun n => n.item.key).Nodup) : c.rebuildIndex.Valid where
  fresh := hfresh
  distinct := haddr
  indexed n hn := (lookup_foldl_insert c.listItems hkeys ∅ n.addr).2 (.inl ⟨n, hn, rfl, rfl⟩)
  listed key lit h := by
    rcases (lookup_foldl_insert c.listItems hkeys ∅ lit).1 h with ⟨n, hn, hk, hlit⟩ | ⟨-, h⟩
    · exact ⟨n, hn, hlit, hk⟩
    · simp at h

/-! ## The operations -/

omit [DecidableEq K] in
theorem Kept.of_valid (hcounted : c.nCurrentSize = c.listItems.length) (hvalid : c.Valid) (hbound : c.nMaxSize = r.bound)
    (hrecent : c.entries = r.entries) : c.Kept r where
  counted := hcounted
  sized := hvalid.size_eq.trans hcounted.symm
  bounded := by
    rw [hcounted, hbound, ← length_entries, hrecent]
    exact r.le
  valid := hvalid
  bound := hbound
  recent := hrecent

omit [Std.LawfulEqOrd K] [DecidableEq K] in
theorem empty_kept (nMaxSize : Nat) : (empty nMaxSize : CacheMap K V).Kept (Recent.empty nMaxSize) where
  counted := rfl
  sized := Std.TreeMap.size_emptyc
  bounded := Nat.zero_le _
  valid := empty_valid nMaxSize
  bound := rfl
  recent := rfl

omit [DecidableEq K] in
theorem clear_kept (h : c.Kept r) : c.clear.Kept r.clear := .of_valid rfl clear_valid h.bound rfl

omit [DecidableEq K] in
theorem setMaxSize_kept (h : c.Kept r) {nMaxSize : Nat} (hle : c.nCurrentSize ≤ nMaxSize) :
    (c.setMaxSize nMaxSize).Kept (r.resize nMaxSize) := by
  apply Kept.of_valid (c := c.setMaxSize nMaxSize)
    (r := r.resize nMaxSize) h.counted ⟨h.valid.fresh, h.valid.distinct, h.valid.indexed, h.valid.listed⟩ rfl
  rw [Recent.entries_resize_of_le]
  · exact h.recent
  · rw [← h.recent, length_entries, ← h.counted]
    exact hle

theorem rebuildIndex_kept (h : c.Kept r) (addr : Nat) : (rebuildIndex {
    nMaxSize := c.nMaxSize
    nCurrentSize := c.nCurrentSize
    listItems := nodesOf addr (c.listItems.map ListNode.item)
    mapIndex := ∅
    nextAddr := addr + c.listItems.length } : CacheMap K V).Kept r := by
  have hitems := map_item_nodesOf addr (c.listItems.map ListNode.item)
  have hmap {α : Type} (f : CacheItem K V → α) :
      (nodesOf addr (c.listItems.map ListNode.item)).map (fun n => f n.item) = c.listItems.map fun n => f n.item := by
    have h := congrArg (List.map f) hitems
    rwa [List.map_map, List.map_map] at h
  apply Kept.of_valid
  · show c.nCurrentSize = (nodesOf addr (c.listItems.map ListNode.item)).length
    rw [h.counted, ← @List.length_map _ _ (nodesOf addr _) ListNode.item, hitems, List.length_map]
  · apply rebuildIndex_valid
    · intro n hn
      have hlt := (addr_nodesOf hn).2
      rwa [List.length_map] at hlt
    · exact nodup_addr_nodesOf _ _
    · show ((nodesOf addr (c.listItems.map ListNode.item)).map fun n => n.item.key).Nodup
      rw [hmap CacheItem.key, ← keys_entries]
      exact h.valid.nodup_keys
  · exact h.bound
  · rw [← h.recent]
    exact hmap fun item => (item.key, item.value)

theorem copy_kept (h : c.Kept r) : c.copy.Kept r := rebuildIndex_kept h c.nextAddr

theorem unserialize_kept (h : c.Kept r) : (unserialize c.serialize).Kept r := by
  have hkept := rebuildIndex_kept h 0
  unfold unserialize serialize
  rw [List.length_map]
  rwa [Nat.zero_add] at hkept

theorem erase_kept (h : c.Kept r) (key : K) : (c.erase key).Kept (r.erase key) := by
  have hvalid := (erase_spec h.valid key).1
  cases hlit : c.mapIndex[key]? with
  | none =>
    have herase : c.erase key = c := by
      unfold erase
      rw [hlit]
    have habsent : key ∉ r.entries.map Prod.fst := by
      rw [← h.recent, ← h.valid.isSome_iff, hlit]
      exact Bool.false_ne_true
    rw [herase]
    apply Kept.of_valid (r := r.erase key) h.counted h.valid h.bound
    show c.entries = r.entries.filter (·.1 ≠ key)
    rw [h.recent, List.filter_eq_self.2]
    intro it hit
    simp only [ne_eq, decide_not, Bool.not_eq_eq_eq_not, Bool.not_true, decide_eq_false_iff_not]
    rintro rfl
    exact habsent (List.mem_map_of_mem hit)
  | some lit =>
    have herase : c.erase key = { c with
        listItems := c.listItems.filter (·.addr != lit)
        mapIndex := c.mapIndex.erase key
        nCurrentSize := c.nCurrentSize - 1 } := by
      unfold erase
      rw [hlit]
    apply Kept.of_valid _ hvalid
    · rw [herase]
      exact h.bound
    · rw [herase]
      show (c.listItems.filter (·.addr != lit)).map (fun n => (n.item.key, n.item.value)) = r.entries.filter (·.1 ≠ key)
      rw [← h.recent]
      unfold entries
      rw [List.filter_map]
      apply congrArg
      apply List.filter_congr
      intro n hn
      simp only [Function.comp_apply, bne, ne_eq, decide_not]
      rw [Bool.eq_iff_iff]
      simp [(h.valid.key_eq_iff hlit hn)]
    · rw [← hvalid.size_eq, herase]
      show c.nCurrentSize - 1 = (c.mapIndex.erase key).size
      rw [Std.TreeMap.size_erase, if_pos, h.sized]
      rw [← Std.TreeMap.isSome_getElem?_eq_contains, hlit]
      rfl

theorem insert_present_kept (h : c.Kept r) {lit : Nat} (hlit : c.mapIndex[key]? = some lit) (value : V) :
    (c.insert key value).Kept (r.insert key value) := by
  have hvalid := (insert_spec h.valid key value).1
  have hinsert : c.insert key value =
      { c with listItems := c.listItems.map fun n => if n.addr == lit then { n with item := ⟨n.item.key, value⟩ } else n } := by
    unfold insert
    rw [hlit]
  have hmem : key ∈ r.entries.map Prod.fst := by
    rw [← h.recent, ← h.valid.isSome_iff, hlit]
    rfl
  apply Kept.of_valid _ hvalid
  · rw [hinsert, Recent.bound_insert]
    exact h.bound
  · rw [hinsert, Recent.entries_insert_of_mem value hmem, ← h.recent]
    unfold entries Recent.setValue
    rw [List.map_map, List.map_map]
    apply List.map_congr_left
    intro n hn
    simp only [Function.comp_apply]
    by_cases haddr : n.addr = lit
    · have hkey := (h.valid.key_eq_iff hlit hn).2 haddr
      simp [haddr, hkey]
    · have hkey : n.item.key ≠ key := fun hk => haddr ((h.valid.key_eq_iff hlit hn).1 hk)
      simp [haddr, hkey]
  · rw [hinsert]
    simp only [List.length_map]
    exact h.counted

/-- `Insert` of a new key goes to the front, in the place of the oldest where the map is full. -/
theorem insert_new_kept (h : c.Kept r) (hnone : c.mapIndex[key]? = none) (hpos : 0 < c.nMaxSize) (value : V) :
    (c.insert key value).Kept (r.insert key value) := by
  have hvalid := (insert_spec h.valid key value).1
  have habsent : key ∉ r.entries.map Prod.fst := by
    rw [← h.recent, ← h.valid.isSome_iff, hnone]
    exact Bool.false_ne_true
  have hlength : r.entries.length = c.nCurrentSize := by rw [← h.recent, length_entries, h.counted]
  have hbounded := h.bounded
  have hbound := h.bound
  by_cases hfull : c.nCurrentSize = c.nMaxSize
  · obtain ⟨n, hlast⟩ : ∃ n, c.listItems.getLast? = some n := by
      have hne : c.listItems ≠ [] := by
        rw [← List.length_pos_iff_ne_nil, ← h.counted]
        omega
      exact ⟨_, List.getLast?_eq_some_getLast hne⟩
    have hprune : c.pruneLast = { c with
        mapIndex := c.mapIndex.erase n.item.key
        listItems := c.listItems.dropLast
        nCurrentSize := c.nCurrentSize - 1 } := by
      unfold pruneLast
      rw [if_neg (by omega), hlast]
    have hinsert : (c.insert key value).listItems = ⟨c.nextAddr, ⟨key, value⟩⟩ :: c.listItems.dropLast ∧
        (c.insert key value).nCurrentSize = c.nCurrentSize - 1 + 1 ∧ (c.insert key value).nMaxSize = c.nMaxSize := by
      unfold insert
      rw [hnone]
      simp only [if_pos hfull, hprune, and_self]
    obtain ⟨hlist, hcount, hmax⟩ := hinsert
    apply Kept.of_valid _ hvalid
    · rw [hmax, Recent.bound_insert]
      exact h.bound
    · rw [Recent.entries_insert_of_full value habsent (by omega) (by omega), ← h.recent]
      unfold entries
      rw [hlist, List.map_cons, List.map_dropLast]
    · rw [hcount, hlist, List.length_cons, List.length_dropLast, h.counted]
  · have hinsert : (c.insert key value).listItems = ⟨c.nextAddr, ⟨key, value⟩⟩ :: c.listItems ∧
        (c.insert key value).nCurrentSize = c.nCurrentSize + 1 ∧ (c.insert key value).nMaxSize = c.nMaxSize := by
      unfold insert
      rw [hnone]
      simp only [if_neg hfull, and_self]
    obtain ⟨hlist, hcount, hmax⟩ := hinsert
    apply Kept.of_valid _ hvalid
    · rw [hmax, Recent.bound_insert]
      exact h.bound
    · rw [Recent.entries_insert_of_lt value habsent (by omega), ← h.recent]
      unfold entries
      rw [hlist, List.map_cons]
    · rw [hcount, hlist, List.length_cons, h.counted]

/-! ## Sequences of operations -/

omit [Ord K] [Std.TransOrd K] [Std.LawfulEqOrd K] in
def recentAfter (r : Recent K V) : Op K V → Recent K V
  | .insert key value => r.insert key value
  | .erase key => r.erase key
  | .setMaxSize nMaxSize => r.resize nMaxSize
  | .clear => r.clear
  | .copy => r
  | .reload => r

def step (s : CacheMap K V × Recent K V) (op : Op K V) : Option (CacheMap K V × Recent K V) :=
  some (s.1.apply op, recentAfter s.2 op)

/-- A new key finds a bound above zero, a new bound is not below the number of entries. -/
def Roomy (s : CacheMap K V × Recent K V) : Op K V → Prop
  | .insert key _ => s.1.hasKey key = true ∨ 0 < s.1.nMaxSize
  | .setMaxSize nMaxSize => s.1.nCurrentSize ≤ nMaxSize
  | .erase _ | .clear | .copy | .reload => True

omit [Std.TransOrd K] [Std.LawfulEqOrd K] [DecidableEq K] in
instance (s : CacheMap K V × Recent K V) : (op : Op K V) → Decidable (Roomy s op)
  | .insert _ _ => inferInstanceAs (Decidable (_ ∨ _))
  | .setMaxSize _ => inferInstanceAs (Decidable (_ ≤ _))
  | .erase _ | .clear | .copy | .reload => inferInstanceAs (Decidable True)

theorem apply_kept (h : c.Kept r) {op : Op K V} (hroomy : Roomy (c, r) op) : (c.apply op).Kept (recentAfter r op) := by
  cases op with
  | insert key value =>
    cases hlit : c.mapIndex[key]? with
    | some lit => exact insert_present_kept h hlit value
    | none =>
      have hno : c.hasKey key = false := by
        unfold hasKey
        exact contains_eq_false_iff.2 hlit
      rcases hroomy with hkey | hpos
      · rw [hno] at hkey
        cases hkey
      · exact insert_new_kept h hlit hpos value
  | erase key => exact erase_kept h key
  | setMaxSize nMaxSize => exact setMaxSize_kept h hroomy
  | clear => exact clear_kept h
  | copy => exact copy_kept h
  | reload => exact unserialize_kept h

omit [Std.LawfulEqOrd K] in
theorem roomy_of_apply_kept (h : c.Kept r) {op : Op K V} (hkept : (c.apply op).Kept (recentAfter r op)) : Roomy (c, r) op := by
  cases op with
  | insert key value =>
    by_contra hroomy
    obtain ⟨hno, hzero⟩ : ¬ c.hasKey key = true ∧ ¬ 0 < c.nMaxSize := not_or.1 hroomy
    have hnone : c.mapIndex[key]? = none := by
      rw [← contains_eq_false_iff, ← Bool.not_eq_true]
      exact hno
    have hbounded := hkept.bounded
    have hsize : c.nCurrentSize < 1 := by
      have hle := h.bounded
      omega
    have hinsert : (c.apply (.insert key value)).nCurrentSize = c.nCurrentSize + 1 ∧
        (c.apply (.insert key value)).nMaxSize = c.nMaxSize := by
      show (c.insert key value).nCurrentSize = _ ∧ (c.insert key value).nMaxSize = _
      unfold insert pruneLast
      rw [hnone]
      simp only [if_pos hsize, ite_self, and_self]
    omega
  | setMaxSize nMaxSize => exact hkept.bounded
  | erase _ | clear | copy | reload => trivial

/-- The three records agree, the bound holds and the entries are the recent ones after every
    operation, exactly when each operation finds room. -/
theorem kept_iff_roomy (nMaxSize : Nat) (ops : List (Op K V)) :
    Along step (fun _ _ s' => s'.1.Kept s'.2) (empty nMaxSize, Recent.empty nMaxSize) ops ↔
      Meets step Roomy (empty nMaxSize, Recent.empty nMaxSize) ops := by
  apply along_iff_meets_total (fun _ _ => rfl) fun s => s.1.Kept s.2
  · intro s op hs hroomy
    exact ⟨apply_kept hs hroomy, apply_kept hs hroomy⟩
  · intro s op hs hkept
    exact roomy_of_apply_kept hs hkept
  · exact empty_kept nMaxSize

/-- The bound is lowered once its entries have left. -/
theorem lowered_bound_is_kept : Along step (fun _ _ s' => s'.1.Kept s'.2) ((empty 2 : CacheMap Nat Nat), Recent.empty 2)
    [.insert 1 7, .insert 2 7, .insert 3 7, .erase 2, .setMaxSize 1, .copy, .insert 4 7, .reload] := by
  rw [kept_iff_roomy]
  decide

/-- Two entries under a bound of one: the third is added to them. -/
theorem shrunk_bound_is_passed :
    ¬ ∀ (nMaxSize : Nat) (ops : List (Op Nat Nat)),
      Along step (fun _ _ s' => s'.1.Kept s'.2) (empty nMaxSize, Recent.empty nMaxSize) ops := by
  intro h
  have hshrunk := (h 2 [.insert 1 7, .insert 2 7, .setMaxSize 1, .insert 3 7] _ rfl).2 _ rfl
  have hbounded := ((hshrunk.2 _ rfl).2 _ rfl).1.bounded
  revert hbounded
  decide

end CacheMap

end Zumy.Container
