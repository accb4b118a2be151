/-
  Zumy.Container.CacheMultiMapRuns — CacheMultiMap over a whole sequence of operations.

  Erasing through an iterator of another list is undefined, so a step may be.
-/
import Zumy.Container.CacheMultiMapIndex

namespace Zumy.Container

open Lib

variable {K V : Type} [Ord K] {lt : V → V → Bool}

namespace CacheMultiMap

inductive Op (K V : Type)
  | insert (key : K) (value : V)
  | erase (key : K) (value : V)
  | eraseKey (key : K)
  | setMaxSize (nMaxSize : Nat)
  | clear
  | copy
  | reload

/-- `list::erase` takes an iterator of its own list only. -/
def step (c : CacheMultiMap K V lt) : Op K V → Option (CacheMultiMap K V lt)
  | .insert key value => some (c.insert key value).2
  | .erase key value => if (c.entry key value).all c.owns then some (c.erase key value) else none
  | .eraseKey key =>
    if (c.mapIndex[key]?.getD ∅).toList.all fun it => c.owns it.2 then some (c.eraseKey key) else none
  | .setMaxSize nMaxSize => some (c.setMaxSize nMaxSize)
  | .clear => some c.clear
  | .copy => some c.copy
  | .reload => some (unserialize c.serialize)

/-! ## What is asked of a container -/

structure Consistent (c : CacheMultiMap K V lt) : Prop where
  counted : c.nCurrentSize = c.listItems.length
  paired : c.nPairs = c.nCurrentSize
  filled : ∀ (key : K) (mapIt : Std.TreeMap V Nat (cmpOf lt)), c.mapIndex[key]? = some mapIt → mapIt.isEmpty = false
  bounded : c.nCurrentSize ≤ c.nMaxSize

/-- The container is consistent after the step, and as it was where `Insert` refuses the pair. -/
def Respects (c : CacheMultiMap K V lt) (op : Op K V) (c' : CacheMultiMap K V lt) : Prop :=
  c'.Consistent ∧ ∀ key value, op = .insert key value → (c.insert key value).1 = false → c' = c

variable {c : CacheMultiMap K V lt} {key : K} {value : V}

variable [Std.TransOrd K] [Std.TransCmp (cmpOf lt)]

/-! ## The counter -/

omit [Std.TransOrd K] [Std.TransCmp (cmpOf lt)] in
theorem counted_makeRoom (h : c.nCurrentSize = c.listItems.length) : c.makeRoom.nCurrentSize = c.makeRoom.listItems.length ∧
    c.makeRoom.nCurrentSize = if c.nCurrentSize = c.nMaxSize then c.nCurrentSize - 1 else c.nCurrentSize := by
  unfold makeRoom
  by_cases hfull : c.nCurrentSize = c.nMaxSize
  · rw [if_pos hfull, if_pos hfull]
    unfold pruneLast
    by_cases hsize : c.nCurrentSize < 1
    · rw [if_pos hsize]
      exact ⟨h, by omega⟩
    · rw [if_neg hsize]
      split
      · rename_i hnone
        rw [List.getLast?_eq_none_iff] at hnone
        rw [hnone] at h
        exact absurd h (by simp only [List.length_nil]; omega)
      · exact ⟨by rw [List.length_dropLast, h], rfl⟩
  · rw [if_neg hfull, if_neg hfull]
    exact ⟨h, rfl⟩

omit [Std.TransOrd K] [Std.TransCmp (cmpOf lt)] in
theorem counted_insert (h : c.nCurrentSize = c.listItems.length) :
    (c.insert key value).2.nCurrentSize = (c.insert key value).2.listItems.length := by
  have hroom := (counted_makeRoom h).1
  rw [listItems_insert, nCurrentSize_insert]
  split
  · rw [List.length_cons, hroom]
  · exact hroom

omit [Std.TransOrd K] [Std.TransCmp (cmpOf lt)] in
theorem counted_erase (hc : c.Indexed) (h : c.nCurrentSize = c.listItems.length) (howns : (c.entry key value).all c.owns) :
    (c.erase key value).nCurrentSize = (c.erase key value).listItems.length ∧
      (c.erase key value).nCurrentSize ≤ c.nCurrentSize ∧ (c.erase key value).nMaxSize = c.nMaxSize := by
  unfold erase
  split
  · exact ⟨h, le_rfl, rfl⟩
  rename_i mapIt hmap
  split
  · exact ⟨h, le_rfl, rfl⟩
  · rename_i lit hlit
    have hentry : c.entry key value = some lit := by
      unfold entry
      rw [hmap]
      exact hlit
    rw [hentry, Option.all_some] at howns
    obtain ⟨n, hn, haddr⟩ := List.any_eq_true.1 howns
    obtain rfl : n.addr = lit := beq_iff_eq.1 haddr
    have hlength : (c.listItems.filter (·.addr != n.addr)).length = c.listItems.length - 1 := by
      have hfilter : (c.listItems.filter (·.addr != n.addr)).map ListNode.addr =
        (c.listItems.map ListNode.addr).erase n.addr := by
        rw [hc.distinct.erase_eq_filter, List.filter_map]
        rfl
      rw [← @List.length_map _ _ (c.listItems.filter _) ListNode.addr, hfilter,
        List.length_erase_of_mem (List.mem_map_of_mem hn), List.length_map]
    refine ⟨?_, Nat.sub_le _ _, rfl⟩
    show c.nCurrentSize - 1 = (c.listItems.filter (·.addr != n.addr)).length
    rw [hlength, h]

theorem counted_eraseKey (hc : c.Indexed) (h : c.nCurrentSize = c.listItems.length)
    (howns : ∀ it ∈ (c.mapIndex[key]?.getD ∅).toList, c.owns it.2 = true) :
    (c.eraseKey key).nCurrentSize = (c.eraseKey key).listItems.length ∧
      (c.eraseKey key).nCurrentSize ≤ c.nCurrentSize ∧ (c.eraseKey key).nMaxSize = c.nMaxSize := by
  cases hmap : c.mapIndex[key]? with
  | none =>
    unfold eraseKey
    rw [hmap]
    exact ⟨h, le_rfl, rfl⟩
  | some mapIt =>
    rw [hmap, Option.getD_some] at howns
    have hloop (l : List (V × Nat)) (n : Nat) : l.foldl (fun n _ => n - 1) n = n - l.length := by
      induction l generalizing n with
      | nil => rfl
      | cons it l ih =>
        rw [List.foldl_cons, ih, List.length_cons]
        omega
    have hcount : (c.eraseKey key).nCurrentSize = c.nCurrentSize - mapIt.size := by
      unfold eraseKey
      rw [hmap]
      simp only
      rw [hloop, Std.TreeMap.length_toList]
    have hsplit := List.length_eq_length_filter_add (l := c.listItems) fun n => compare n.item.key key == .eq
    refine ⟨?_, ?_, ?_⟩
    · rw [hcount, hc.listItems_eraseKey hmap howns, hc.size_inner hmap howns, h]
      simp only [bne]
      omega
    · rw [hcount]
      exact Nat.sub_le _ _
    · unfold eraseKey
      rw [hmap]

/-! ## Sequences of operations -/

/-- An insertion finds a bound above zero and, in a full container, no node of its pair but the last;
    what is erased was indexed by the container itself; a new bound is not below the size. -/
def Sound (c : CacheMultiMap K V lt) : Op K V → Prop
  | .insert key value => 0 < c.nMaxSize ∧
      (c.nCurrentSize = c.nMaxSize → ∀ n ∈ c.listItems.dropLast, ¬ Same lt n.item ⟨key, value⟩)
  | .erase key value => (c.entry key value).all c.owns = true
  | .eraseKey key => ∀ it ∈ (c.mapIndex[key]?.getD ∅).toList, c.owns it.2 = true
  | .setMaxSize nMaxSize => c.nCurrentSize ≤ nMaxSize
  | .clear | .copy | .reload => True

omit [Std.TransOrd K] [Std.TransCmp (cmpOf lt)] in
instance (a b : CacheItem K V) : Decidable (Same lt a b) := inferInstanceAs (Decidable (_ ∧ _))

omit [Std.TransOrd K] [Std.TransCmp (cmpOf lt)] in
instance (c : CacheMultiMap K V lt) : (op : Op K V) → Decidable (c.Sound op)
  | .insert _ _ => inferInstanceAs (Decidable (_ ∧ _))
  | .erase _ _ => inferInstanceAs (Decidable (_ = true))
  | .eraseKey _ => inferInstanceAs (Decidable (∀ it ∈ _, _))
  | .setMaxSize _ => inferInstanceAs (Decidable (_ ≤ _))
  | .clear | .copy | .reload => inferInstanceAs (Decidable True)

structure Kept (c : CacheMultiMap K V lt) : Prop where
  indexed : c.Indexed
  counted : c.nCurrentSize = c.listItems.length
  bounded : c.nCurrentSize ≤ c.nMaxSize

theorem Kept.consistent (h : c.Kept) : c.Consistent where
  counted := h.counted
  paired := h.indexed.paired.trans h.counted.symm
  filled := h.indexed.filled
  bounded := h.bounded

omit [Std.TransCmp (cmpOf lt)] in
theorem empty_kept (nMaxSize : Nat) : (empty nMaxSize : CacheMultiMap K V lt).Kept where
  indexed := ⟨by simp [empty], by simp [empty, entry], by simp [empty], by simp [empty], by simp [empty, entry],
    by simp [empty], by simp [empty]⟩
  counted := rfl
  bounded := Nat.zero_le _

/-- A pair is refused in a full container just when a node other than the last has it. -/
theorem rejected_of_full (h : c.Kept) (hfull : c.nCurrentSize = c.nMaxSize) :
    (c.insert key value).1 = false ↔ ∃ n ∈ c.listItems.dropLast, Same lt n.item ⟨key, value⟩ := by
  have hroom : c.makeRoom.listItems = c.listItems.dropLast := by
    unfold makeRoom pruneLast
    rw [if_pos hfull]
    split
    · rename_i hsize
      have hnil : c.listItems = [] := List.eq_nil_of_length_eq_zero (by rw [← h.counted]; omega)
      rw [hnil]
      rfl
    split
    · rename_i hnone
      rw [List.getLast?_eq_none_iff] at hnone
      rw [hnone]
      rfl
    · rfl
  rw [insert_rejected, (makeRoom_indexed h.indexed).present, hroom]

theorem insert_kept (h : c.Kept) (key : K) (value : V) (hpos : 0 < c.nMaxSize) : (c.insert key value).2.Kept where
  indexed := insert_indexed h.indexed key value
  counted := counted_insert h.counted
  bounded := by
    have hroom := (counted_makeRoom h.counted).2
    have hbounded := h.bounded
    rw [nMaxSize_insert, nCurrentSize_insert, hroom]
    split <;> split <;> omega

/-- A refused pair leaves the container as it was, but for one that was full. -/
theorem insert_unchanged (hrejected : (c.insert key value).1 = false) (hfull : c.nCurrentSize ≠ c.nMaxSize) :
    (c.insert key value).2 = c := by
  rw [insert_of_rejected hrejected]
  unfold makeRoom
  rw [if_neg hfull]

theorem step_kept {c' : CacheMultiMap K V lt} {op : Op K V} (h : c.Kept) (hsound : c.Sound op) (hstep : c.step op = some c') :
    c'.Kept ∧ c.Respects op c' := by
  have hrespects (hkept : c'.Kept) (hinsert : ∀ key value, op ≠ .insert key value) : c'.Kept ∧ c.Respects op c' :=
    ⟨hkept, hkept.consistent, fun key value hop => absurd hop (hinsert key value)⟩
  cases op with
  | insert key value =>
    cases hstep
    have hkept := insert_kept h key value hsound.1
    refine ⟨hkept, hkept.consistent, fun k v hop hrejected => ?_⟩
    cases hop
    apply insert_unchanged hrejected
    intro hfull
    obtain ⟨n, hn, hs⟩ := (rejected_of_full h hfull).1 hrejected
    exact hsound.2 hfull n hn hs
  | erase key value =>
    have howns : (c.entry key value).all c.owns = true := hsound
    simp only [step, howns, if_true] at hstep
    cases hstep
    obtain ⟨hcounted, hle, hmax⟩ := counted_erase h.indexed h.counted howns
    have hbounded : (c.erase key value).nCurrentSize ≤ (c.erase key value).nMaxSize := by
      rw [hmax]
      exact hle.trans h.bounded
    exact hrespects ⟨erase_indexed h.indexed key value howns, hcounted, hbounded⟩ (by simp)
  | eraseKey key =>
    have howns : ∀ it ∈ (c.mapIndex[key]?.getD ∅).toList, c.owns it.2 = true := hsound
    simp only [step, List.all_eq_true.2 howns, if_true] at hstep
    cases hstep
    obtain ⟨hcounted, hle, hmax⟩ := counted_eraseKey h.indexed h.counted howns
    have hbounded : (c.eraseKey key).nCurrentSize ≤ (c.eraseKey key).nMaxSize := by
      rw [hmax]
      exact hle.trans h.bounded
    exact hrespects ⟨eraseKey_indexed h.indexed key howns, hcounted, hbounded⟩ (by simp)
  | setMaxSize nMaxSize =>
    cases hstep
    have hindexed := h.indexed
    exact hrespects ⟨⟨hindexed.fresh, hindexed.issued, hindexed.distinct, hindexed.apart, hindexed.present, hindexed.own,
      hindexed.filled⟩, h.counted, hsound⟩ (by simp)
  | clear =>
    cases hstep
    exact hrespects ⟨⟨by simp [clear], by simp [clear, entry], by simp [clear], by simp [clear], by simp [clear, entry],
      by simp [clear], by simp [clear]⟩, rfl, Nat.zero_le _⟩ (by simp)
  | copy =>
    cases hstep
    have hlength : c.copy.listItems.length = c.listItems.length := by
      rw [← @List.length_map _ _ c.copy.listItems ListNode.item, copy, map_item_nodesOf, List.length_map]
    exact hrespects ⟨copy_indexed h.indexed, h.counted.trans hlength.symm, h.bounded⟩ (by simp)
  | reload =>
    cases hstep
    have hlength : (unserialize c.serialize : CacheMultiMap K V lt).listItems.length = c.listItems.length := by
      show (nodesOf 0 (c.listItems.map ListNode.item)).length = _
      rw [← @List.length_map _ _ (nodesOf 0 _) ListNode.item, map_item_nodesOf, List.length_map]
    exact hrespects ⟨unserialize_indexed h.indexed, h.counted.trans hlength.symm, h.bounded⟩ (by simp)

/-- A step that is not sound is undefined, passes the bound or evicts for a pair it refuses. -/
theorem sound_of_step {c' : CacheMultiMap K V lt} {op : Op K V} (h : c.Kept) (hstep : c.step op = some c')
    (hrespects : c.Respects op c') : c.Sound op := by
  obtain ⟨hconsistent, hunchanged⟩ := hrespects
  cases op with
  | insert key value =>
    cases hstep
    have hroom := (counted_makeRoom h.counted).2
    constructor
    · by_contra hpos
      have hbounded := hconsistent.bounded
      have hcurrent := h.bounded
      have hempty : c.listItems.dropLast = [] := by
        rw [List.eq_nil_of_length_eq_zero (l := c.listItems) (by rw [← h.counted]; omega)]
        rfl
      have htaken : (c.insert key value).1 = true := by
        by_contra hrejected
        rw [Bool.not_eq_true, rejected_of_full h (by omega), hempty] at hrejected
        obtain ⟨n, hn, -⟩ := hrejected
        cases hn
      rw [nMaxSize_insert, nCurrentSize_insert, if_pos htaken] at hbounded
      omega
    · intro hfull n hn hs
      have hrejected := (rejected_of_full h hfull).2 ⟨n, hn, hs⟩
      have hsame := hunchanged key value rfl hrejected
      rw [insert_of_rejected hrejected] at hsame
      rw [hsame, if_pos hfull] at hroom
      have hpos : 0 < c.listItems.length := by
        have hlength := List.length_pos_of_mem hn
        rw [List.length_dropLast] at hlength
        omega
      have hcounted := h.counted
      omega
  | erase key value =>
    simp only [step] at hstep
    split at hstep
    · rename_i howns
      exact howns
    · cases hstep
  | eraseKey key =>
    simp only [step] at hstep
    split at hstep
    · rename_i howns
      exact List.all_eq_true.1 howns
    · cases hstep
  | setMaxSize nMaxSize =>
    cases hstep
    exact hconsistent.bounded
  | clear | copy | reload => trivial

/-- Every run is defined, its sizes agree within the bound, its inner maps are not empty and
    what `Insert` refuses leaves the container as it was, exactly when each step is sound. -/
theorem consistent_iff_sound (nMaxSize : Nat) (ops : List (Op K V)) :
    ((run step (empty nMaxSize : CacheMultiMap K V lt) ops).isSome ∧
      Along step Respects (empty nMaxSize : CacheMultiMap K V lt) ops) ↔
      Meets step Sound (empty nMaxSize : CacheMultiMap K V lt) ops := by
  apply defined_along_iff_meets (fun c => c.Kept) _ _ _ (empty_kept nMaxSize)
  · intro c op _ hsound
    cases op with
    | erase key value =>
      have howns : (c.entry key value).all c.owns = true := hsound
      simp only [step, howns, if_true, Option.isSome_some]
    | eraseKey key =>
      have howns : ∀ it ∈ (c.mapIndex[key]?.getD ∅).toList, c.owns it.2 = true := hsound
      simp only [step, List.all_eq_true.2 howns, if_true, Option.isSome_some]
    | insert _ _ | setMaxSize _ | clear | copy | reload => rfl
  · intro c op c' h hsound hstep
    exact step_kept h hsound hstep
  · intro c op c' h hstep hrespects
    exact sound_of_step h hstep hrespects

theorem transCmp_lt_nat : Std.TransCmp (cmpOf fun a b : Nat => decide (a < b)) := by
  apply transCmp_cmpOf
  constructor
  · intro a _
    simp
  · intro a _ b _ c _ hab hbc
    simp only [decide_eq_true_eq] at hab hbc ⊢
    omega
  · intro a _ b _ c _ hab hbc
    simp only [cmpOf_eq_iff, decide_eq_false_iff_not] at hab hbc ⊢
    omega

/-- A pair is erased and inserted again, before the copy and after the index is built anew. -/
theorem erased_pair_is_consistent :
    (run step (empty 2 : CacheMultiMap Nat Nat fun a b => a < b)
      [.insert 1 7, .insert 1 8, .erase 1 7, .insert 1 7, .copy, .insert 2 7, .reload, .eraseKey 1]).isSome ∧
    Along step Respects (empty 2 : CacheMultiMap Nat Nat fun a b => a < b)
      [.insert 1 7, .insert 1 8, .erase 1 7, .insert 1 7, .copy, .insert 2 7, .reload, .eraseKey 1] := by
  have := transCmp_lt_nat
  rw [consistent_iff_sound]
  decide

/-- A full container of two pairs: the newer one inserted again is refused, and the older one gone. -/
theorem refused_insert_evicts :
    ¬ ∀ (nMaxSize : Nat) (ops : List (Op Nat Nat)),
      (run step (empty nMaxSize : CacheMultiMap Nat Nat fun a b => a < b) ops).isSome ∧
        Along step Respects (empty nMaxSize : CacheMultiMap Nat Nat fun a b => a < b) ops := by
  intro h
  have hlast := ((((h 2 [.insert 1 7, .insert 2 7, .insert 2 7]).2 _ rfl).2 _ rfl).2 _ rfl).1
  have hsize := congrArg nCurrentSize (hlast.2 2 7 rfl (by decide))
  revert hsize
  decide

end CacheMultiMap

end Zumy.Container
