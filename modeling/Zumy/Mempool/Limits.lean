/-
  Zumy.Mempool.Limits — the search for a transaction's ancestors in the pool, with limits on
  what is found (txmempool.cpp, txmempool.h).

  The limits are compared while the search goes on. What it has found is always part of the
  ancestors, so it stops early only where the whole exceeds a limit (`searchLoop_found`). The
  limits on the ancestors count the transaction itself, but are compared only when an
  ancestor is found: a transaction without one may exceed them
  (`lone_transaction_is_within`).
-/
import Mathlib.Algebra.Order.BigOperators.Group.Finset
import Zumy.Mempool.Pool

namespace Zumy.Mempool

open Zumy.Lib

/-! ## The search -/

structure Limits where
  limitAncestorCount : Nat
  limitAncestorSize : Nat
  limitDescendantCount : Nat
  limitDescendantSize : Nat
  deriving DecidableEq

/-- What `errString` says; a limit's value follows it. -/
inductive AncestorError
  /-- "too many unconfirmed parents" -/
  | parents
  /-- "exceeds descendant size limit for tx" -/
  | descendantSize (it : Uint256)
  /-- "too many descendants for tx" -/
  | descendantCount (it : Uint256)
  /-- "exceeds ancestor size limit" -/
  | ancestorSize
  /-- "too many unconfirmed ancestors" -/
  | ancestorCount
  deriving DecidableEq

/-- `setAncestors`, and `errString` where the search returns false. -/
structure AncestorSearch where
  setAncestors : SetEntries
  errString : Option AncestorError
  deriving DecidableEq

def AncestorSearch.returned (r : AncestorSearch) : Bool := r.errString.isNone

namespace CTxMemPool

variable (s : CTxMemPool) (limits : Limits)

/-- The parents that the pool has; `none` is too many of them. -/
def searchParents : List CTxIn → SetEntries → Option SetEntries
  | [], parentHashes => some parentHashes
  | txin :: vin, parentHashes =>
    if s.mapTx.contains txin.prevout.hash then
      let parentHashes := insert txin.prevout.hash parentHashes
      if limits.limitAncestorCount < parentHashes.card + 1 then none else searchParents vin parentHashes
    else searchParents vin parentHashes

/-- The parents of the entry that was taken; `none` is too many ancestors. -/
def stageParents (setAncestors : SetEntries) : List Uint256 → SetEntries → Option SetEntries
  | [], parentHashes => some parentHashes
  | phash :: setMemPoolParents, parentHashes =>
    let parentHashes := if phash ∈ setAncestors then parentHashes else insert phash parentHashes
    if limits.limitAncestorCount < parentHashes.card + setAncestors.card + 1 then none
    else stageParents setAncestors setMemPoolParents parentHashes

def exceeded (entrySize : Int) (stageit : Uint256) (totalSizeWithAncestors : Int) : Option AncestorError :=
  (s.mapTx[stageit]?).bind fun e =>
    if limits.limitDescendantSize < e.nSizeWithDescendants + entrySize then some (.descendantSize stageit)
    else if limits.limitDescendantCount < e.nCountWithDescendants + 1 then some (.descendantCount stageit)
    else if limits.limitAncestorSize < totalSizeWithAncestors then some .ancestorSize
    else none

/-- The loop; `none` where it does not end within the turns it has. -/
def searchLoop (entrySize : Int) : Nat → SetEntries → SetEntries → Int → Option AncestorSearch
  | 0, _, _, _ => none
  | n + 1, parentHashes, setAncestors, totalSizeWithAncestors =>
    match begin? parentHashes with
    | none => some ⟨setAncestors, none⟩
    | some stageit =>
      let setAncestors := insert stageit setAncestors
      let totalSizeWithAncestors := totalSizeWithAncestors + s.txSize stageit
      match s.exceeded limits entrySize stageit totalSizeWithAncestors with
      | some error => some ⟨setAncestors, some error⟩
      | none =>
        match stageParents limits setAncestors ((s.getMemPoolParents stageit).sort (· ≤ ·)) (parentHashes.erase stageit) with
        | none => some ⟨setAncestors, some .ancestorCount⟩
        | some parentHashes => searchLoop entrySize n parentHashes setAncestors totalSizeWithAncestors

/-- `CalculateMemPoolAncestors`, with a turn for each entry of the pool and one more. -/
def searchAncestors (entry : CTxMemPoolEntry) (fSearchForParents : Bool) : Option AncestorSearch :=
  let parentHashes := if fSearchForParents then s.searchParents limits entry.tx.vin ∅ else some (s.getMemPoolParents entry.tx.hash)
  match parentHashes with
  | none => some ⟨∅, some .parents⟩
  | some parentHashes => s.searchLoop limits entry.nTxSize (s.mapTx.size + 1) parentHashes ∅ entry.nTxSize

/-! ## What is meant -/

structure WithinAncestors (entry : CTxMemPoolEntry) : Prop where
  count : (s.ancestors entry.tx).card + 1 ≤ limits.limitAncestorCount
  size : ∑ a ∈ s.ancestors entry.tx, s.txSize a + entry.nTxSize ≤ limits.limitAncestorSize

def WithinDescendants (entry : CTxMemPoolEntry) : Prop :=
  ∀ a ∈ s.ancestors entry.tx, s.descendantCount a + 1 ≤ limits.limitDescendantCount ∧
    s.descendantSize a + entry.nTxSize ≤ limits.limitDescendantSize

variable {s limits} {entry : CTxMemPoolEntry} {P P' A : SetEntries} {l : List Uint256} {a it : Uint256} {total : Int}
    {fSearch : Bool} {n : Nat}

/-! ## The parents of one entry -/

theorem staged_cons (phash : Uint256) :
    (if phash ∈ A then P else insert phash P) ∪ (l.toFinset \ A) = P ∪ ((phash :: l).toFinset \ A) := by
  rw [List.toFinset_cons]
  by_cases hin : phash ∈ A
  · rw [if_pos hin, Finset.insert_sdiff_of_mem _ hin]
  · rw [if_neg hin, Finset.insert_sdiff_of_notMem _ hin, Finset.insert_union, Finset.union_insert]

theorem stageParents_some (h : stageParents limits A l P = some P') :
    P' = P ∪ (l.toFinset \ A) ∧ (l ≠ [] → P'.card + A.card + 1 ≤ limits.limitAncestorCount) := by
  induction l generalizing P with
  | nil =>
    cases h
    simp
  | cons phash l ih =>
    rw [stageParents] at h
    rw [← staged_cons]
    generalize (if phash ∈ A then P else insert phash P) = Q at h ⊢
    split at h
    · cases h
    · rename_i hcount
      obtain ⟨hP', hrest⟩ := ih h
      refine ⟨hP', fun _ => ?_⟩
      by_cases hl : l = []
      · rw [hP', hl, List.toFinset_nil, Finset.empty_sdiff, Finset.union_empty]
        exact Nat.le_of_not_lt hcount
      · exact hrest hl

theorem stageParents_none (h : stageParents limits A l P = none) :
    ∃ Q, Q ⊆ P ∪ (l.toFinset \ A) ∧ limits.limitAncestorCount < Q.card + A.card + 1 := by
  induction l generalizing P with
  | nil => cases h
  | cons phash l ih =>
    rw [stageParents] at h
    rw [← staged_cons]
    generalize (if phash ∈ A then P else insert phash P) = Q at h ⊢
    split at h
    · rename_i hcount
      exact ⟨Q, Finset.subset_union_left, hcount⟩
    · exact ih h

theorem searchParents_some {vin : List CTxIn} (h : s.searchParents limits vin P = some P') :
    P' = P ∪ ((vin.map (·.prevout.hash)).filter s.mapTx.contains).toFinset ∧
      ((P.Nonempty → P.card + 1 ≤ limits.limitAncestorCount) → P'.Nonempty → P'.card + 1 ≤ limits.limitAncestorCount) := by
  induction vin generalizing P with
  | nil =>
    cases h
    simp
  | cons txin vin ih =>
    simp only [searchParents] at h
    split at h
    · rename_i hin
      split at h
      · cases h
      · rename_i hcount
        obtain ⟨rfl, hrest⟩ := ih h
        refine ⟨?_, fun _ => hrest fun _ => Nat.le_of_not_lt hcount⟩
        rw [List.map_cons, List.filter_cons_of_pos hin, List.toFinset_cons, Finset.insert_union, Finset.union_insert]
    · rename_i hin
      obtain ⟨rfl, hrest⟩ := ih h
      exact ⟨by rw [List.map_cons, List.filter_cons_of_neg hin], hrest⟩

theorem searchParents_none {vin : List CTxIn} (h : s.searchParents limits vin P = none) :
    ∃ Q, Q ⊆ P ∪ ((vin.map (·.prevout.hash)).filter s.mapTx.contains).toFinset ∧ limits.limitAncestorCount < Q.card + 1 := by
  induction vin generalizing P with
  | nil => cases h
  | cons txin vin ih =>
    simp only [searchParents] at h
    split at h
    · rename_i hin
      rw [List.map_cons, List.filter_cons_of_pos hin, List.toFinset_cons, Finset.union_insert, ← Finset.insert_union]
      split at h
      · rename_i hcount
        exact ⟨_, Finset.subset_union_left, hcount⟩
      · exact ih h
    · rename_i hin
      rw [List.map_cons, List.filter_cons_of_neg hin]
      exact ih h

theorem searchParents_lone {vin : List CTxIn} (h : ∀ txin ∈ vin, s.mapTx.contains txin.prevout.hash = false) :
    s.searchParents limits vin P = some P := by
  induction vin with
  | nil => rfl
  | cons txin vin ih =>
    rw [searchParents, h txin List.mem_cons_self, if_neg Bool.false_ne_true]
    exact ih fun t ht => h t (List.mem_cons_of_mem txin ht)

/-! ## The loop -/

theorem exceeded_none_iff (hs : s.PoolInv) (hit : it ∈ s.ids) :
    s.exceeded limits entry.nTxSize it total = none ↔
      (s.descendantCount it + 1 ≤ limits.limitDescendantCount ∧
        s.descendantSize it + entry.nTxSize ≤ limits.limitDescendantSize) ∧
        total ≤ limits.limitAncestorSize := by
  obtain ⟨e, he⟩ := mem_ids.1 hit
  obtain ⟨hcount, hsize, -⟩ := hs.counted it e he
  simp only [exceeded, he, Option.bind_some, hcount, hsize]
  split_ifs <;> simp <;> omega

variable (s limits entry fSearch) in
structure Expanding (P A : SetEntries) (total : Int) : Prop where
  found : P ∪ A ⊆ s.ancestors entry.tx
  fresh : Disjoint P A
  start : s.parentsOf entry.tx ⊆ P ∪ A
  frontier : ∀ c ∈ A, ∀ p, s.Spends p c → p ∈ P ∪ A
  sum : total = ∑ a ∈ A, s.txSize a + entry.nTxSize
  checked : ∀ a ∈ A, s.descendantCount a + 1 ≤ limits.limitDescendantCount ∧
    s.descendantSize a + entry.nTxSize ≤ limits.limitDescendantSize
  size : A.Nonempty → total ≤ limits.limitAncestorSize
  count : fSearch = true → (P ∪ A).Nonempty → P.card + A.card + 1 ≤ limits.limitAncestorCount

theorem txSize_nonneg (hs : s.PoolInv) (it : Uint256) : 0 ≤ s.txSize it := by
  unfold txSize
  cases h : s.mapTx[it]? with
  | none => rfl
  | some e => exact hs.sized it e h

theorem not_within_of_count {Q : SetEntries} (hsub : Q ⊆ s.ancestors entry.tx) (h : limits.limitAncestorCount < Q.card + 1) :
    ¬ s.WithinAncestors limits entry := by
  intro hw
  have := Finset.card_le_card hsub
  have := hw.count
  omega

theorem not_within_of_size (hs : s.PoolInv) (hsub : A ⊆ s.ancestors entry.tx)
    (h : limits.limitAncestorSize < ∑ a ∈ A, s.txSize a + entry.nTxSize) : ¬ s.WithinAncestors limits entry := by
  intro hw
  have hle : ∑ a ∈ A, s.txSize a ≤ ∑ a ∈ s.ancestors entry.tx, s.txSize a :=
    Finset.sum_le_sum_of_subset_of_nonneg hsub fun a _ _ => txSize_nonneg hs a
  have := hw.size
  omega

/-- The loop ends. It returns true with all ancestors, and then what it compared is within the
    limits; it returns false only where something exceeds them. -/
structure Found (s : CTxMemPool) (limits : Limits) (entry : CTxMemPoolEntry) (fSearch : Bool) (r : AncestorSearch) : Prop where
  all : r.returned = true → r.setAncestors = s.ancestors entry.tx
  descendants : r.returned = true → s.WithinDescendants limits entry
  size : r.returned = true → (s.ancestors entry.tx).Nonempty →
    ∑ a ∈ s.ancestors entry.tx, s.txSize a + entry.nTxSize ≤ limits.limitAncestorSize
  count : r.returned = true → fSearch = true → (s.ancestors entry.tx).Nonempty →
    (s.ancestors entry.tx).card + 1 ≤ limits.limitAncestorCount
  exceeds : r.returned = false → ¬ (s.WithinAncestors limits entry ∧ s.WithinDescendants limits entry)

theorem Expanding.turn (hs : s.PoolInv) (h : Expanding s limits entry fSearch P A total) (hit : it ∈ P)
    (hexceeded : s.exceeded limits entry.nTxSize it (total + s.txSize it) = none)
    (hstage : stageParents limits (insert it A) ((s.getMemPoolParents it).sort (· ≤ ·)) (P.erase it) = some P') :
    Expanding s limits entry fSearch P' (insert it A) (total + s.txSize it) := by
  have hnew : it ∉ A := Finset.disjoint_left.1 h.fresh hit
  have hanc : it ∈ s.ancestors entry.tx := h.found (Finset.mem_union_left _ hit)
  obtain ⟨hdesc, hsize⟩ := (exceeded_none_iff hs (ancestors_subset hanc)).1 hexceeded
  obtain ⟨rfl, hcount⟩ := stageParents_some hstage
  have hlist : ((s.getMemPoolParents it).sort (· ≤ ·)).toFinset = s.getMemPoolParents it := Finset.sort_toFinset _ _
  rw [hlist] at hcount ⊢
  have hmem (x : Uint256) : x ∈ P.erase it ∪ (s.getMemPoolParents it \ insert it A) ∪ insert it A ↔
    x ∈ P ∪ A ∨ s.Spends x it := by
    rw [← hs.parents]
    simp only [Finset.mem_union, Finset.mem_erase, Finset.mem_sdiff, Finset.mem_insert]
    by_cases hx : x = it
    · subst hx
      simp [hit]
    · simp only [hx, false_or, not_false_iff, true_and, ne_eq]
      tauto
  refine ⟨fun x hx => ?_, ?_, fun x hx => (hmem x).2 (.inl (h.start hx)), fun c hc p hp => ?_, ?_, fun a ha => ?_,
    fun _ => hsize, ?_⟩
  · rcases (hmem x).1 hx with hx | hx
    · exact h.found hx
    · exact mem_ancestors_of_spends hanc hx
  · rw [Finset.disjoint_left]
    intro x hx hxA
    rcases Finset.mem_union.1 hx with hx | hx
    · rcases Finset.mem_insert.1 hxA with rfl | hxA
      · exact Finset.notMem_erase x P hx
      · exact Finset.disjoint_left.1 h.fresh (Finset.mem_of_mem_erase hx) hxA
    · exact (Finset.mem_sdiff.1 hx).2 hxA
  · refine (hmem p).2 ?_
    rcases Finset.mem_insert.1 hc with rfl | hc
    · exact .inr hp
    · exact .inl (h.frontier c hc p hp)
  · rw [Finset.sum_insert hnew, h.sum]
    omega
  · rcases Finset.mem_insert.1 ha with rfl | ha
    · exact hdesc
    · exact h.checked a ha
  · intro hsearch _
    by_cases hnil : (s.getMemPoolParents it).sort (· ≤ ·) = []
    · -- no parent was looked at: the turn moved `it` from one set to the other
      have hempty : s.getMemPoolParents it = ∅ := by rw [← hlist, hnil, List.toFinset_nil]
      have hold := h.count hsearch ⟨it, Finset.mem_union_left _ hit⟩
      have hpos : 0 < P.card := Finset.card_pos.2 ⟨it, hit⟩
      rw [hempty, Finset.empty_sdiff, Finset.union_empty, Finset.card_erase_of_mem hit, Finset.card_insert_of_notMem hnew]
      omega
    · exact hcount hnil

theorem searchLoop_found (hs : s.PoolInv) (h : Expanding s limits entry fSearch P A total)
    (hn : (s.ancestors entry.tx \ A).card < n) :
    ∃ r, s.searchLoop limits entry.nTxSize n P A total = some r ∧ Found s limits entry fSearch r := by
  induction n generalizing P A total with
  | zero => omega
  | succ n ih =>
    unfold searchLoop
    cases hbegin : begin? P with
    | none =>
      have hempty := eq_empty_of_begin? hbegin
      subst hempty
      have hall : A = s.ancestors entry.tx := by
        refine Finset.Subset.antisymm (by simpa using h.found) ?_
        exact ancestors_subset_of_closed (by simpa using h.start) (by simpa using h.frontier)
      subst hall
      refine ⟨_, rfl, fun _ => rfl, fun _ => h.checked, fun _ hne => ?_, fun _ hsearch hne => ?_, fun hfalse => ?_⟩
      · rw [← h.sum]
        exact h.size hne
      · simpa using h.count hsearch (by simpa using hne)
      · simp [AncestorSearch.returned] at hfalse
    | some it =>
      have hit := mem_of_begin? hbegin
      have hnew : it ∉ A := Finset.disjoint_left.1 h.fresh hit
      have hanc : it ∈ s.ancestors entry.tx := h.found (Finset.mem_union_left _ hit)
      have hA : insert it A ⊆ s.ancestors entry.tx := Finset.insert_subset hanc (Finset.subset_union_right.trans h.found)
      have hsum : total + s.txSize it = ∑ a ∈ insert it A, s.txSize a + entry.nTxSize := by
        rw [Finset.sum_insert hnew, h.sum]
        omega
      dsimp only
      cases hexceeded : s.exceeded limits entry.nTxSize it (total + s.txSize it) with
      | some error =>
        refine ⟨_, rfl, nofun, nofun, nofun, nofun, fun _ hw => ?_⟩
        have hnone : s.exceeded limits entry.nTxSize it (total + s.txSize it) = none := by
          refine (exceeded_none_iff hs (ancestors_subset hanc)).2 ⟨hw.2 it hanc, not_lt.1 fun hlt => ?_⟩
          exact not_within_of_size hs hA (hsum ▸ hlt) hw.1
        rw [hexceeded] at hnone
        cases hnone
      | none =>
        dsimp only
        cases hstage : stageParents limits (insert it A) ((s.getMemPoolParents it).sort (· ≤ ·)) (P.erase it) with
        | none =>
          refine ⟨_, rfl, nofun, nofun, nofun, nofun, fun _ hw => ?_⟩
          obtain ⟨Q, hQ, hlt⟩ := stageParents_none hstage
          rw [Finset.sort_toFinset] at hQ
          have hdisj : Disjoint Q (insert it A) := by
            refine Finset.disjoint_of_subset_left hQ (Finset.disjoint_union_left.2 ⟨?_, Finset.sdiff_disjoint⟩)
            rw [Finset.disjoint_insert_right]
            exact ⟨Finset.notMem_erase it P, Finset.disjoint_of_subset_left (Finset.erase_subset it P) h.fresh⟩
          have hsub : Q ∪ insert it A ⊆ s.ancestors entry.tx := by
            refine Finset.union_subset (hQ.trans (Finset.union_subset ?_ fun p hp => ?_)) hA
            · exact (Finset.erase_subset it P).trans (Finset.subset_union_left.trans h.found)
            · exact mem_ancestors_of_spends hanc ((hs.parents p it).1 (Finset.mem_sdiff.1 hp).1)
          exact not_within_of_count hsub (by rwa [Finset.card_union_of_disjoint hdisj]) hw.1
        | some P' =>
          refine ih (h.turn hs hit hexceeded hstage) ?_
          have hlt : (s.ancestors entry.tx \ insert it A).card < (s.ancestors entry.tx \ A).card := by
            refine Finset.card_lt_card ⟨Finset.sdiff_subset_sdiff (Finset.Subset.refl _) (Finset.subset_insert it A),
              fun hsub => ?_⟩
            have hmem := hsub (Finset.mem_sdiff.2 ⟨hanc, hnew⟩)
            exact (Finset.mem_sdiff.1 hmem).2 (Finset.mem_insert_self it A)
          omega

theorem expanding_start (hcount : fSearch = true → (s.parentsOf entry.tx).Nonempty →
    (s.parentsOf entry.tx).card + 1 ≤ limits.limitAncestorCount) :
    Expanding s limits entry fSearch (s.parentsOf entry.tx) ∅ entry.nTxSize where
  found := by simpa using parentsOf_subset_ancestors
  fresh := Finset.disjoint_empty_right _
  start := by simp
  frontier := by simp
  sum := by simp
  checked := by simp
  size := by simp
  count := by simpa using hcount

theorem turns_enough : (s.ancestors entry.tx \ ∅).card < s.mapTx.size + 1 := by
  rw [Finset.sdiff_empty, ← card_ids]
  exact Nat.lt_succ_of_le (Finset.card_le_card ancestors_subset)

variable (limits entry) in
theorem searchAncestors_found (hs : s.PoolInv) :
    ∃ r, s.searchAncestors limits entry true = some r ∧ Found s limits entry true r := by
  simp only [searchAncestors, if_true]
  cases hparents : s.searchParents limits entry.tx.vin ∅ with
  | none =>
    obtain ⟨Q, hQ, hlt⟩ := searchParents_none hparents
    rw [Finset.empty_union] at hQ
    exact ⟨_, rfl, nofun, nofun, nofun, nofun, fun _ hw => not_within_of_count (hQ.trans parentsOf_subset_ancestors) hlt hw.1⟩
  | some P =>
    obtain ⟨hP, hcount⟩ := searchParents_some hparents
    rw [Finset.empty_union] at hP
    change P = s.parentsOf entry.tx at hP
    subst hP
    exact searchLoop_found hs (expanding_start fun _ => hcount (by simp)) turns_enough

theorem getMemPoolParents_eq (hs : s.PoolInv) (h : s.mapTx[it]? = some entry) :
    s.getMemPoolParents it = s.parentsOf entry.tx := by
  ext p
  rw [hs.parents]
  refine ⟨fun ⟨e, he, hp⟩ => ?_, fun hp => ⟨entry, h, hp⟩⟩
  rw [h] at he
  cases he
  exact hp

variable (limits) in
theorem searchAncestors_found_linked (hs : s.PoolInv) (h : s.mapTx[entry.tx.hash]? = some entry) :
    ∃ r, s.searchAncestors limits entry false = some r ∧ Found s limits entry false r := by
  simp only [searchAncestors, Bool.false_eq_true, if_false, getMemPoolParents_eq hs h]
  exact searchLoop_found hs (expanding_start nofun) turns_enough

/-- It ends, returns true exactly within the limits, and then with all ancestors. -/
def Calculated (s : CTxMemPool) (limits : Limits) (entry : CTxMemPoolEntry) : Prop :=
  ∃ r, s.searchAncestors limits entry true = some r ∧
    (r.returned = true ↔ s.WithinAncestors limits entry ∧ s.WithinDescendants limits entry) ∧
    (r.returned = true → r.setAncestors = s.ancestors entry.tx)

/-- The transaction spends an output of the pool, or is within the limits alone. -/
def Limited (s : CTxMemPool) (limits : Limits) (entry : CTxMemPoolEntry) : Prop :=
  (s.parentsOf entry.tx).Nonempty ∨ 1 ≤ limits.limitAncestorCount ∧ entry.nTxSize ≤ limits.limitAncestorSize

theorem ancestors_eq_empty (h : ¬ (s.parentsOf entry.tx).Nonempty) : s.ancestors entry.tx = ∅ := by
  rw [Finset.eq_empty_iff_forall_notMem]
  intro a ha
  obtain ⟨-, p, hp, -⟩ := mem_ancestors.1 ha
  exact h ⟨p, hp⟩

theorem within_iff_of_lone (h : ¬ (s.parentsOf entry.tx).Nonempty) :
    s.WithinAncestors limits entry ↔ 1 ≤ limits.limitAncestorCount ∧ entry.nTxSize ≤ limits.limitAncestorSize := by
  have hempty := ancestors_eq_empty h
  refine ⟨fun hw => ⟨by simpa [hempty] using hw.count, by simpa [hempty] using hw.size⟩, fun hw => ⟨?_, ?_⟩⟩
  · simpa [hempty] using hw.1
  · simpa [hempty] using hw.2

variable (limits) in
theorem searchAncestors_lone (h : ¬ (s.parentsOf entry.tx).Nonempty) : s.searchAncestors limits entry true = some ⟨∅, none⟩ := by
  have hvin : ∀ txin ∈ entry.tx.vin, s.mapTx.contains txin.prevout.hash = false := by
    intro txin htxin
    by_contra hin
    refine h ⟨txin.prevout.hash, mem_parentsOf.2 ⟨?_, txin, htxin, rfl⟩⟩
    rw [ids, List.mem_toFinset, Std.TreeMap.mem_keys, ← Std.TreeMap.contains_iff_mem]
    simpa using hin
  have hbegin : begin? (∅ : SetEntries) = none := by simp [begin?]
  simp only [searchAncestors, if_true, searchParents_lone hvin, searchLoop, hbegin]

/-- `CalculateMemPoolAncestors` does what is meant exactly for a transaction that has an
    ancestor in the pool, or is within the limits alone. -/
theorem calculated_iff_limited (s : CTxMemPool) (hs : s.PoolInv) (limits : Limits) (entry : CTxMemPoolEntry) :
    Calculated s limits entry ↔ Limited s limits entry := by
  obtain ⟨r, hr, hfound⟩ := searchAncestors_found limits entry hs
  by_cases hparents : (s.parentsOf entry.tx).Nonempty
  · refine ⟨fun _ => .inl hparents, fun _ => ⟨r, hr, ⟨fun htrue => ?_, fun hw => ?_⟩, hfound.all⟩⟩
    · have hne := hparents.mono parentsOf_subset_ancestors
      exact ⟨⟨hfound.count htrue rfl hne, hfound.size htrue hne⟩, hfound.descendants htrue⟩
    · by_contra hfalse
      exact hfound.exceeds (by simpa using hfalse) hw
  · have hreturned := searchAncestors_lone limits hparents
    have hdesc : s.WithinDescendants limits entry := by simp [WithinDescendants, ancestors_eq_empty hparents]
    constructor
    · rintro ⟨r, hr, hiff, -⟩
      rw [hreturned] at hr
      cases hr
      exact .inr ((within_iff_of_lone hparents).1 (hiff.1 rfl).1)
    · intro hlimited
      have hw := (within_iff_of_lone hparents).2 (hlimited.resolve_left hparents)
      exact ⟨_, hreturned, ⟨fun _ => ⟨hw, hdesc⟩, fun _ => rfl⟩, fun _ => (ancestors_eq_empty hparents).symm⟩

/-! ## Samples -/

namespace LimitSample

/-- It spends the output of `parent`. -/
def child : CTxMemPoolEntry := .new ⟨⟨[⟨⟨1, 0⟩, [], 0⟩], [⟨4, []⟩], 2⟩, 1⟩ 10 0 200

def smallLimits : Limits := ⟨25, 50000, 25, 101000⟩

end LimitSample

open LimitSample PoolSample

/-- The child of a large transaction exceeds the limit with it. -/
theorem child_is_rejected : Calculated parentPool smallLimits child ↔ Limited parentPool smallLimits child :=
  calculated_iff_limited parentPool poolInv_sample smallLimits child

/-- The limit is not compared with the size of a transaction that spends no output of the pool. -/
theorem lone_transaction_is_within : ¬ ∀ (s : CTxMemPool), s.PoolInv → ∀ (limits : Limits) (entry : CTxMemPoolEntry),
    Calculated s limits entry := by
  intro h
  obtain ⟨r, hr, hiff, -⟩ := h .empty poolInv_empty smallLimits parent
  have hreturned : CTxMemPool.empty.searchAncestors smallLimits parent true = some ⟨∅, none⟩ := by
    simp [searchAncestors, searchParents, searchLoop, CTxMemPool.empty, parent, CTxMemPoolEntry.new, begin?]
  rw [hreturned] at hr
  cases hr
  have hsize := (hiff.1 rfl).1.size
  have hempty : CTxMemPool.empty.ancestors parent.tx = ∅ := by
    rw [Finset.eq_empty_iff_forall_notMem]
    intro a ha
    have hmem := mem_ids.1 (ancestors_subset ha)
    simp [CTxMemPool.empty] at hmem
  rw [hempty, Finset.sum_empty] at hsize
  revert hsize
  decide

end CTxMemPool

end Zumy.Mempool
