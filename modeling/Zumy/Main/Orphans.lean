/-
  Zumy.Main.Orphans — main.cpp: transactions whose inputs are not known yet, and the index
  of them by the outpoints they spend.

  An iterator into `mapOrphanTransactions` is the address of its node. `LimitOrphanTxSize`
  gets its random hashes as a sequence, and its loop a bound on its turns; the loop is
  shown to end within as many turns as there are orphans.

  (1) `eraseOrphanTx_indexed`, `addOrphanTx_indexed`: the index stays the inverse of the pool.
  (2) `evict_isSome`: every turn of the eviction loop erases an orphan.
  (3) `orphans_indexed`: both over any sequence of operations.
-/
import Zumy.Primitives
import Zumy.Lib.OrdMap
import Zumy.Lib.Run

namespace Zumy.Main

open Zumy.Lib

abbrev NodeId := Int

namespace Orphans

def maxStandardTxSize : Nat := 400000

def orphanTxExpireTime : Int := 20 * 60

def orphanTxExpireInterval : Int := 5 * 60

structure COrphanTx where
  tx : CTransaction
  fromPeer : NodeId
  nTimeExpire : Int

/-- A node of `mapOrphanTransactions`; its number stands for its address. -/
structure MapNode where
  addr : Nat
  orphan : COrphanTx

/-- A set of iterators, ordered by `IteratorComparator`. -/
abbrev IteratorSet := Std.TreeSet Nat compare

structure OrphanPool where
  mapOrphanTransactions : Map Uint256 MapNode
  mapOrphanTransactionsByPrev : Map COutPoint IteratorSet
  /-- The static variable of `LimitOrphanTxSize`. -/
  nNextSweep : Int
  nextAddr : Nat

def OrphanPool.empty : OrphanPool := ⟨∅, ∅, 0, 0⟩

/-- `mapOrphanTransactionsByPrev[prevout].insert(it)`. -/
def linkPrev (m : Map COutPoint IteratorSet) (it : Nat) (txin : CTxIn) : Map COutPoint IteratorSet :=
  m.insert txin.prevout ((m.getD txin.prevout ∅).insert it)

/-- `nSize` is the transaction's serialized size. -/
def addOrphanTx (nSize : CTransaction → Nat) (s : OrphanPool) (tx : CTransaction) (peer : NodeId) (nNow : Int) :
    Bool × OrphanPool :=
  if s.mapOrphanTransactions.contains tx.hash then (false, s)
  else if nSize tx ≥ maxStandardTxSize then (false, s)
  else (true,
    { s with
      mapOrphanTransactions := s.mapOrphanTransactions.insert tx.hash ⟨s.nextAddr, tx, peer, nNow + orphanTxExpireTime⟩
      mapOrphanTransactionsByPrev := tx.vin.foldl (linkPrev · s.nextAddr) s.mapOrphanTransactionsByPrev
      nextAddr := s.nextAddr + 1 })

def unlinkPrev (m : Map COutPoint IteratorSet) (it : Nat) (txin : CTxIn) : Map COutPoint IteratorSet :=
  match m[txin.prevout]? with
  | none => m
  | some set => if (set.erase it).isEmpty then m.erase txin.prevout else m.insert txin.prevout (set.erase it)

def eraseOrphanTx (s : OrphanPool) (hash : Uint256) : Nat × OrphanPool :=
  match s.mapOrphanTransactions[hash]? with
  | none => (0, s)
  | some it => (1,
    { s with
      mapOrphanTransactionsByPrev := it.orphan.tx.vin.foldl (unlinkPrev · it.addr) s.mapOrphanTransactionsByPrev
      mapOrphanTransactions := s.mapOrphanTransactions.erase hash })

/-- The iterator is moved on before its entry is erased, so the loop is one over the map as it was. -/
def eraseOrphansFor (s : OrphanPool) (peer : NodeId) : OrphanPool :=
  s.mapOrphanTransactions.toList.foldl
    (fun s it => if it.2.orphan.fromPeer = peer then (eraseOrphanTx s it.2.orphan.tx.hash).2 else s) s

def sweepExpired (s : OrphanPool) (nNow : Int) : OrphanPool × Int :=
  s.mapOrphanTransactions.toList.foldl
    (fun acc it =>
      if it.2.orphan.nTimeExpire ≤ nNow then ((eraseOrphanTx acc.1 it.2.orphan.tx.hash).2, acc.2)
      else (acc.1, min it.2.orphan.nTimeExpire acc.2))
    (s, nNow + orphanTxExpireTime - orphanTxExpireInterval)

def sweep (s : OrphanPool) (nNow : Int) : OrphanPool :=
  if s.nNextSweep ≤ nNow then
    { (sweepExpired s nNow).1 with nNextSweep := (sweepExpired s nNow).2 + orphanTxExpireInterval }
  else s

/-- `lower_bound`, or `begin` when it is at the end. -/
def randomOrphan (s : OrphanPool) (randomhash : Uint256) : Option Uint256 :=
  (s.mapOrphanTransactions.keys.find? (randomhash ≤ ·)).or s.mapOrphanTransactions.keys.head?

/-- The eviction loop; `none` when it does not end within its bound. Dereferencing `end` is
    undefined, and cannot be while there are more orphans than allowed. -/
def evict (nMaxOrphans : Nat) (rand : Nat → Uint256) : Nat → OrphanPool × Nat → Option (OrphanPool × Nat)
  | 0, (s, nEvicted) => if s.mapOrphanTransactions.size > nMaxOrphans then none else some (s, nEvicted)
  | bound + 1, (s, nEvicted) =>
    if s.mapOrphanTransactions.size > nMaxOrphans then
      (randomOrphan s (rand nEvicted)).bind fun it => evict nMaxOrphans rand bound ((eraseOrphanTx s it).2, nEvicted + 1)
    else some (s, nEvicted)

/-- `rand` is what `GetRandHash` answers, one hash a turn. The loop gets as many turns as there are orphans. -/
def limitOrphanTxSize (s : OrphanPool) (nMaxOrphans : Nat) (nNow : Int) (rand : Nat → Uint256) : Option (OrphanPool × Nat) :=
  evict nMaxOrphans rand s.mapOrphanTransactions.size (sweep s nNow, 0)

/-! ## The index by outpoint -/

def Linked (m : Map COutPoint IteratorSet) (prevout : COutPoint) (it : Nat) : Prop := ∃ set, m[prevout]? = some set ∧ it ∈ set

def NoEmptySet (m : Map COutPoint IteratorSet) : Prop :=
  ∀ (prevout : COutPoint) (set : IteratorSet), m[prevout]? = some set → ∃ it, it ∈ set

def Spends (s : OrphanPool) (prevout : COutPoint) (it : MapNode) : Prop :=
  s.mapOrphanTransactions[it.orphan.tx.hash]? = some it ∧ ∃ txin ∈ it.orphan.tx.vin, txin.prevout = prevout

/-- `mapOrphanTransactionsByPrev` is the inverse index of `mapOrphanTransactions`. -/
structure Indexed (s : OrphanPool) : Prop where
  hash_eq : ∀ (hash : Uint256) (it : MapNode), s.mapOrphanTransactions[hash]? = some it → it.orphan.tx.hash = hash
  fresh : ∀ (hash : Uint256) (it : MapNode), s.mapOrphanTransactions[hash]? = some it → it.addr < s.nextAddr
  distinct : ∀ (hash hash' : Uint256) (it it' : MapNode), s.mapOrphanTransactions[hash]? = some it →
    s.mapOrphanTransactions[hash']? = some it' → it.addr = it'.addr → hash = hash'
  linked_iff : ∀ prevout addr, Linked s.mapOrphanTransactionsByPrev prevout addr ↔ ∃ it, it.addr = addr ∧ Spends s prevout it
  no_empty : NoEmptySet s.mapOrphanTransactionsByPrev

variable {m : Map COutPoint IteratorSet} {txin : CTxIn} {vin : List CTxIn} {it addr : Nat} {prevout : COutPoint}
variable {s : OrphanPool} {hash : Uint256}

theorem linked_linkPrev : Linked (linkPrev m it txin) prevout addr ↔
    Linked m prevout addr ∨ (addr = it ∧ txin.prevout = prevout) := by
  unfold Linked linkPrev
  rw [lookup_insert]
  by_cases hp : prevout = txin.prevout
  · subst hp
    rw [if_pos rfl, Std.TreeMap.getD_eq_getD_getElem?]
    cases m[txin.prevout]? with
    | none => simp [eq_comm (a := it)]
    | some set => simp [eq_comm (a := it), or_comm]
  · simp [hp, Ne.symm hp]

theorem noEmptySet_linkPrev (h : NoEmptySet m) : NoEmptySet (linkPrev m it txin) := by
  intro p set hset
  rw [linkPrev, lookup_insert] at hset
  split at hset
  · cases hset
    exact ⟨it, mem_set_insert.2 (.inl rfl)⟩
  · exact h p set hset

theorem linked_foldl_linkPrev :
    Linked (vin.foldl (linkPrev · it) m) prevout addr ↔
      Linked m prevout addr ∨ (addr = it ∧ ∃ txin ∈ vin, txin.prevout = prevout) := by
  induction vin generalizing m with
  | nil => simp
  | cons txin vin ih =>
    rw [List.foldl_cons, ih, linked_linkPrev]
    simp only [List.mem_cons, exists_eq_or_imp]
    tauto

theorem linked_unlinkPrev :
    Linked (unlinkPrev m it txin) prevout addr ↔ Linked m prevout addr ∧ ¬ (addr = it ∧ txin.prevout = prevout) := by
  unfold Linked unlinkPrev
  by_cases hp : prevout = txin.prevout
  · subst hp
    cases hm : m[txin.prevout]? with
    | none => simp [hm]
    | some set =>
      simp only [Option.some.injEq, exists_eq_left', and_true]
      split
      · next hempty =>
        have hnone := Std.TreeSet.isEmpty_iff_forall_not_mem.1 hempty addr
        rw [mem_set_erase, not_and'] at hnone
        simp only [lookup_erase, if_true]
        constructor
        · intro h
          obtain ⟨_, h, -⟩ := h
          cases h
        · intro h
          exact absurd h.2 (hnone h.1)
      · simp only [lookup_insert, if_true, Option.some.injEq, exists_eq_left']
        rw [mem_set_erase, and_comm]
  · have hp' : ¬ txin.prevout = prevout := Ne.symm hp
    cases hm : m[txin.prevout]? with
    | none => simp [hp']
    | some set =>
      simp only
      split <;> simp [lookup_erase, lookup_insert, hp, hp']

theorem noEmptySet_unlinkPrev (h : NoEmptySet m) : NoEmptySet (unlinkPrev m it txin) := by
  unfold unlinkPrev
  split
  · exact h
  · split
    · intro p set hset
      exact h p set (of_lookup_erase hset)
    · next hne =>
      intro p set hset
      rw [lookup_insert] at hset
      split at hset
      · cases hset
        exact Std.TreeSet.isEmpty_eq_false_iff_exists_mem.1 (Bool.eq_false_iff.2 hne)
      · exact h p set hset

theorem linked_foldl_unlinkPrev :
    Linked (vin.foldl (unlinkPrev · it) m) prevout addr ↔ Linked m prevout addr ∧
      ¬ (addr = it ∧ ∃ txin ∈ vin, txin.prevout = prevout) := by
  induction vin generalizing m with
  | nil => simp
  | cons txin vin ih =>
    rw [List.foldl_cons, ih, linked_unlinkPrev, and_assoc, ← not_or, ← and_or_left]
    simp only [List.mem_cons, exists_eq_or_imp]

theorem noEmptySet_foldl {f : Map COutPoint IteratorSet → CTxIn → Map COutPoint IteratorSet}
    (hf : ∀ m txin, NoEmptySet m → NoEmptySet (f m txin)) (h : NoEmptySet m) : NoEmptySet (vin.foldl f m) := by
  induction vin generalizing m with
  | nil => exact h
  | cons txin vin ih => exact ih (hf m txin h)

/-! ## The operations -/

theorem indexed_empty : Indexed .empty where
  hash_eq hash it h := by simp [OrphanPool.empty] at h
  fresh hash it h := by simp [OrphanPool.empty] at h
  distinct hash hash' it it' h := by simp [OrphanPool.empty] at h
  linked_iff prevout addr := by simp [OrphanPool.empty, Linked, Spends]
  no_empty prevout set h := by simp [OrphanPool.empty] at h

theorem addOrphanTx_indexed (nSize : CTransaction → Nat) (hs : Indexed s) (tx : CTransaction) (peer : NodeId) (nNow : Int) :
    Indexed (addOrphanTx nSize s tx peer nNow).2 := by
  unfold addOrphanTx
  split
  · exact hs
  · next hnew =>
    rw [Bool.not_eq_true, contains_eq_false_iff] at hnew
    split
    · exact hs
    · constructor
      · intro hash it h
        rw [lookup_insert] at h
        split at h
        · next heq =>
          cases h
          exact heq.symm
        · exact hs.hash_eq hash it h
      · intro hash it h
        rw [lookup_insert] at h
        split at h
        · cases h
          exact Nat.lt_succ_self _
        · exact Nat.lt_succ_of_lt (hs.fresh hash it h)
      · intro hash hash' it it' h h' haddr
        rw [lookup_insert] at h h'
        split at h <;> split at h'
        · next heq heq' => exact heq.trans heq'.symm
        · cases h
          exact absurd (hs.fresh hash' it' h') (by simp [← haddr])
        · cases h'
          exact absurd (hs.fresh hash it h) (by simp [haddr])
        · exact hs.distinct hash hash' it it' h h' haddr
      · intro prevout addr
        simp only [linked_foldl_linkPrev, hs.linked_iff, Spends, lookup_insert]
        constructor
        · intro h
          rcases h with ⟨it, haddr, hit, hspends⟩ | ⟨rfl, hspends⟩
          · refine ⟨it, haddr, ?_, hspends⟩
            rw [if_neg]
            · exact hit
            · intro heq
              rw [heq, hnew] at hit
              cases hit
          · exact ⟨⟨s.nextAddr, tx, peer, nNow + orphanTxExpireTime⟩, rfl, by simp, hspends⟩
        · intro h
          obtain ⟨it, haddr, hit, hspends⟩ := h
          split at hit
          · cases hit
            exact .inr ⟨haddr.symm, hspends⟩
          · exact .inl ⟨it, haddr, hit, hspends⟩
      · exact noEmptySet_foldl (fun m txin => noEmptySet_linkPrev) hs.no_empty

theorem eraseOrphanTx_indexed (hs : Indexed s) (hash : Uint256) : Indexed (eraseOrphanTx s hash).2 := by
  unfold eraseOrphanTx
  split
  · exact hs
  · next it hit =>
    have hsub {h : Uint256} {o : MapNode} (ho : (s.mapOrphanTransactions.erase hash)[h]? = some o) :
        h ≠ hash ∧ s.mapOrphanTransactions[h]? = some o := by
      rw [lookup_erase] at ho
      split at ho
      · cases ho
      · next hne => exact ⟨hne, ho⟩
    constructor
    · exact fun h o ho => hs.hash_eq h o (hsub ho).2
    · exact fun h o ho => hs.fresh h o (hsub ho).2
    · exact fun h h' o o' ho ho' => hs.distinct h h' o o' (hsub ho).2 (hsub ho').2
    · intro prevout addr
      simp only [linked_foldl_unlinkPrev, hs.linked_iff, Spends]
      constructor
      · intro h
        obtain ⟨⟨o, haddr, ho, hspends⟩, hnot⟩ := h
        refine ⟨o, haddr, ?_, hspends⟩
        rw [lookup_erase, if_neg]
        · exact ho
        · -- the erased node has left every outpoint it spends
          intro heq
          rw [heq, hit] at ho
          cases ho
          exact hnot ⟨haddr.symm, hspends⟩
      · intro h
        obtain ⟨o, haddr, ho, hspends⟩ := h
        obtain ⟨hne, ho⟩ := hsub ho
        refine ⟨⟨o, haddr, ho, hspends⟩, ?_⟩
        intro hboth
        exact hne (hs.distinct _ _ o it ho hit (haddr.trans hboth.1))
    · exact noEmptySet_foldl (fun m txin => noEmptySet_unlinkPrev) hs.no_empty

theorem size_eraseOrphanTx_le (s : OrphanPool) (hash : Uint256) :
    (eraseOrphanTx s hash).2.mapOrphanTransactions.size ≤ s.mapOrphanTransactions.size := by
  unfold eraseOrphanTx
  split
  · exact Nat.le_refl _
  · exact Std.TreeMap.size_erase_le

theorem size_eraseOrphanTx_lt (h : hash ∈ s.mapOrphanTransactions) :
    (eraseOrphanTx s hash).2.mapOrphanTransactions.size < s.mapOrphanTransactions.size := by
  obtain ⟨it, hit⟩ := contains_iff.1 (Std.TreeMap.contains_iff_mem.2 h)
  have hpos : s.mapOrphanTransactions.size ≠ 0 := by
    intro hzero
    have hempty := Std.TreeMap.isEmpty_eq_size_eq_zero (t := s.mapOrphanTransactions)
    rw [hzero] at hempty
    exact Std.TreeMap.isEmpty_iff_forall_not_mem.1 hempty hash h
  rw [eraseOrphanTx, hit]
  simp only [Std.TreeMap.size_erase, Std.TreeMap.contains_iff_mem.2 h, if_true]
  omega

theorem randomOrphan_isSome (hpos : 0 < s.mapOrphanTransactions.size) (randomhash : Uint256) :
    ∃ hash ∈ s.mapOrphanTransactions, randomOrphan s randomhash = some hash := by
  have hmem {hash : Uint256} (h : randomOrphan s randomhash = some hash) : hash ∈ s.mapOrphanTransactions := by
    apply Std.TreeMap.mem_keys.1
    rcases Option.or_eq_some_iff.1 h with hfound | ⟨-, hfirst⟩
    · exact List.mem_of_find?_eq_some hfound
    · exact List.mem_of_head? hfirst
  cases h : randomOrphan s randomhash with
  | some hash => exact ⟨hash, hmem h, rfl⟩
  | none =>
    have hnil : s.mapOrphanTransactions.keys = [] := List.head?_eq_none_iff.1 (Option.or_eq_none_iff.1 h).2
    rw [← Std.TreeMap.length_keys, hnil] at hpos
    exact absurd hpos (Nat.lt_irrefl 0)

theorem eraseOrphansFor_indexed (hs : Indexed s) (peer : NodeId) : Indexed (eraseOrphansFor s peer) := by
  apply List.foldlRecOn _ _ hs
  intro s hs it _
  split
  · exact eraseOrphanTx_indexed hs _
  · exact hs

theorem sweepExpired_keeps {P : OrphanPool → Prop} (herase : ∀ s hash, P s → P (eraseOrphanTx s hash).2) (hs : P s) (nNow : Int) :
    P (sweepExpired s nNow).1 := by
  unfold sweepExpired
  apply List.foldlRecOn (motive := fun acc : OrphanPool × Int => P acc.1) _ _ hs
  intro acc hacc it _
  split
  · exact herase _ _ hacc
  · exact hacc

theorem sweep_indexed (hs : Indexed s) (nNow : Int) : Indexed (sweep s nNow) := by
  unfold sweep
  split
  · have hsweep := sweepExpired_keeps (P := Indexed) (fun s hash hs => eraseOrphanTx_indexed hs hash) hs nNow
    exact ⟨hsweep.hash_eq, hsweep.fresh, hsweep.distinct, hsweep.linked_iff, hsweep.no_empty⟩
  · exact hs

theorem size_sweep_le (s : OrphanPool) (nNow : Int) :
    (sweep s nNow).mapOrphanTransactions.size ≤ s.mapOrphanTransactions.size := by
  unfold sweep
  split
  · exact sweepExpired_keeps (P := fun t => t.mapOrphanTransactions.size ≤ s.mapOrphanTransactions.size)
      (fun t hash ht => (size_eraseOrphanTx_le t hash).trans ht) (Nat.le_refl _) nNow
  · exact Nat.le_refl _

/-- The induction is on the turns left: while there are more orphans than allowed, each turn erases one. -/
theorem evict_isSome {nMaxOrphans bound : Nat} (rand : Nat → Uint256) (hs : Indexed s)
    (hbound : s.mapOrphanTransactions.size ≤ bound) (nEvicted : Nat) :
    ∃ s' n, evict nMaxOrphans rand bound (s, nEvicted) = some (s', n) ∧ Indexed s' ∧
      s'.mapOrphanTransactions.size ≤ nMaxOrphans := by
  induction bound generalizing s nEvicted with
  | zero =>
    have hsize : ¬ s.mapOrphanTransactions.size > nMaxOrphans := by omega
    exact ⟨s, nEvicted, by rw [evict, if_neg hsize], hs, Nat.le_of_not_lt hsize⟩
  | succ bound ih =>
    rw [evict]
    split
    · next hmore =>
      obtain ⟨hash, hmem, hrandom⟩ := randomOrphan_isSome (Nat.zero_lt_of_lt hmore) (rand nEvicted)
      rw [hrandom, Option.bind_some]
      have hless := size_eraseOrphanTx_lt hmem
      exact ih (eraseOrphanTx_indexed hs hash) (Nat.le_of_lt_succ (hless.trans_le hbound)) (nEvicted + 1)
    · next hless => exact ⟨s, nEvicted, rfl, hs, Nat.le_of_not_lt hless⟩

theorem limitOrphanTxSize_isSome (hs : Indexed s) (nMaxOrphans : Nat) (nNow : Int) (rand : Nat → Uint256) :
    ∃ s' n, limitOrphanTxSize s nMaxOrphans nNow rand = some (s', n) ∧ Indexed s' ∧ s'.mapOrphanTransactions.size ≤ nMaxOrphans :=
  evict_isSome rand (sweep_indexed hs nNow) (size_sweep_le s nNow) 0

/-! ## Sequences of operations -/

inductive Op
  | add (tx : CTransaction) (peer : NodeId) (nNow : Int)
  | erase (hash : Uint256)
  | eraseFor (peer : NodeId)
  | limit (nMaxOrphans : Nat) (nNow : Int) (rand : Nat → Uint256)

def step (nSize : CTransaction → Nat) (s : OrphanPool) : Op → Option OrphanPool
  | .add tx peer nNow => some (addOrphanTx nSize s tx peer nNow).2
  | .erase hash => some (eraseOrphanTx s hash).2
  | .eraseFor peer => some (eraseOrphansFor s peer)
  | .limit nMaxOrphans nNow rand => (limitOrphanTxSize s nMaxOrphans nNow rand).map (·.1)

/-- What a step leaves: the inverse index, and no more orphans than a limit allows. -/
def Kept (_ : OrphanPool) (op : Op) (s' : OrphanPool) : Prop :=
  Indexed s' ∧ ∀ nMaxOrphans nNow rand, op = .limit nMaxOrphans nNow rand → s'.mapOrphanTransactions.size ≤ nMaxOrphans

theorem step_kept (nSize : CTransaction → Nat) (hs : Indexed s) (op : Op) : ∃ s', step nSize s op = some s' ∧ Kept s op s' := by
  cases op with
  | add tx peer nNow => exact ⟨_, rfl, addOrphanTx_indexed nSize hs tx peer nNow, nofun⟩
  | erase hash => exact ⟨_, rfl, eraseOrphanTx_indexed hs hash, nofun⟩
  | eraseFor peer => exact ⟨_, rfl, eraseOrphansFor_indexed hs peer, nofun⟩
  | limit nMaxOrphans nNow rand =>
    obtain ⟨s', n, h, hindexed, hsize⟩ := limitOrphanTxSize_isSome hs nMaxOrphans nNow rand
    refine ⟨s', by rw [step, h, Option.map_some], hindexed, ?_⟩
    intro _ _ _ heq
    cases heq
    exact hsize

/-- Every sequence of operations from an empty pool is defined, every eviction loop in it
    ends, and after every step the index by outpoint is the inverse of the pool. -/
theorem orphans_indexed (nSize : CTransaction → Nat) (ops : List Op) :
    (run (step nSize) .empty ops).isSome ∧ Along (step nSize) Kept .empty ops := by
  have hmeets : Meets (step nSize) (fun _ _ => True) .empty ops := meets_of_forall fun _ _ => trivial
  apply (defined_along_iff_meets Indexed ?_ ?_ (fun _ _ _ _ _ _ => trivial) indexed_empty).2 hmeets
  · intro s op hs _
    obtain ⟨s', h, -⟩ := step_kept nSize hs op
    rw [h]
    rfl
  · intro s op s' hs _ hstep
    obtain ⟨t, ht, hkept⟩ := step_kept nSize hs op
    cases ht.symm.trans hstep
    exact ⟨hkept.1, hkept⟩

end Orphans

end Zumy.Main
