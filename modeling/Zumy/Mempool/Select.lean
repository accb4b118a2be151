/-
  Zumy.Mempool.Select — which transactions of the pool `CreateNewBlock` takes (miner.cpp).

  A block is filled from three queues: all entries by priority, until the space for these is
  full; the entries by score; and the entries that waited for a parent which is now in the
  block. An entry with a parent that is not in the block waits. Priorities and scores are
  doubles in the source and exact here; nothing depends on which entry is first.

  - `Turned.valid`: a turn keeps the block ordered, final, within its limits, and its counters
    sums over what was taken.
  - `turn_pending`: a turn leaves fewer entries that are not in the block, or fewer that are
    queued.
-/
import Mathlib.Algebra.Order.Field.Rat
import Zumy.Mempool.Pool

namespace Zumy.Mempool

open Zumy.Lib CTxMemPool

/-! ## The rules of a block -/

def MAX_BLOCK_SIZE : Nat := 4194304
def MAX_BLOCK_SIGOPS : Nat := MAX_BLOCK_SIZE / 50
def LOCKTIME_THRESHOLD : Int := 500000000
def SEQUENCE_FINAL : Nat := 0xffffffff

def isFinalTx (tx : CTransaction) (nLockTime : Nat) (nBlockHeight nBlockTime : Int) : Bool :=
  if nLockTime = 0 then true
  else if (nLockTime : Int) < (if (nLockTime : Int) < LOCKTIME_THRESHOLD then nBlockHeight else nBlockTime) then true
  else tx.vin.all fun txin => txin.nSequence == SEQUENCE_FINAL

/-- `CFeeRate::GetFee`. -/
def getFee (nSatoshisPerK nBytes : Int) : CAmount :=
  let nFee := (nSatoshisPerK * nBytes).tdiv 1000
  if nFee = 0 ∧ nBytes ≠ 0 then
    if 0 < nSatoshisPerK then 1 else if nSatoshisPerK < 0 then -1 else nFee
  else nFee

/-- `AllowFree`, above `COIN * 144 / 250`. -/
def allowFree (dPriority : ℚ) : Bool := decide ((100000000 * 144 / 250 : ℚ) < dPriority)

/-- What `CreateNewBlock` is called with, and what only it reads of the pool's entries. -/
structure Miner where
  pool : CTxMemPool
  nLockTime : Uint256 → Nat
  sigOpCount : Uint256 → Nat
  /-- `GetPriority` at the new height, with its delta. -/
  dPriority : Uint256 → ℚ
  nHeight : Int
  nLockTimeCutoff : Int
  minRelayTxFee : Int
  blockMaxSize : Nat
  blockPrioritySize : Nat
  blockMinSize : Nat

namespace Miner

variable (m : Miner)

def nBlockMaxSize : Nat := max 1000 (min (MAX_BLOCK_SIZE - 1000) m.blockMaxSize)

def nBlockPrioritySize : Nat := min m.nBlockMaxSize m.blockPrioritySize

def nBlockMinSize : Nat := min m.nBlockMaxSize m.blockMinSize

def fee (it : Uint256) : CAmount := (m.pool.mapTx[it]?).elim 0 CTxMemPoolEntry.nFee

def isFinal (it : Uint256) : Bool :=
  (m.pool.mapTx[it]?).any fun e => isFinalTx e.tx (m.nLockTime it) m.nHeight m.nLockTimeCutoff

/-- `CompareTxMemPoolEntryByScore`: `a` is before `b`. -/
def byScore (a b : Uint256) : Bool :=
  let f1 := m.pool.modifiedFee a * m.pool.txSize b
  let f2 := m.pool.modifiedFee b * m.pool.txSize a
  if f1 = f2 then b < a else f2 < f1

/-- `ScoreCompare`. -/
def scoreCompare (a b : Uint256) : Bool := m.byScore b a

/-- `TxCoinAgePriorityCompare`. -/
def priorityCompare (a b : ℚ × Uint256) : Bool := if a.1 = b.1 then m.byScore b.2 a.2 else a.1 < b.1

/-- The index of `mapTx` by score. -/
def scoreIndex : List Uint256 := m.pool.mapTx.keys.mergeSort fun a b => !m.byScore b a

end Miner

def top {α : Type} (less : α → α → Bool) : List α → Option α
  | [] => none
  | x :: xs => some (xs.foldl (fun best x => if less best x then x else best) x)

/-! ## The selection -/

/-- `pblocktemplate` behind the coinbase, with its counters. -/
structure CBlockTemplate where
  vtx : List Uint256
  vTxFees : List CAmount
  vTxSigOps : List Nat
  nBlockSize : Int
  nBlockTx : Nat
  nBlockSigOps : Nat
  nFees : CAmount
  inBlock : SetEntries

/-- The block, and what `CreateNewBlock` keeps while it is filled. -/
structure Selecting where
  block : CBlockTemplate
  lastFewTxs : Nat
  waitSet : SetEntries
  vecPriority : List (ℚ × Uint256)
  waitPriMap : Map Uint256 ℚ
  clearedTxs : List Uint256
  /-- What is left of the index by score. -/
  mi : List Uint256
  fPriorityBlock : Bool
  actualPriority : ℚ

inductive Turn
  | next (t : Selecting)
  | stop (t : Selecting)

namespace Miner

variable (m : Miner)

def start : Selecting where
  block := ⟨[], [], [], 1000, 0, 100, 0, ∅⟩
  lastFewTxs := 0
  waitSet := ∅
  vecPriority := if 0 < m.nBlockPrioritySize then m.pool.mapTx.keys.map fun it => (m.dPriority it, it) else []
  waitPriMap := ∅
  clearedTxs := []
  mi := m.scoreIndex
  fPriorityBlock := decide (0 < m.nBlockPrioritySize)
  actualPriority := -1

def take (t : Selecting) : Option (Uint256 × Bool × Selecting) :=
  match if t.fPriorityBlock then top m.priorityCompare t.vecPriority else none with
  | some (dPriority, iter) => some (iter, true, { t with vecPriority := t.vecPriority.erase (dPriority, iter), actualPriority := dPriority })
  | none =>
    match top m.scoreCompare t.clearedTxs with
    | some iter => some (iter, false, { t with clearedTxs := t.clearedTxs.erase iter })
    | none =>
      match t.mi with
      | iter :: mi => some (iter, false, { t with mi := mi })
      | [] => none

def release (t : Selecting) (child : Uint256) : Selecting :=
  if t.fPriorityBlock then
    match t.waitPriMap[child]? with
    | some dPriority => { t with vecPriority := (dPriority, child) :: t.vecPriority, waitPriMap := t.waitPriMap.erase child }
    | none => t
  else if child ∈ t.waitSet then { t with clearedTxs := child :: t.clearedTxs, waitSet := t.waitSet.erase child }
  else t

def push (b : CBlockTemplate) (iter : Uint256) : CBlockTemplate where
  vtx := b.vtx ++ [iter]
  vTxFees := b.vTxFees ++ [m.fee iter]
  vTxSigOps := b.vTxSigOps ++ [m.sigOpCount iter]
  nBlockSize := b.nBlockSize + m.pool.txSize iter
  nBlockTx := b.nBlockTx + 1
  nBlockSigOps := b.nBlockSigOps + m.sigOpCount iter
  nFees := b.nFees + m.fee iter
  inBlock := insert iter b.inBlock

def add (t : Selecting) (iter : Uint256) : Selecting :=
  ((m.pool.getMemPoolChildren iter).sort (· ≤ ·)).foldl release { t with block := m.push t.block iter }

def isOrphan (t : Selecting) (iter : Uint256) : Bool :=
  decide (∃ parent ∈ m.pool.getMemPoolParents iter, parent ∉ t.block.inBlock)

def leavePriority (t : Selecting) (nTxSize : Int) : Selecting :=
  if t.fPriorityBlock && (decide (m.nBlockPrioritySize ≤ t.block.nBlockSize + nTxSize) || !allowFree t.actualPriority) then
    { t with fPriorityBlock := false, waitPriMap := ∅ }
  else t

def consider (iter : Uint256) (priorityTx : Bool) (t : Selecting) : Turn :=
  let nTxSize := m.pool.txSize iter
  if !priorityTx && decide (m.pool.modifiedFee iter < getFee m.minRelayTxFee nTxSize ∧
    m.nBlockMinSize ≤ t.block.nBlockSize) then .stop t
  else if m.nBlockMaxSize ≤ t.block.nBlockSize + nTxSize then
    if (m.nBlockMaxSize : Int) - 100 < t.block.nBlockSize ∨ 50 < t.lastFewTxs then .stop t
    else if (m.nBlockMaxSize : Int) - 1000 < t.block.nBlockSize then .next { t with lastFewTxs := t.lastFewTxs + 1 }
    else .next t
  else if !m.isFinal iter then .next t
  else if MAX_BLOCK_SIGOPS ≤ t.block.nBlockSigOps + m.sigOpCount iter then
    if MAX_BLOCK_SIGOPS - 2 < t.block.nBlockSigOps then .stop t else .next t
  else .next (m.add t iter)

def turn (iter : Uint256) (priorityTx : Bool) (t : Selecting) : Turn :=
  if iter ∈ t.block.inBlock then .next t
  else if m.isOrphan t iter then
    .next (if priorityTx then { t with waitPriMap := t.waitPriMap.insertIfNew iter t.actualPriority } else { t with waitSet := insert iter t.waitSet })
  else m.consider iter priorityTx (m.leavePriority t (m.pool.txSize iter))

/-- The loop; `none` where it does not end within the turns it has. -/
def selectLoop : Nat → Selecting → Option Selecting
  | 0, _ => none
  | n + 1, t =>
    if t.mi = [] ∧ t.clearedTxs = [] then some t
    else
      match m.take t with
      | none => some t
      | some (iter, priorityTx, t) =>
        match m.turn iter priorityTx t with
        | .stop t => some t
        | .next t => selectLoop n t

/-- As many turns as are needed (`selectLoop_ends`). -/
def turns : Nat := m.pool.mapTx.size * (m.pool.mapTx.size + 5) + 1

def selectTransactions : Option Selecting := m.selectLoop m.turns m.start

end Miner

/-! ## The block -/

namespace Miner

variable {m : Miner} {b : CBlockTemplate} {t u : Selecting} {iter it c p : Uint256} {priorityTx : Bool} {n : Nat}

variable (m) in
/-- The block is a list of entries without a repetition, each behind its parents, final, and
    within the limits; the counters are of its entries. -/
structure Valid (b : CBlockTemplate) : Prop where
  nodup : b.vtx.Nodup
  pooled : ∀ it ∈ b.vtx, it ∈ m.pool.ids
  ordered : ∀ before c after, b.vtx = before ++ c :: after → ∀ p, m.pool.Spends p c → p ∈ before
  final : ∀ it ∈ b.vtx, m.isFinal it = true
  size : b.nBlockSize = 1000 + (b.vtx.map m.pool.txSize).sum
  size_lt : b.vtx ≠ [] → b.nBlockSize < m.nBlockMaxSize
  sigOps : b.nBlockSigOps = 100 + (b.vtx.map m.sigOpCount).sum
  sigOps_lt : b.nBlockSigOps < MAX_BLOCK_SIGOPS
  fees : b.nFees = (b.vtx.map m.fee).sum
  count : b.nBlockTx = b.vtx.length
  vTxFees : b.vTxFees = b.vtx.map m.fee
  vTxSigOps : b.vTxSigOps = b.vtx.map m.sigOpCount
  inBlock : ∀ it, it ∈ b.inBlock ↔ it ∈ b.vtx

theorem valid_start : m.Valid m.start.block where
  nodup := .nil
  pooled := by simp [start]
  ordered := by simp [start]
  final := by simp [start]
  size := rfl
  size_lt h := absurd rfl h
  sigOps := rfl
  sigOps_lt := by
    show 100 < MAX_BLOCK_SIGOPS
    decide
  fees := rfl
  count := rfl
  vTxFees := rfl
  vTxSigOps := rfl
  inBlock := by simp [start]

theorem Valid.push (h : m.Valid b) (hin : iter ∈ m.pool.ids) (hnew : iter ∉ b.inBlock)
    (hparents : ∀ p, m.pool.Spends p iter → p ∈ b.inBlock)
    (hfinal : m.isFinal iter = true) (hsize : b.nBlockSize + m.pool.txSize iter < m.nBlockMaxSize)
    (hsigOps : b.nBlockSigOps + m.sigOpCount iter < MAX_BLOCK_SIGOPS) : m.Valid (m.push b iter) where
  nodup := List.nodup_append.2 ⟨h.nodup, List.nodup_singleton iter, fun x hx y hy heq => by
    rw [List.mem_singleton.1 hy] at heq
    exact hnew ((h.inBlock iter).2 (heq ▸ hx))⟩
  pooled it hit := by
    rcases List.mem_append.1 hit with hit | hit
    · exact h.pooled it hit
    · rwa [List.mem_singleton.1 hit]
  ordered before c after hvtx p hp := by
    rcases List.append_eq_append_iff.1 hvtx with ⟨rest, hbefore, hrest⟩ | ⟨rest, hvtx', hrest⟩
    · cases rest with
      | nil =>
        rw [List.nil_append, List.cons.injEq] at hrest
        rw [hbefore, List.append_nil]
        exact (h.inBlock p).1 (hparents p (hrest.1 ▸ hp))
      | cons r rest => simp at hrest
    · cases rest with
      | nil =>
        rw [List.nil_append, List.cons.injEq] at hrest
        rw [List.append_nil] at hvtx'
        rw [← hvtx']
        exact (h.inBlock p).1 (hparents p (hrest.1 ▸ hp))
      | cons r rest =>
        rw [List.cons_append, List.cons.injEq] at hrest
        exact h.ordered before c rest (hrest.1 ▸ hvtx') p hp
  final it hit := by
    rcases List.mem_append.1 hit with hit | hit
    · exact h.final it hit
    · rwa [List.mem_singleton.1 hit]
  size := by
    simp only [Miner.push, List.map_append, List.sum_append, List.map_singleton, List.sum_singleton, h.size]
    omega
  size_lt _ := hsize
  sigOps := by
    simp only [Miner.push, List.map_append, List.sum_append, List.map_singleton, List.sum_singleton, h.sigOps]
    omega
  sigOps_lt := hsigOps
  fees := by simp only [Miner.push, List.map_append, List.sum_append, List.map_singleton, List.sum_singleton, h.fees]
  count := by simp only [Miner.push, List.length_append, List.length_singleton, h.count]
  vTxFees := by simp only [Miner.push, List.map_append, List.map_singleton, h.vTxFees]
  vTxSigOps := by simp only [Miner.push, List.map_append, List.map_singleton, h.vTxSigOps]
  inBlock it := by simp [Miner.push, h.inBlock, or_comm]

/-! ## The queues -/

variable (m) in
structure Queued (t : Selecting) : Prop where
  priority : ∀ x ∈ t.vecPriority, x.2 ∈ m.pool.ids
  waiting : ∀ it x, t.waitPriMap[it]? = some x → it ∈ m.pool.ids
  cleared : ∀ it ∈ t.clearedTxs, it ∈ m.pool.ids
  waitSet : ∀ it ∈ t.waitSet, it ∈ m.pool.ids
  mi : ∀ it ∈ t.mi, it ∈ m.pool.ids

def queueSize (t : Selecting) : Nat :=
  2 * t.vecPriority.length + t.waitPriMap.size + 2 * t.clearedTxs.length + t.waitSet.card + 2 * t.mi.length

theorem top_mem {α : Type} {less : α → α → Bool} {l : List α} {x : α} (h : top less l = some x) : x ∈ l := by
  cases l with
  | nil => cases h
  | cons y l =>
    cases h
    have hfold (l : List α) (y : α) : l.foldl (fun best x => if less best x then x else best) y ∈ y :: l := by
      induction l generalizing y with
      | nil => simp
      | cons z l ih =>
        rw [List.foldl_cons]
        split
        · exact List.mem_cons_of_mem y (ih z)
        · rcases List.mem_cons.1 (ih y) with hy | hy
          · rw [hy]
            exact List.mem_cons_self
          · exact List.mem_cons_of_mem y (List.mem_cons_of_mem z hy)
    exact hfold l y

theorem queued_start : m.Queued m.start where
  priority x hx := by
    simp only [start] at hx
    split at hx
    · obtain ⟨it, hit, rfl⟩ := List.mem_map.1 hx
      exact List.mem_toFinset.2 hit
    · cases hx
  waiting it x h := by simp [start] at h
  cleared := by simp [start]
  waitSet := by simp [start]
  mi it hit := by
    simp only [start, scoreIndex, List.mem_mergeSort] at hit
    exact List.mem_toFinset.2 hit

theorem take_spec (hq : m.Queued t) (h : m.take t = some (iter, priorityTx, u)) :
    iter ∈ m.pool.ids ∧ m.Queued u ∧ u.block = t.block ∧ queueSize u + 2 = queueSize t := by
  unfold take at h
  split at h
  · rename_i x _ hx
    split at hx
    · have hmem := top_mem hx
      cases h
      refine ⟨hq.priority _ hmem, { hq with priority := fun y hy => hq.priority y (List.mem_of_mem_erase hy) }, rfl, ?_⟩
      have hpos := List.length_pos_of_mem hmem
      simp only [queueSize, List.length_erase_of_mem hmem]
      omega
    · cases hx
  · split at h
    · rename_i x hx
      have hmem := top_mem hx
      cases h
      refine ⟨hq.cleared _ hmem, { hq with cleared := fun y hy => hq.cleared y (List.mem_of_mem_erase hy) }, rfl, ?_⟩
      have hpos := List.length_pos_of_mem hmem
      simp only [queueSize, List.length_erase_of_mem hmem]
      omega
    · split at h
      · rename_i hmi
        cases h
        refine ⟨hq.mi _ (by simp [hmi]), { hq with mi := fun y hy => hq.mi y (by simp [hmi, hy]) }, rfl, ?_⟩
        simp only [queueSize, hmi, List.length_cons]
        omega
      · cases h

theorem release_spec (hq : m.Queued t) :
    m.Queued (release t c) ∧ (release t c).block = t.block ∧ queueSize (release t c) ≤ queueSize t + 1 := by
  unfold release
  split
  · split
    · rename_i x hx
      have hmem : t.waitPriMap.contains c = true := by rw [Std.TreeMap.contains_eq_isSome_getElem?, hx, Option.isSome_some]
      have herase : (t.waitPriMap.erase c).size = t.waitPriMap.size - 1 := by rw [Std.TreeMap.size_erase, if_pos hmem]
      have hpos : 0 < t.waitPriMap.size := by
        rw [← card_keys_toFinset]
        exact Finset.card_pos.2 ⟨c, List.mem_toFinset.2 (Std.TreeMap.mem_keys.2 (Std.TreeMap.contains_iff_mem.1 hmem))⟩
      refine ⟨{ hq with priority := fun y hy => ?_, waiting := fun it y hy => ?_ }, rfl, ?_⟩
      · rcases List.mem_cons.1 hy with rfl | hy
        · exact hq.waiting c x hx
        · exact hq.priority y hy
      · exact hq.waiting it y (of_lookup_erase hy)
      · simp only [queueSize, List.length_cons, herase]
        omega
    · exact ⟨hq, rfl, Nat.le_succ _⟩
  · split
    · rename_i hc
      refine ⟨{ hq with cleared := fun y hy => ?_, waitSet := fun y hy => hq.waitSet y (Finset.mem_of_mem_erase hy) }, rfl, ?_⟩
      · rcases List.mem_cons.1 hy with rfl | hy
        · exact hq.waitSet y hc
        · exact hq.cleared y hy
      · have hpos := Finset.card_pos.2 ⟨c, hc⟩
        simp only [queueSize, List.length_cons, Finset.card_erase_of_mem hc]
        omega
    · exact ⟨hq, rfl, Nat.le_succ _⟩

theorem foldl_release_spec (l : List Uint256) (hq : m.Queued t) :
    m.Queued (l.foldl release t) ∧ (l.foldl release t).block = t.block ∧
      queueSize (l.foldl release t) ≤ queueSize t + l.length := by
  induction l generalizing t with
  | nil => exact ⟨hq, rfl, Nat.le_refl _⟩
  | cons c l ih =>
    obtain ⟨hq', hblock, hsize⟩ := release_spec (c := c) hq
    obtain ⟨hq'', hblock', hsize'⟩ := ih hq'
    refine ⟨hq'', hblock'.trans hblock, ?_⟩
    rw [List.length_cons, List.foldl_cons]
    omega

variable (iter) in
theorem add_spec (hq : m.Queued t) :
    m.Queued (m.add t iter) ∧ (m.add t iter).block = m.push t.block iter ∧
      queueSize (m.add t iter) ≤ queueSize t + (m.pool.getMemPoolChildren iter).card := by
  have hq' : m.Queued { t with block := m.push t.block iter } := { hq with }
  have h := foldl_release_spec ((m.pool.getMemPoolChildren iter).sort (· ≤ ·)) hq'
  rw [Finset.length_sort] at h
  exact h

theorem leavePriority_spec (hq : m.Queued t) (nTxSize : Int) :
    m.Queued (m.leavePriority t nTxSize) ∧ (m.leavePriority t nTxSize).block = t.block ∧
      queueSize (m.leavePriority t nTxSize) ≤ queueSize t := by
  unfold leavePriority
  split
  · refine ⟨{ hq with waiting := fun it x h => by simp at h }, rfl, ?_⟩
    simp only [queueSize, Std.TreeMap.size_emptyc]
    omega
  · exact ⟨hq, rfl, Nat.le_refl _⟩

/-! ## A turn -/

variable (m) in
/-- The block stays and at most one entry is queued, or an entry is put into it and its
    children are queued. -/
def Turned (t : Selecting) (iter : Uint256) (u : Selecting) : Prop :=
  m.Queued u ∧
    (u.block = t.block ∧ queueSize u ≤ queueSize t + 1 ∨
      u.block = m.push t.block iter ∧ iter ∉ t.block.inBlock ∧ m.Valid u.block ∧
        queueSize u ≤ queueSize t + (m.pool.getMemPoolChildren iter).card)

theorem Turned.valid (h : m.Turned t iter u) (hv : m.Valid t.block) : m.Valid u.block := by
  rcases h.2 with ⟨hblock, -⟩ | ⟨-, -, hvalid, -⟩
  · rwa [hblock]
  · exact hvalid

/-- What a turn may do: it stops with the block as it is, or goes on with a block that is valid again. -/
def TurnSpec (m : Miner) (t : Selecting) (iter : Uint256) : Turn → Prop
  | .stop u => u.block = t.block
  | .next u => m.Turned t iter u

variable (priorityTx) in
theorem consider_spec (hv : m.Valid t.block) (hq : m.Queued t) (hin : iter ∈ m.pool.ids) (hnew : iter ∉ t.block.inBlock)
    (hparents : ∀ p, m.pool.Spends p iter → p ∈ t.block.inBlock) : TurnSpec m t iter (m.consider iter priorityTx t) := by
  have hstay (u : Selecting) (hu : m.Queued u) (hblock : u.block = t.block) (hsize : queueSize u = queueSize t) :
      m.Turned t iter u :=
    ⟨hu, .inl ⟨hblock, hsize ▸ Nat.le_succ _⟩⟩
  simp only [consider]
  split_ifs with hfee hfull hclose hfew hfinal hsigOps hlast
  · exact rfl
  · exact rfl
  · exact hstay _ { hq with } rfl rfl
  · exact hstay t hq rfl rfl
  · exact hstay t hq rfl rfl
  · exact rfl
  · exact hstay t hq rfl rfl
  · obtain ⟨hq', hblock, hsize⟩ := add_spec iter hq
    refine ⟨hq', .inr ⟨hblock, hnew, ?_, hsize⟩⟩
    rw [hblock]
    exact hv.push hin hnew hparents (by simpa using hfinal) (not_le.1 hfull) (not_le.1 hsigOps)

variable (priorityTx) in
theorem turn_spec (hs : m.pool.PoolInv) (hv : m.Valid t.block) (hq : m.Queued t) (hin : iter ∈ m.pool.ids) :
    TurnSpec m t iter (m.turn iter priorityTx t) := by
  unfold turn
  split_ifs with hnew horphan hpriority
  · exact ⟨hq, .inl ⟨rfl, Nat.le_succ _⟩⟩
  · refine ⟨{ hq with waiting := fun it x hx => ?_ }, .inl ⟨rfl, ?_⟩⟩
    · rcases of_lookup_insertIfNew hx with ⟨rfl, -⟩ | hx
      · exact hin
      · exact hq.waiting it x hx
    · have := Std.TreeMap.size_insertIfNew_le (t := t.waitPriMap) (k := iter) (v := t.actualPriority)
      simp only [queueSize]
      omega
  · refine ⟨{ hq with waitSet := fun it hit => ?_ }, .inl ⟨rfl, ?_⟩⟩
    · rcases Finset.mem_insert.1 hit with rfl | hit
      · exact hin
      · exact hq.waitSet it hit
    · have := Finset.card_insert_le iter t.waitSet
      simp only [queueSize]
      omega
  · obtain ⟨hq', hblock, hsize⟩ := leavePriority_spec hq (m.pool.txSize iter)
    have hparents (p : Uint256) (hp : m.pool.Spends p iter) : p ∈ t.block.inBlock := by
      by_contra hout
      exact horphan (decide_eq_true ⟨p, (hs.parents p iter).2 hp, hout⟩)
    have hspec := consider_spec priorityTx (t := m.leavePriority t (m.pool.txSize iter)) (hblock ▸ hv) hq' hin
      (hblock ▸ hnew) (hblock ▸ hparents)
    unfold TurnSpec Turned at hspec ⊢
    rw [hblock] at hspec
    split at hspec
    · exact hspec
    · refine ⟨hspec.1, hspec.2.imp (fun h => ⟨h.1, by omega⟩) fun h => ⟨h.1, h.2.1, h.2.2.1, by omega⟩⟩

/-! ## The loop -/

variable (m) in
def pending (t : Selecting) : Nat := (m.pool.ids.card - t.block.inBlock.card) * (m.pool.ids.card + 1) + queueSize t

theorem Valid.inBlock_subset (h : m.Valid b) : b.inBlock ⊆ m.pool.ids := fun it hit => h.pooled it ((h.inBlock it).1 hit)

theorem turn_pending (hs : m.pool.PoolInv) (h : m.Turned t iter u) :
    m.pending u ≤ m.pending t + 1 := by
  rcases h.2 with ⟨hblock, hsize⟩ | ⟨hblock, hnew, hvalid, hsize⟩
  · unfold pending
    rw [hblock]
    omega
  · have hchildren : (m.pool.getMemPoolChildren iter).card ≤ m.pool.ids.card := by
      refine Finset.card_le_card fun c hc => ?_
      exact ((hs.children iter c).1 hc).mem.2
    have hcard : u.block.inBlock.card = t.block.inBlock.card + 1 := by
      rw [hblock]
      exact Finset.card_insert_of_notMem hnew
    have hle := Finset.card_le_card hvalid.inBlock_subset
    unfold pending
    rw [hcard] at hle ⊢
    obtain ⟨rest, hrest⟩ := Nat.exists_eq_add_of_le hle
    have hleft : m.pool.ids.card - (t.block.inBlock.card + 1) = rest := by omega
    have hright : m.pool.ids.card - t.block.inBlock.card = rest + 1 := by omega
    rw [hleft, hright, Nat.add_mul, Nat.one_mul]
    omega

theorem selectLoop_ends (hs : m.pool.PoolInv) (hv : m.Valid t.block) (hq : m.Queued t) (hn : m.pending t < n) :
    ∃ u, m.selectLoop n t = some u ∧ m.Valid u.block := by
  induction n generalizing t with
  | zero => omega
  | succ n ih =>
    unfold selectLoop
    split
    · exact ⟨t, rfl, hv⟩
    · cases htake : m.take t with
      | none => exact ⟨t, rfl, hv⟩
      | some r =>
        obtain ⟨iter, priorityTx, u⟩ := r
        obtain ⟨hin, hqu, hblock, hsize⟩ := take_spec hq htake
        rw [← hblock] at hv
        have hspec := turn_spec priorityTx hs hv hqu hin
        dsimp only
        cases hturn : m.turn iter priorityTx u with
        | stop v =>
          rw [hturn] at hspec
          refine ⟨v, rfl, ?_⟩
          change v.block = u.block at hspec
          rwa [hspec]
        | next v =>
          rw [hturn] at hspec
          refine ih (hspec.valid hv) hspec.1 ?_
          have hpending := turn_pending hs hspec
          have hless : m.pending u + 2 = m.pending t := by
            unfold pending
            rw [hblock]
            omega
          omega

theorem pending_start : m.pending m.start < m.turns := by
  have hkeys : m.pool.mapTx.keys.length = m.pool.mapTx.size := Std.TreeMap.length_keys
  have hpriority : m.start.vecPriority.length ≤ m.pool.mapTx.size := by
    simp only [start]
    split
    · rw [List.length_map, hkeys]
    · simp
  have hmi : m.start.mi.length = m.pool.mapTx.size := by simp [start, scoreIndex, hkeys]
  have hempty : m.start.waitPriMap.size = 0 ∧ m.start.waitSet.card = 0 ∧ m.start.clearedTxs.length = 0 ∧
    m.start.block.inBlock.card = 0 :=
    ⟨rfl, rfl, rfl, rfl⟩
  obtain ⟨h1, h2, h3, h4⟩ := hempty
  simp only [pending, queueSize, turns, h1, h2, h3, h4, hmi, card_ids, Nat.sub_zero, Nat.mul_add]
  omega

theorem nBlockMaxSize_pos : 1000 ≤ m.nBlockMaxSize := le_max_left _ _

/-- The sizes of the block's transactions, without the coinbase, are below the limit. -/
theorem Valid.sum_lt (h : m.Valid b) : (b.vtx.map m.pool.txSize).sum < m.nBlockMaxSize := by
  by_cases hnil : b.vtx = []
  · have := m.nBlockMaxSize_pos
    rw [hnil, List.map_nil, List.sum_nil]
    omega
  · have := h.size_lt hnil
    rw [h.size] at this
    omega

open PoolSample in
/-- A miner with the default settings, and `parentPool`. -/
def sampleMiner : Miner where
  pool := parentPool
  nLockTime _ := 0
  sigOpCount _ := 1
  dPriority _ := 0
  nHeight := 100
  nLockTimeCutoff := 1543504836
  minRelayTxFee := 1000
  blockMaxSize := 3145728
  blockPrioritySize := 200000
  blockMinSize := 0

end Miner

end Zumy.Mempool
