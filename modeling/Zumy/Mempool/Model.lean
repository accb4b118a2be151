/-
  Zumy.Mempool.Model — txmempool.h, txmempool.cpp: the transactions that wait for a block,
  their links, what is counted of their descendants, and their address and spent indexes;
  and where main.cpp adds them to the pool and removes them.

  An iterator into `mapTx`, and a pointer to a transaction in it, is the transaction's id; a
  set of iterators is ordered by it. `mapAddress` and `mapSpent` are the functions the maps
  stand for. Assertions are left out, so a run of the program that meets them is a run of
  the model. Memory use, priorities and fee estimates are left out: which transactions
  `TrimToSize` evicts is part of the event, and so is which of a disconnected block's
  transactions are accepted again. `GetOutputFor` says what an outpoint names: a
  transaction id determines its outputs.
-/
import Zumy.Blocks.Model
import Mathlib.Algebra.BigOperators.Group.Finset.Basic
import Zumy.Lib.MapSum
import Zumy.Lib.Worklist

namespace Zumy.Mempool

open Zumy.Lib Zumy.Blocks

abbrev CTransaction := Blocks.CTransaction

/-- `setEntries`. -/
abbrev SetEntries := Finset Uint256

structure CTxMemPoolEntry where
  tx : CTransaction
  nFee : CAmount
  nTxSize : Int
  nTime : Int
  feeDelta : CAmount
  nCountWithDescendants : Int
  nSizeWithDescendants : Int
  nModFeesWithDescendants : CAmount
  deriving DecidableEq

namespace CTxMemPoolEntry

def new (tx : CTransaction) (nFee : CAmount) (nTime nTxSize : Int) : CTxMemPoolEntry :=
  ⟨tx, nFee, nTxSize, nTime, 0, 1, nTxSize, nFee⟩

variable (e : CTxMemPoolEntry)

def getModifiedFee : CAmount := e.nFee + e.feeDelta

def isDirty : Bool := e.nCountWithDescendants == 0

def setDirty : CTxMemPoolEntry :=
  { e with nCountWithDescendants := 0, nSizeWithDescendants := e.nTxSize, nModFeesWithDescendants := e.getModifiedFee }

def updateFeeDelta (newFeeDelta : CAmount) : CTxMemPoolEntry :=
  { e with nModFeesWithDescendants := e.nModFeesWithDescendants + (newFeeDelta - e.feeDelta), feeDelta := newFeeDelta }

def updateState (modifySize : Int) (modifyFee : CAmount) (modifyCount : Int) : CTxMemPoolEntry :=
  if e.isDirty then e
  else
    { e with
      nSizeWithDescendants := e.nSizeWithDescendants + modifySize
      nModFeesWithDescendants := e.nModFeesWithDescendants + modifyFee
      nCountWithDescendants := e.nCountWithDescendants + modifyCount }

end CTxMemPoolEntry

structure TxLinks where
  parents : SetEntries
  children : SetEntries
  deriving DecidableEq

structure CMempoolAddressDelta where
  time : Int
  amount : CAmount
  prevhash : Uint256
  prevout : Nat
  deriving DecidableEq

structure CMempoolAddressDeltaKey where
  type : Nat
  addressBytes : List UInt8
  txhash : Uint256
  index : Nat
  spending : Nat
  deriving DecidableEq

structure CTxMemPool where
  mapTx : Map Uint256 CTxMemPoolEntry
  mapLinks : Map Uint256 TxLinks
  mapNextTx : Map COutPoint Uint256
  /-- The fee deltas. -/
  mapDeltas : Map Uint256 CAmount
  totalTxSize : Int
  mapAddress : CMempoolAddressDeltaKey → Option CMempoolAddressDelta
  mapAddressInserted : Map Uint256 (List CMempoolAddressDeltaKey)
  mapSpent : CSpentIndexKey → Option CSpentIndexValue
  mapSpentInserted : Map Uint256 (List CSpentIndexKey)

namespace CTxMemPool

def empty : CTxMemPool := ⟨∅, ∅, ∅, ∅, 0, fun _ => none, ∅, fun _ => none, ∅⟩

variable (s : CTxMemPool)

/-- `mapTx.modify`. -/
def modify (it : Uint256) (f : CTxMemPoolEntry → CTxMemPoolEntry) : CTxMemPool := { s with mapTx := s.mapTx.modify it f }

/-! ## Links -/

def links (it : Uint256) : TxLinks := (s.mapLinks[it]?).getD ⟨∅, ∅⟩

def getMemPoolParents (it : Uint256) : SetEntries := (s.links it).parents

def getMemPoolChildren (it : Uint256) : SetEntries := (s.links it).children

def addTo (add : Bool) (it : Uint256) (set : SetEntries) : SetEntries := if add then insert it set else set.erase it

def updateChild (entry child : Uint256) (add : Bool) : CTxMemPool :=
  { s with mapLinks := s.mapLinks.insert entry { s.links entry with children := addTo add child (s.links entry).children } }

def updateParent (entry parent : Uint256) (add : Bool) : CTxMemPool :=
  { s with mapLinks := s.mapLinks.insert entry { s.links entry with parents := addTo add parent (s.links entry).parents } }

/-- `CalculateMemPoolAncestors` from the parents, where no limit is exceeded. -/
def calculateMemPoolAncestors (parentHashes : SetEntries) : SetEntries := explore s.getMemPoolParents s.mapTx.size parentHashes ∅

def parentsOf (tx : CTransaction) : SetEntries := ((tx.vin.map (·.prevout.hash)).filter s.mapTx.contains).toFinset

/-- Adds to `setDescendants`. -/
def calculateDescendants (setDescendants : SetEntries) (entryit : Uint256) : SetEntries :=
  explore s.getMemPoolChildren s.mapTx.size (if entryit ∈ setDescendants then ∅ else {entryit}) setDescendants

def calculateAllDescendants (set : SetEntries) : SetEntries := (set.sort (· ≤ ·)).foldl s.calculateDescendants ∅

/-! ## Adding -/

def updateAncestorsOf (add : Bool) (it : Uint256) (setAncestors : SetEntries) : CTxMemPool :=
  match s.mapTx[it]? with
  | none => s
  | some e =>
    let s := ((s.getMemPoolParents it).sort (· ≤ ·)).foldl (fun s piter => s.updateChild piter it add) s
    let updateCount : Int := if add then 1 else -1
    (setAncestors.sort (· ≤ ·)).foldl (fun s ancestorIt =>
      s.modify ancestorIt (·.updateState (updateCount * e.nTxSize) (updateCount * e.getModifiedFee) updateCount)) s

def addUnchecked (entry : CTxMemPoolEntry) (setAncestors : SetEntries) : CTxMemPool :=
  let hash := entry.tx.hash
  let delta := (s.mapDeltas[hash]?).getD 0
  let parents := s.parentsOf entry.tx
  let s :=
    { s with
      mapTx := s.mapTx.insertIfNew hash (if delta ≠ 0 then entry.updateFeeDelta delta else entry)
      mapLinks := s.mapLinks.insertIfNew hash ⟨∅, ∅⟩
      mapNextTx := entry.tx.vin.foldl (fun m (txin : CTxIn) => m.insertIfNew txin.prevout hash) s.mapNextTx
      totalTxSize := s.totalTxSize + entry.nTxSize }
  let s := (parents.sort (· ≤ ·)).foldl (fun s pit => s.updateParent hash pit true) s
  s.updateAncestorsOf true hash setAncestors

/-! ## The indexes -/

section Indexes

variable (GetOutputFor : COutPoint → CTxOut)

def inputDelta (entry : CTxMemPoolEntry) (input : CTxIn) (j : Nat) : Option (CMempoolAddressDeltaKey × CMempoolAddressDelta) :=
  let prevout := GetOutputFor input.prevout
  (scriptAddress prevout.scriptPubKey).map fun (type, hashBytes) =>
    (⟨type, hashBytes, entry.tx.hash, j, 1⟩, ⟨entry.nTime, prevout.nValue * -1, input.prevout.hash, input.prevout.n⟩)

def outputDelta (entry : CTxMemPoolEntry) (out : CTxOut) (k : Nat) : Option (CMempoolAddressDeltaKey × CMempoolAddressDelta) :=
  (scriptAddress out.scriptPubKey).map fun (type, hashBytes) =>
    (⟨type, hashBytes, entry.tx.hash, k, 0⟩, ⟨entry.nTime, out.nValue, 0, 0⟩)

/-- The deltas `addAddressIndex` inserts, in order. -/
def addressDeltas (entry : CTxMemPoolEntry) : List (CMempoolAddressDeltaKey × CMempoolAddressDelta) :=
  (entry.tx.vin.zipIdx.filterMap fun (input, j) => inputDelta GetOutputFor entry input j) ++
    entry.tx.vout.zipIdx.filterMap fun (out, k) => outputDelta entry out k

/-- `insert` of a map does not replace. -/
def insertPair {κ ν : Type} [DecidableEq κ] (m : κ → Option ν) (kv : κ × ν) : κ → Option ν :=
  if (m kv.1).isSome then m else Function.update m kv.1 (some kv.2)

def erasePair {κ ν : Type} [DecidableEq κ] (m : κ → Option ν) (k : κ) : κ → Option ν := Function.update m k none

def addAddressIndex (entry : CTxMemPoolEntry) : CTxMemPool :=
  { s with
    mapAddress := (addressDeltas GetOutputFor entry).foldl insertPair s.mapAddress
    mapAddressInserted := s.mapAddressInserted.insertIfNew entry.tx.hash ((addressDeltas GetOutputFor entry).map Prod.fst) }

/-- The values `addSpentIndex` inserts, in order. -/
def spentValues (entry : CTxMemPoolEntry) : List (CSpentIndexKey × CSpentIndexValue) :=
  entry.tx.vin.zipIdx.map fun (input, j) =>
    let prevout := GetOutputFor input.prevout
    let address := (scriptAddress prevout.scriptPubKey).getD (0, [])
    (input.prevout, ⟨entry.tx.hash, j, -1, prevout.nValue, address.1, address.2⟩)

def addSpentIndex (entry : CTxMemPoolEntry) : CTxMemPool :=
  { s with
    mapSpent := (spentValues GetOutputFor entry).foldl insertPair s.mapSpent
    mapSpentInserted := s.mapSpentInserted.insertIfNew entry.tx.hash ((spentValues GetOutputFor entry).map Prod.fst) }

end Indexes

def removeAddressIndex (txhash : Uint256) : CTxMemPool :=
  match s.mapAddressInserted[txhash]? with
  | none => s
  | some keys => { s with mapAddress := keys.foldl erasePair s.mapAddress, mapAddressInserted := s.mapAddressInserted.erase txhash }

def removeSpentIndex (txhash : Uint256) : CTxMemPool :=
  match s.mapSpentInserted[txhash]? with
  | none => s
  | some keys => { s with mapSpent := keys.foldl erasePair s.mapSpent, mapSpentInserted := s.mapSpentInserted.erase txhash }

/-! ## Removing -/

def updateChildrenForRemoval (it : Uint256) : CTxMemPool :=
  ((s.getMemPoolChildren it).sort (· ≤ ·)).foldl (fun s updateIt => s.updateParent updateIt it false) s

def updateForRemoveFromMempool (entriesToRemove : SetEntries) : CTxMemPool :=
  let s := (entriesToRemove.sort (· ≤ ·)).foldl (fun s removeIt =>
    s.updateAncestorsOf false removeIt (s.calculateMemPoolAncestors (s.getMemPoolParents removeIt))) s
  (entriesToRemove.sort (· ≤ ·)).foldl updateChildrenForRemoval s

def removeUnchecked (it : Uint256) : CTxMemPool :=
  match s.mapTx[it]? with
  | none => s
  | some e =>
    let s :=
      { s with
        mapNextTx := e.tx.vin.foldl (fun m (txin : CTxIn) => m.erase txin.prevout) s.mapNextTx
        totalTxSize := s.totalTxSize - e.nTxSize
        mapLinks := s.mapLinks.erase it
        mapTx := s.mapTx.erase it }
    (s.removeAddressIndex e.tx.hash).removeSpentIndex e.tx.hash

def removeStaged (stage : SetEntries) : CTxMemPool :=
  (stage.sort (· ≤ ·)).foldl removeUnchecked (s.updateForRemoveFromMempool stage)

def spendersOf (tx : CTransaction) : SetEntries :=
  ((List.range tx.vout.length).filterMap fun i => s.mapNextTx[(⟨tx.hash, i⟩ : COutPoint)]?).toFinset

def remove (origTx : CTransaction) (fRecursive : Bool) : CTxMemPool :=
  let txToRemove := if s.mapTx.contains origTx.hash then {origTx.hash} else if fRecursive then s.spendersOf origTx else ∅
  s.removeStaged (if fRecursive then s.calculateAllDescendants txToRemove else txToRemove)

def clearPrioritisation (hash : Uint256) : CTxMemPool := { s with mapDeltas := s.mapDeltas.erase hash }

/-- A turn of `removeConflicts`. The source reads the id of the conflicting transaction from
    where it was before it was removed. -/
def removeConflict (hash : Uint256) (s : CTxMemPool) (txin : CTxIn) : CTxMemPool :=
  match s.mapNextTx[txin.prevout]? with
  | none => s
  | some txConflict =>
    match s.mapTx[txConflict]? with
    | none => s
    | some e => if txConflict ≠ hash then (s.remove e.tx true).clearPrioritisation txConflict else s

def removeConflicts (tx : CTransaction) : CTxMemPool := tx.vin.foldl (removeConflict tx.hash) s

/-- A turn of `removeForBlock`. -/
def removeMined (s : CTxMemPool) (tx : CTransaction) : CTxMemPool :=
  ((s.remove tx false).removeConflicts tx).clearPrioritisation tx.hash

def removeForBlock (vtx : List CTransaction) : CTxMemPool := vtx.foldl removeMined s

/-- `removeForReorg` finds transactions that are no longer final or mature. -/
def removeForReorg (transactionsToRemove : List CTransaction) : CTxMemPool :=
  transactionsToRemove.foldl (fun s tx => s.remove tx true) s

/-- `_clear`. -/
def clear : CTxMemPool := { s with mapLinks := ∅, mapTx := ∅, mapNextTx := ∅, totalTxSize := 0 }

def expire (time : Int) : CTxMemPool :=
  let toremove := ((s.mapTx.toList.filter fun it => decide (it.2.nTime < time)).map Prod.fst).toFinset
  s.removeStaged (s.calculateAllDescendants toremove)

/-- A turn of `TrimToSize` takes the entry with the lowest descendant score. -/
def trimToSize (evicted : List Uint256) : CTxMemPool :=
  evicted.foldl (fun s it => if s.mapTx.contains it then s.removeStaged (s.calculateDescendants ∅ it) else s) s

def prioritiseTransaction (hash : Uint256) (nFeeDelta : CAmount) : CTxMemPool :=
  let deltas := (s.mapDeltas[hash]?).getD 0 + nFeeDelta
  let s := { s with mapDeltas := s.mapDeltas.insert hash deltas }
  if s.mapTx.contains hash then
    let s := s.modify hash (·.updateFeeDelta deltas)
    let setAncestors := s.calculateMemPoolAncestors (s.getMemPoolParents hash)
    (setAncestors.sort (· ≤ ·)).foldl (fun s ancestorIt => s.modify ancestorIt (·.updateState 0 nFeeDelta 0)) s
  else s

/-! ## After a reorganisation -/

/-- `cacheMap`. -/
abbrev CacheMap := Map Uint256 SetEntries

/-- What the search of `UpdateForDescendants` keeps. -/
structure Visit where
  stageEntries : SetEntries
  setAllDescendants : SetEntries
  nChildrenToVisit : Nat

variable (setExclude : SetEntries)

def visitCached (v : Visit) (cacheEntry : Uint256) : Visit :=
  { v with
    setAllDescendants := insert cacheEntry v.setAllDescendants
    nChildrenToVisit := v.nChildrenToVisit +
      if cacheEntry ∉ v.setAllDescendants ∧ cacheEntry ∉ setExclude ∧ cacheEntry ∉ v.stageEntries then 1 else 0 }

def visitChild (cachedDescendants : CacheMap) (v : Visit) (childEntry : Uint256) : Visit :=
  match cachedDescendants[childEntry]? with
  | some entries => (entries.sort (· ≤ ·)).foldl (visitCached setExclude) v
  | none =>
    if childEntry ∈ v.setAllDescendants then v
    else
      { v with
        stageEntries := insert childEntry v.stageEntries
        nChildrenToVisit := v.nChildrenToVisit + if childEntry ∉ v.stageEntries ∧ childEntry ∉ setExclude then 1 else 0 }

/-- `none` where too many descendants are to be visited. -/
def visitChildren (maxDescendantsToVisit : Nat) (cachedDescendants : CacheMap) : List Uint256 → Visit → Option Visit
  | [], v => some v
  | childEntry :: rest, v =>
    let v := visitChild setExclude cachedDescendants v childEntry
    if maxDescendantsToVisit < v.nChildrenToVisit then none else visitChildren maxDescendantsToVisit cachedDescendants rest v

def dirtyAt (it : Uint256) : Bool := (s.mapTx[it]?).any CTxMemPoolEntry.isDirty

def visitLoop (maxDescendantsToVisit : Nat) (cachedDescendants : CacheMap) : Nat → Visit → Option Visit
  | 0, v => some v
  | n + 1, v =>
    match begin? v.stageEntries with
    | none => some v
    | some cit =>
      if s.dirtyAt cit then none
      else
        let v := { v with setAllDescendants := insert cit v.setAllDescendants, stageEntries := v.stageEntries.erase cit }
        (visitChildren setExclude maxDescendantsToVisit cachedDescendants ((s.getMemPoolChildren cit).sort (· ≤ ·)) v).bind
          (visitLoop maxDescendantsToVisit cachedDescendants n)

def updateForDescendants (updateIt : Uint256) (maxDescendantsToVisit : Nat) (cachedDescendants : CacheMap) :
    Option (CTxMemPool × CacheMap) :=
  (s.visitLoop setExclude maxDescendantsToVisit cachedDescendants s.mapTx.size ⟨s.getMemPoolChildren updateIt, ∅, 0⟩).map fun v =>
    let counted := v.setAllDescendants \ setExclude
    let modifySize := ∑ cit ∈ counted, (s.mapTx[cit]?).elim 0 CTxMemPoolEntry.nTxSize
    let modifyFee := ∑ cit ∈ counted, (s.mapTx[cit]?).elim 0 CTxMemPoolEntry.getModifiedFee
    (s.modify updateIt (·.updateState modifySize modifyFee counted.card),
      if counted = ∅ then cachedDescendants
      else cachedDescendants.insert updateIt ((cachedDescendants[updateIt]?).getD ∅ ∪ counted))

/-- The children that `mapNextTx` has. -/
def nextChildren (hash : Uint256) : SetEntries :=
  ((s.mapNextTx.toList.filter fun it => decide (it.1.hash = hash)).map Prod.snd).toFinset

/-- A turn of `UpdateTransactionsFromBlock`. -/
def updateFromBlock (setAlreadyIncluded : SetEntries) (s : CTxMemPool) (cached : CacheMap) (hash : Uint256) :
    CTxMemPool × CacheMap :=
  if s.mapTx.contains hash then
    let s := ((s.nextChildren hash \ setAlreadyIncluded).sort (· ≤ ·)).foldl
      (fun s childIter => (s.updateChild hash childIter true).updateParent childIter hash true) s
    match s.updateForDescendants setAlreadyIncluded hash 100 cached with
    | some r => r
    | none => (s.modify hash CTxMemPoolEntry.setDirty, cached)
  else (s, cached)

def updateTransactionsFromBlock (vHashesToUpdate : List Uint256) : CTxMemPool :=
  (vHashesToUpdate.reverse.foldl (fun (s, cached) hash => updateFromBlock vHashesToUpdate.toFinset s cached hash) (s, ∅)).1

end CTxMemPool

/-! ## The pool of a node -/

open CTxMemPool

variable (GetOutputFor : COutPoint → CTxOut)

def conflictsOf (s : CTxMemPool) (tx : CTransaction) : SetEntries :=
  (tx.vin.filterMap fun txin => s.mapNextTx[txin.prevout]?).toFinset

theorem mem_conflictsOf {s : CTxMemPool} {tx : CTransaction} {c : Uint256} :
    c ∈ conflictsOf s tx ↔ ∃ txin ∈ tx.vin, s.mapNextTx[txin.prevout]? = some c := by
  rw [conflictsOf, List.mem_toFinset, List.mem_filterMap]

/-- What `AcceptToMemoryPool` asks of a transaction that meets the rules which are not about
    the pool. -/
def accepts (s : CTxMemPool) (entry : CTxMemPoolEntry) : Bool :=
  checkTransaction entry.tx && !entry.tx.isCoinBase && !s.mapTx.contains entry.tx.hash &&
    decide (Disjoint (s.calculateMemPoolAncestors (s.parentsOf entry.tx)) (conflictsOf s entry.tx))

theorem accepts_iff {s : CTxMemPool} {entry : CTxMemPoolEntry} :
    accepts s entry = true ↔ checkTransaction entry.tx = true ∧ entry.tx.isCoinBase = false ∧ s.mapTx[entry.tx.hash]? = none ∧
      Disjoint (s.calculateMemPoolAncestors (s.parentsOf entry.tx)) (conflictsOf s entry.tx) := by
  simp only [accepts, Bool.and_eq_true, Bool.not_eq_true', decide_eq_true_eq, contains_eq_false_iff, and_assoc]

/-- `AcceptToMemoryPool`; the size limit comes after. -/
def acceptToMemoryPool (s : CTxMemPool) (entry : CTxMemPoolEntry) : CTxMemPool :=
  if accepts s entry then
    let setAncestors := s.calculateMemPoolAncestors (s.parentsOf entry.tx)
    let s := s.removeStaged (s.calculateAllDescendants (conflictsOf s entry.tx))
    let s := s.addUnchecked entry setAncestors
    (s.addAddressIndex GetOutputFor entry).addSpentIndex GetOutputFor entry
  else s

/-- A transaction of a disconnected block; with its entry, if it meets the other rules again. -/
structure Resurrected where
  tx : CTransaction
  entry : Option (CAmount × Int × Nat)

/-- A turn over the block's transactions, with `vHashUpdate`. -/
def resurrect (acc : CTxMemPool × List Uint256) (r : Resurrected) : CTxMemPool × List Uint256 :=
  match r.entry with
  | none => (acc.1.remove r.tx true, acc.2)
  | some (nFee, nTime, nTxSize) =>
    let entry := .new r.tx nFee nTime nTxSize
    if accepts acc.1 entry then (acceptToMemoryPool GetOutputFor acc.1 entry, acc.2 ++ [r.tx.hash]) else (acc.1.remove r.tx true, acc.2)

/-- What `DisconnectTip` does with the transactions of the block. -/
def disconnectBlock (s : CTxMemPool) (vtx : List Resurrected) : CTxMemPool :=
  let acc := vtx.foldl (resurrect GetOutputFor) (s, [])
  acc.1.updateTransactionsFromBlock acc.2

inductive MempoolEvent
  | accept (tx : CTransaction) (nFee : CAmount) (nTime : Int) (nTxSize : Nat)
  | remove (tx : CTransaction) (fRecursive : Bool)
  | removeConflicts (tx : CTransaction)
  | removeForBlock (vtx : List CTransaction)
  | removeForReorg (txs : List CTransaction)
  | expire (time : Int)
  | trimToSize (evicted : List Uint256)
  | prioritise (hash : Uint256) (nFeeDelta : CAmount)
  | disconnectBlock (vtx : List Resurrected)
  | clear

def mempoolStep (s : CTxMemPool) : MempoolEvent → CTxMemPool
  | .accept tx nFee nTime nTxSize => acceptToMemoryPool GetOutputFor s (.new tx nFee nTime nTxSize)
  | .remove tx fRecursive => s.remove tx fRecursive
  | .removeConflicts tx => s.removeConflicts tx
  | .removeForBlock vtx => s.removeForBlock vtx
  | .removeForReorg txs => s.removeForReorg txs
  | .expire time => s.expire time
  | .trimToSize evicted => s.trimToSize evicted
  | .prioritise hash nFeeDelta => s.prioritiseTransaction hash nFeeDelta
  | .disconnectBlock vtx => Mempool.disconnectBlock GetOutputFor s vtx
  | .clear => s.clear

end Zumy.Mempool
