/-
  Zumy.BlockIndex.Model — chain.h, chain.cpp, main.cpp: the tree of known blocks, the
  candidates for the tip, and how the best of them becomes the tip of the active chain.

  An entry is known by its address, by which the comparator breaks ties. A block stands at
  its height in the active chain, so `Contains` is membership. `GetAncestor` follows `pprev`;
  the skip pointers, which lead to the same entries, are left out. A step is undefined where
  an assertion fails or a null pointer is followed.

  What a block does to the coins decides whether it is connected: a `Round` says, for one
  turn of `ActivateBestChain`, what becomes of each block it disconnects and connects, and
  which block files `FlushStateToDisk` prunes meanwhile. Nothing else runs between the turns.
-/
import Mathlib.Data.List.MinMax
import Mathlib.Data.Prod.Lex
import Mathlib.Algebra.Order.Ring.Int
import Zumy.Lib.Tree

namespace Zumy.BlockIndex

open Zumy.Lib

/-- The address of an entry of `mapBlockIndex`. -/
abbrev BlockPtr := Nat

def blockValidTree : Nat := 2
def blockValidTransactions : Nat := 3
def blockValidScripts : Nat := 5

/-- `nStatus`: the bits of `BLOCK_VALID_MASK`, and the flags. -/
structure BlockStatus where
  valid : Nat
  haveData : Bool
  haveUndo : Bool
  failedValid : Bool
  failedChild : Bool
  deriving DecidableEq

/-- `BLOCK_FAILED_MASK`. -/
def BlockStatus.failed (nStatus : BlockStatus) : Bool := nStatus.failedValid || nStatus.failedChild

structure CBlockIndex where
  pprev : Option BlockPtr
  nHeight : Int
  nFile : Nat
  nChainWork : Nat
  nTx : Nat
  nChainTx : Nat
  nStatus : BlockStatus
  nSequenceId : Nat
  deriving DecidableEq

namespace CBlockIndex

def isValid (nUpTo : Nat) (b : CBlockIndex) : Bool := !b.nStatus.failed && decide (nUpTo ≤ b.nStatus.valid)

def raiseValidity (nUpTo : Nat) (b : CBlockIndex) : CBlockIndex :=
  if b.nStatus.failed then b
  else if b.nStatus.valid < nUpTo then { b with nStatus := { b.nStatus with valid := nUpTo } }
  else b

def pruned (b : CBlockIndex) : CBlockIndex :=
  { b with nStatus := { b.nStatus with haveData := false, haveUndo := false }, nFile := 0 }

end CBlockIndex

structure IndexState where
  /-- What a pointer points to. -/
  blocks : BlockPtr → CBlockIndex
  /-- The entries of the map. -/
  mapBlockIndex : List BlockPtr
  /-- The active chain, the tip first. -/
  chainActive : List BlockPtr
  setBlockIndexCandidates : List BlockPtr
  mapBlocksUnlinked : List (Option BlockPtr × BlockPtr)
  pindexBestInvalid : Option BlockPtr

namespace IndexState

variable (s : IndexState)

def pprev (p : BlockPtr) : Option BlockPtr := (s.blocks p).pprev

def tip : Option BlockPtr := s.chainActive.head?

/-- `chainActive.Contains`. -/
def contains (p : BlockPtr) : Bool := decide (p ∈ s.chainActive)

def modify (p : BlockPtr) (f : CBlockIndex → CBlockIndex) : IndexState :=
  { s with blocks := Function.update s.blocks p (f (s.blocks p)) }

theorem modify_blocks (p q : BlockPtr) (f : CBlockIndex → CBlockIndex) :
    (s.modify p f).blocks q = if q = p then f (s.blocks p) else s.blocks q := Function.update_apply ..

def modifyStatus (p : BlockPtr) (f : BlockStatus → BlockStatus) : IndexState :=
  s.modify p fun b => { b with nStatus := f b.nStatus }

def eraseCandidate (p : BlockPtr) : IndexState :=
  { s with setBlockIndexCandidates := s.setBlockIndexCandidates.filter (· ≠ p) }

def turns (p : BlockPtr) : Nat := (s.blocks p).nHeight.toNat + 1

def getAncestor (p : BlockPtr) (height : Int) : Option (Option BlockPtr) :=
  if (s.blocks p).nHeight < height ∨ height < 0 then some none
  else (climb s.pprev (fun q => decide ((s.blocks q).nHeight ≤ height)) (s.turns p) (some p)).map Prod.snd

/-- The last block of the active chain on the way from the genesis block to an entry. -/
def findFork (p : BlockPtr) : Option (Option BlockPtr) := (climb s.pprev s.contains (s.turns p) (some p)).map Prod.snd

/-! ## The candidates -/

/-- `CBlockIndexWorkComparator`: `pa` is the worse one. -/
def blockIndexWorkComparator (pa pb : BlockPtr) : Bool :=
  -- First sort by most total work, ...
  if (s.blocks pa).nChainWork > (s.blocks pb).nChainWork then false
  else if (s.blocks pa).nChainWork < (s.blocks pb).nChainWork then true
  -- ... then by earliest time received, ...
  else if (s.blocks pa).nSequenceId < (s.blocks pb).nSequenceId then false
  else if (s.blocks pa).nSequenceId > (s.blocks pb).nSequenceId then true
  -- Use pointer address as tie breaker.
  else if pa < pb then false
  else if pa > pb then true
  else false

def workKey (p : BlockPtr) : Nat ×ₗ (Natᵒᵈ ×ₗ Natᵒᵈ) :=
  toLex ((s.blocks p).nChainWork, toLex (OrderDual.toDual (s.blocks p).nSequenceId, OrderDual.toDual p))

/-- `*setBlockIndexCandidates.rbegin()`. -/
def rbegin : Option BlockPtr := s.setBlockIndexCandidates.argmax s.workKey

/-- `PruneBlockIndexCandidates`: the worse ones are at the beginning. -/
def pruneBlockIndexCandidates : Option IndexState :=
  s.tip.bind fun tip =>
    let candidates := s.setBlockIndexCandidates.filter fun p => !s.blockIndexWorkComparator p tip
    if candidates = [] then none else some { s with setBlockIndexCandidates := candidates }

def noteInvalid (p : BlockPtr) : IndexState :=
  if s.pindexBestInvalid.all fun b => decide ((s.blocks b).nChainWork < (s.blocks p).nChainWork) then
    { s with pindexBestInvalid := some p }
  else s

def invalidChainFound (pindexNew : BlockPtr) : Option IndexState :=
  s.tip.map fun _ => s.noteInvalid pindexNew

/-- `InvalidBlockFound` of a block that violates a rule. -/
def invalidBlockFound (pindex : BlockPtr) (corruptionPossible : Bool) : Option IndexState :=
  if corruptionPossible then some s
  else ((s.modifyStatus pindex ({ · with failedValid := true })).eraseCandidate pindex).invalidChainFound pindex

/-! ## Pruning -/

/-- A turn of `PruneOneBlockFile`. -/
def pruneEntry (fileNumber : Nat) (s : IndexState) (pindex : BlockPtr) : IndexState :=
  if (s.blocks pindex).nFile = fileNumber then
    { s.modify pindex CBlockIndex.pruned with
      mapBlocksUnlinked := s.mapBlocksUnlinked.filter (· ≠ (s.pprev pindex, pindex)) }
  else s

def pruneOneBlockFile (s : IndexState) (fileNumber : Nat) : IndexState := s.mapBlockIndex.foldl (pruneEntry fileNumber) s

/-- `FlushStateToDisk` prunes some block files. -/
def pruneFiles (files : List Nat) : IndexState := files.foldl pruneOneBlockFile s

/-! ## `FindMostWorkChain` -/

/-- The walk down from the candidate `pindexNew`: the first block outside of the active chain
    that has failed or has no data. -/
def pindexTest (pindexNew : BlockPtr) : Option (Option BlockPtr) :=
  let fLinked p := decide ((s.blocks p).nChainTx ≠ 0 ∨ (s.blocks p).nHeight = 0)
  let fUnusable p := (s.blocks p).nStatus.failed || !(s.blocks p).nStatus.haveData
  (climb s.pprev (fun p => s.contains p || !fLinked p || fUnusable p) (s.turns pindexNew) (some pindexNew)).bind fun (_, o) =>
    match o with
    | none => some none
    | some p => if s.contains p then some none else if fLinked p then some (some p) else none

def discardEntry (fFailedChain : Bool) (s : IndexState) (pindexFailed : BlockPtr) : IndexState :=
  let s :=
    if fFailedChain then s.modifyStatus pindexFailed ({ · with failedChild := true })
    else { s with mapBlocksUnlinked := s.mapBlocksUnlinked ++ [(s.pprev pindexFailed, pindexFailed)] }
  s.eraseCandidate pindexFailed

def discard (pindexNew pindexTest : BlockPtr) : Option IndexState :=
  let fFailedChain := (s.blocks pindexTest).nStatus.failed
  (climb s.pprev (fun p => decide (p = pindexTest)) (s.turns pindexNew) (some pindexNew)).map fun (passed, _) =>
    let s := if fFailedChain then s.noteInvalid pindexNew else s
    (passed.foldl (discardEntry fFailedChain) s).eraseCandidate pindexTest

def findMostWorkLoop : Nat → IndexState → Option (IndexState × Option BlockPtr)
  | 0, _ => none
  | n + 1, s =>
    match s.rbegin with
    | none => some (s, none)
    | some pindexNew =>
      (s.pindexTest pindexNew).bind fun
        | none => some (s, some pindexNew)
        | some pindexTest => (s.discard pindexNew pindexTest).bind (findMostWorkLoop n)

def findMostWorkChain : Option (IndexState × Option BlockPtr) := findMostWorkLoop (s.setBlockIndexCandidates.length + 1) s

end IndexState

/-! ## `ActivateBestChain` -/

/-- What becomes of a block that is disconnected; block files are pruned with either. -/
inductive DisconnectOutcome
  | disconnected (files : List Nat)
  | failed (files : List Nat)

inductive ConnectOutcome
  | connected (files : List Nat)
  | notFlushed (files : List Nat)
  /-- The block violates a consensus rule. -/
  | invalid (corruptionPossible : Bool)
  /-- A system error, behind or before the undo data was written. -/
  | failed (wroteUndo : Bool)

structure Round where
  disconnect : BlockPtr → DisconnectOutcome
  connect : BlockPtr → ConnectOutcome
  /-- The last `FlushStateToDisk`. -/
  flushed : Bool
  files : List Nat

inductive Progress
  | more
  /-- We're in a better position than we were. -/
  | better
  | invalid (corruptionPossible : Bool)
  | error
  deriving DecidableEq

def Progress.isInvalid : Progress → Bool
  | .invalid _ => true
  | _ => false

inductive Returned
  | shutdown
  | returned (ok : Bool)
  deriving DecidableEq

namespace IndexState

variable (s : IndexState)

def disconnectTip (outcome : BlockPtr → DisconnectOutcome) : Option (IndexState × Bool) :=
  match s.chainActive with
  | [] => none
  | pindexDelete :: rest =>
    match outcome pindexDelete with
    | .disconnected files => some ({ s.pruneFiles files with chainActive := rest }, true)
    | .failed files => some (s.pruneFiles files, false)

def disconnectTo (outcome : BlockPtr → DisconnectOutcome) (pindexFork : Option BlockPtr) :
    Nat → IndexState → Option (IndexState × Bool)
  | 0, s => some (s, true)
  | n + 1, s =>
    if s.tip = none ∨ s.tip = pindexFork then some (s, true)
    else (s.disconnectTip outcome).bind fun (s, ok) => if ok then disconnectTo outcome pindexFork n s else some (s, false)

/-- What `ConnectBlock` notes of a block with its undo data. -/
def noteUndo (pindex : BlockPtr) : IndexState :=
  let b := s.blocks pindex
  if b.pprev.isSome && (!b.nStatus.haveUndo || !b.isValid blockValidScripts) then
    s.modify pindex fun b => { b with nStatus := { b.nStatus with haveUndo := true } }.raiseValidity blockValidScripts
  else s

def connectTip (outcome : BlockPtr → ConnectOutcome) (pindexNew : BlockPtr) : Option (IndexState × Progress) :=
  if s.pprev pindexNew = s.tip then
    match outcome pindexNew with
    | .connected files => some ({ (s.noteUndo pindexNew).pruneFiles files with chainActive := pindexNew :: s.chainActive }, .more)
    | .notFlushed files => some ((s.noteUndo pindexNew).pruneFiles files, .error)
    | .invalid corruptionPossible => (s.invalidBlockFound pindexNew corruptionPossible).map fun s => (s, .invalid corruptionPossible)
    | .failed wroteUndo => some (if wroteUndo then s.noteUndo pindexNew else s, .error)
  else none

/-- Connect new blocks. `back` is the last of `vpindexToConnect`. -/
def connectBlocks (outcome : BlockPtr → ConnectOutcome) (pindexOldTip : Option BlockPtr) (back : BlockPtr) :
    List BlockPtr → IndexState → Option (IndexState × Progress)
  | [], s => some (s, .more)
  | pindexConnect :: rest, s =>
    (s.connectTip outcome pindexConnect).bind fun (s, progress) =>
      match progress with
      | .invalid corruptionPossible => (if corruptionPossible then some s else s.invalidChainFound back).map fun s => (s, progress)
      | .more =>
        s.pruneBlockIndexCandidates.bind fun s =>
          if pindexOldTip.all fun old => decide ((s.blocks old).nChainWork < (s.blocks pindexConnect).nChainWork) then some (s, .better)
          else connectBlocks outcome pindexOldTip back rest s
      | _ => some (s, progress)

/-- The blocks up to 32 above `nHeight` on the way to `pindexMostWork`, the highest first. -/
def vpindexToConnect (pindexMostWork : BlockPtr) (nHeight nTargetHeight : Int) : Option (List BlockPtr) :=
  (s.getAncestor pindexMostWork nTargetHeight).bind fun pindexIter =>
    (climb s.pprev (fun p => decide ((s.blocks p).nHeight = nHeight)) (s.turns pindexMostWork) pindexIter).map Prod.fst

def connectLoop (outcome : BlockPtr → ConnectOutcome) (pindexOldTip : Option BlockPtr) (pindexMostWork : BlockPtr) :
    Nat → Int → IndexState → Option (IndexState × Progress)
  | n, nHeight, s =>
    if nHeight = (s.blocks pindexMostWork).nHeight then some (s, .more)
    else
      match n with
      | 0 => none
      | n + 1 =>
        let nTargetHeight := min (nHeight + 32) (s.blocks pindexMostWork).nHeight
        (s.vpindexToConnect pindexMostWork nHeight nTargetHeight).bind fun vpindexToConnect =>
          match vpindexToConnect.getLast? with
          | none => connectLoop outcome pindexOldTip pindexMostWork n nTargetHeight s
          | some back =>
            (connectBlocks outcome pindexOldTip back vpindexToConnect.reverse s).bind fun (s, progress) =>
              if progress = .more then connectLoop outcome pindexOldTip pindexMostWork n nTargetHeight s else some (s, progress)

def activateBestChainStep (round : Round) (pindexMostWork : BlockPtr) : Option (IndexState × Bool × Bool) :=
  (s.findFork pindexMostWork).bind fun pindexFork =>
    (disconnectTo round.disconnect pindexFork s.chainActive.length s).bind fun (t, ok) =>
      if ok then
        let nHeight := pindexFork.elim (-1) fun p => (s.blocks p).nHeight
        (connectLoop round.connect s.tip pindexMostWork (s.turns pindexMostWork) nHeight t).map fun (s, progress) =>
          (s, decide (progress ≠ .error), progress.isInvalid)
      else some (t, false, false)

def activateBestChain : List Round → Option BlockPtr → IndexState → Option (IndexState × Returned)
  | [], _, s => some (s, .shutdown)
  | round :: rounds, pindexMostWork, s =>
    (match pindexMostWork with
      | none => s.findMostWorkChain
      | some p => some (s, some p)).bind fun
    | (s, none) => some (s, .returned true)
    | (s, some pindexMostWork) =>
      if s.tip = some pindexMostWork then some (s, .returned true)
      else
        (s.activateBestChainStep round pindexMostWork).bind fun (s, ok, fInvalidFound) =>
          if ok then
            let pindexMostWork := if fInvalidFound then none else some pindexMostWork
            if s.tip = pindexMostWork then some (s.pruneFiles round.files, .returned round.flushed)
            else activateBestChain rounds pindexMostWork s
          else some (s, .returned false)

end IndexState

end Zumy.BlockIndex
