/-
  Zumy.Blocks.ChainState — the active chain and the coins behind it (main.cpp).

  `chainActive` is the list of the blocks above the genesis block, the tip first; what is
  connected to or disconnected from it goes through a new cache over `pcoinsTip`. A block's
  index entry is known by the block and those before it. The undo data is in its file from
  the first time a block is connected.

  An event's `rules` and `isFinal` say what is asked of a block that is not in the model:
  scripts, fees, signature operations, locks, rewards and payments; and lock times.
-/
import Mathlib.Data.Nat.Digits.Lemmas
import Zumy.Blocks.Caches

namespace Zumy.Blocks

open Zumy.Coins Zumy.Lib CoinsView

structure ChainBlock where
  block : CBlock
  hash_ne : block.hash ≠ 0
  deriving DecidableEq

structure ChainParams where
  flags : IndexFlags
  nMajorityEnforceBlockUpgrade : Nat
  nMajorityWindow : Nat
  genesis : ChainBlock

variable (params : ChainParams)

/-! ## The height in the coinbase -/

/-- `CScriptNum::serialize` of a height. -/
def serializeHeight (nHeight : Nat) : List UInt8 :=
  let result := (Nat.digits 256 nHeight).map UInt8.ofNat
  if result.getLast?.any (128 ≤ ·) then result ++ [0] else result

/-- `CScript() << nHeight`; no height is -1 or has 75 bytes. -/
def scriptHeight (nHeight : Nat) : CScript :=
  if 1 ≤ nHeight ∧ nHeight ≤ 16 then [UInt8.ofNat (nHeight + 0x50)]
  else if nHeight = 0 then [0]
  else UInt8.ofNat (serializeHeight nHeight).length :: serializeHeight nHeight

/-- The loop of `IsSuperMajority`, over the versions of the blocks from `pstart` back. -/
def countMajority (minVersion : Int) (nRequired : Nat) : Nat → Nat → List Int → Nat
  | 0, nFound, _ => nFound
  | _, nFound, [] => nFound
  | i + 1, nFound, nVersion :: pstart =>
    if nFound < nRequired then countMajority minVersion nRequired i (if minVersion ≤ nVersion then nFound + 1 else nFound) pstart else nFound

def isSuperMajority (minVersion : Int) (pstart : List Int) (nRequired : Nat) : Bool :=
  decide (nRequired ≤ countMajority minVersion nRequired params.nMajorityWindow 0 pstart)

def versions (chain : List ChainBlock) : List Int := chain.map (·.block.nVersion) ++ [params.genesis.block.nVersion]

/-- Whether the coinbase of a block behind `chain` has to start with its height. -/
def heightEnforced (chain : List ChainBlock) (block : CBlock) : Bool :=
  decide (2 ≤ block.nVersion) && isSuperMajority params 2 (versions params chain) params.nMajorityEnforceBlockUpgrade

def startsWithHeight (nHeight : Nat) (block : CBlock) : Bool :=
  match block.vtx with
  | [] => false
  | coinbase :: _ =>
    match coinbase.vin with
    | [] => false
    | txin :: _ => (scriptHeight nHeight).isPrefixOf txin.scriptSig

def contextualCheckBlock (isFinal : Bool) (chain : List ChainBlock) (block : CBlock) : Bool :=
  isFinal && (!heightEnforced params chain block || startsWithHeight (chain.length + 1) block)

/-! ## The chain state -/

def tipHash (chain : List ChainBlock) : Uint256 := (chain.headD params.genesis).block.hash

/-- The index entry of a block behind `chain`. -/
def indexOf (chain : List ChainBlock) (b : ChainBlock) : CBlockIndex where
  hash := b.block.hash
  hashPrev := tipHash params chain
  nHeight := chain.length + 1
  nHeight_pos := Nat.succ_pos _
  hash_ne := b.hash_ne
  hashPrev_ne := (chain.headD params.genesis).hash_ne

structure ChainState where
  chainActive : List ChainBlock
  /-- What is in the undo files, of the blocks with their ancestors. -/
  undo : List ChainBlock → Option (List (List StoredInput))
  /-- `pcoinsTip` over the database. -/
  view : View

/-- A new cache over the view: `CCoinsViewCache view(pcoinsTip)`. -/
def newCache (s : View) : View := { s with caches := .new :: s.caches }

/-- Its `Flush`, and the end of its scope. -/
def flushCache (s : View) : View := { s.flush with caches := s.flush.caches.tail }

def connectTip (isFinal : Bool) (rules : Rules) (b : ChainBlock) (s : ChainState) : Option ChainState := do
  if !contextualCheckBlock params isFinal s.chainActive b.block then none
  -- the genesis block is in every chain already
  else if b.block.hash = params.genesis.block.hash then none
  else
    let c ← connectBlock params.flags rules b.block (indexOf params s.chainActive b) (newCache s.view)
    let chain := b :: s.chainActive
    some {
      chainActive := chain
      -- an entry with undo data keeps it
      undo := if (s.undo chain).isSome then s.undo else Function.update s.undo chain (some c.undo)
      view := flushCache c.view }

/-- `DisconnectTip` asks for no `pfClean`: what is not clean is an error. -/
def disconnectTip (s : ChainState) : Option ChainState :=
  match s.chainActive with
  | [] => none
  | b :: chain => do
    let stored ← s.undo (b :: chain)
    let d ← disconnectBlock params.flags b.block (indexOf params chain b) stored (newCache s.view)
    if !d.fClean then none else some { s with chainActive := chain, view := flushCache d.view }

inductive ChainEvent
  | connect (isFinal : Bool) (rules : Rules) (b : ChainBlock)
  | disconnect
  /-- What else is done to `pcoinsTip`: reads, also of a block that fails to connect, `Uncache` and `Flush`. -/
  | read (txid : Uint256)
  | uncache (txid : Uint256)
  | flush

def chainStep (s : ChainState) : ChainEvent → Option ChainState
  | .connect isFinal rules b => connectTip params isFinal rules b s
  | .disconnect => disconnectTip params s
  | .read txid => some { s with view := (s.view.getCoins txid).2 }
  | .uncache txid => some { s with view := s.view.uncache txid }
  | .flush => some { s with view := s.view.flush }

theorem empty_unpruned (txid : Uint256) (c : CCoins) (h : (∅ : Map Uint256 CCoins)[txid]? = some c) : c.isPruned = false := by
  simp at h

def chainStart : ChainState where
  chainActive := []
  undo := fun _ => none
  view := ⟨[.new], ⟨∅, params.genesis.block.hash, empty_unpruned⟩⟩

/-! ## A cache over `pcoinsTip` -/

variable {s t : View} {f : FlatView} {below : Uint256 → Option CCoins} {n : Nat}

def IsTip (s : View) (f : FlatView) : Prop := ∃ below, Stands 1 below s f

theorem Stands.newCache (h : Stands n below s f) : Stands (n + 1) f.coins (newCache s) f where
  coherent := ⟨h.coherent, fun txid it hit => by simp [CCoinsViewCache.new] at hit⟩
  coins := by
    rw [← h.coins]
    exact contents_emptied (c := .new)
  block := by
    rw [← h.block]
    change (Blocks.newCache s).getBestBlock.1 = s.getBestBlock.1
    rw [getBestBlock_eq, getBestBlock_eq]
    rfl
  top := ⟨.new, s.caches, rfl, h.coins⟩
  depth := congrArg (· + 1) h.depth

theorem Stands.flushCache {hashBlock : Uint256} (h : Stands 2 below s f) (hne : hashBlock ≠ 0) :
    IsTip (flushCache (CoinsView.setBestBlock s hashBlock)) ⟨f.coins, hashBlock⟩ := by
  obtain ⟨c, cs, hcaches, -⟩ := h.top
  obtain ⟨caches, db⟩ := s
  change caches = c :: cs at hcaches
  subst hcaches
  obtain ⟨d, rfl⟩ : ∃ d, cs = [d] := List.length_eq_one_iff.1 (Nat.succ.inj h.depth)
  have hcoherent : Coherent db ({ c with hashBlock } :: [d]) := h.coherent
  have hspec := batchWrite_spec hcoherent hashBlock
  refine ⟨contents db [], hspec.2, hspec.1.trans h.coins, ?_, ⟨_, [], rfl, rfl⟩, rfl⟩
  change (View.mk [d.batchWrite c.cacheCoins hashBlock] db).getBestBlock.1 = hashBlock
  rw [getBestBlock_eq]
  simp [bestOf, CCoinsViewCache.batchWrite, hne]

theorem IsTip.read (h : IsTip s f) (txid : Uint256) : IsTip (s.getCoins txid).2 f := by
  obtain ⟨below, h⟩ := h
  exact ⟨below, h.getCoins txid⟩

theorem IsTip.uncache (h : IsTip s f) (txid : Uint256) : IsTip (s.uncache txid) f := by
  obtain ⟨below, h⟩ := h
  obtain ⟨caches, db⟩ := s
  obtain ⟨c, rfl⟩ : ∃ c, caches = [c] := List.length_eq_one_iff.1 h.depth
  obtain ⟨caches', heq, hsame, hcoherent⟩ := uncache_spec h.coherent txid
  have hhash : ∃ c', caches' = [c'] ∧ c'.hashBlock = c.hashBlock := by
    unfold View.uncache at heq
    dsimp only at heq
    split at heq
    · split at heq
      · cases heq
        exact ⟨c, rfl, rfl⟩
      · cases heq
        exact ⟨_, rfl, rfl⟩
    · cases heq
      exact ⟨c, rfl, rfl⟩
  obtain ⟨c', rfl, hblock⟩ := hhash
  rw [heq]
  refine ⟨contents db [], hcoherent, hsame.trans h.coins, ?_, ⟨c', [], rfl, rfl⟩, rfl⟩
  rw [← h.block]
  change (View.mk [c'] db).getBestBlock.1 = (View.mk [c] db).getBestBlock.1
  rw [getBestBlock_eq, getBestBlock_eq, List.map_singleton, List.map_singleton, hblock]

theorem IsTip.flush (h : IsTip s f) : IsTip s.flush f := by
  obtain ⟨below, h⟩ := h
  obtain ⟨caches, db⟩ := s
  obtain ⟨c, rfl⟩ : ∃ c, caches = [c] := List.length_eq_one_iff.1 h.depth
  obtain ⟨hsame, hcoherent⟩ := flush_spec h.coherent
  refine ⟨_, hcoherent, hsame.trans h.coins, ?_, ⟨_, [], rfl, rfl⟩, rfl⟩
  rw [← h.block]
  change (View.flush ⟨[c], db⟩).getBestBlock.1 = (View.mk [c] db).getBestBlock.1
  rw [getBestBlock_eq, getBestBlock_eq]
  by_cases hnull : c.hashBlock = 0
  · simp [View.flush, bestOf, CCoinsViewDB.batchWrite, hnull]
  · simp [View.flush, bestOf, hnull]

end Zumy.Blocks
