/-
  Zumy.Coins.Model — coins.h, coins.cpp: the unspent outputs of a transaction, and the views
  of all of them.

  A stack of `CCoinsViewCache`s stands over one `CCoinsViewDB`; the top comes first. `GetCoins`
  fills the caches it passes, so it returns the caches too. A `CCoinsModifier` lives for one
  modification: `modifyCoins` and `modifyNewCoins` take what its holder does to the coins,
  and end with its destructor. The count of memory in use is left out.

  A coin of the database is read back as it was written.
-/
import Zumy.Primitives
import Zumy.Lib.OrdMap
import Mathlib.Data.List.DropRight

namespace Zumy.Coins

structure CTransaction extends Zumy.CTransaction where
  nVersion : Int
  deriving DecidableEq, Repr, Inhabited

end Zumy.Coins

namespace Zumy

def CTxOut.null : CTxOut := ⟨-1, []⟩

def CTxOut.isNull (out : CTxOut) : Bool := out.nValue == -1

/-- `OP_RETURN`. -/
def opReturn : UInt8 := 0x6a

def isUnspendable (scriptPubKey : CScript) : Bool := scriptPubKey.head? == some opReturn

end Zumy

namespace Zumy.Coins

open Zumy.Lib

structure CCoins where
  fCoinBase : Bool
  vout : List CTxOut
  nHeight : Int
  nVersion : Int
  deriving DecidableEq, Repr

namespace CCoins

def empty : CCoins := ⟨false, [], 0, 0⟩

/-- Spent outputs at the end of `vout` are dropped. -/
def cleanup (c : CCoins) : CCoins := { c with vout := c.vout.rdropWhile CTxOut.isNull }

def clearUnspendable (c : CCoins) : CCoins :=
  cleanup { c with vout := c.vout.map fun out => if isUnspendable out.scriptPubKey then .null else out }

def fromTx (tx : CTransaction) (nHeight : Int) : CCoins := clearUnspendable ⟨tx.isCoinBase, tx.vout, nHeight, tx.nVersion⟩

def isAvailable (c : CCoins) (nPos : Nat) : Bool := c.vout[nPos]?.any fun out => !out.isNull

def isPruned (c : CCoins) : Bool := c.vout.all CTxOut.isNull

/-- `Spend`, its answer left out: an output that is not there leaves the coins as they are. -/
def spend (c : CCoins) (nPos : Nat) : CCoins :=
  if c.isAvailable nPos then cleanup { c with vout := c.vout.set nPos .null } else c

/-- `operator==`: empty coins are always equal. -/
def beq (a b : CCoins) : Bool := (a.isPruned && b.isPruned) || decide (a = b)

def unspent (c : CCoins) : Option CCoins := if c.isPruned then none else some c

end CCoins

structure CCoinsCacheEntry where
  coins : CCoins
  /-- The flag `DIRTY`. -/
  dirty : Bool
  /-- The flag `FRESH`. -/
  fresh : Bool
  deriving DecidableEq

structure CCoinsViewCache where
  cacheCoins : Map Uint256 CCoinsCacheEntry
  /-- Null until it is read from the view below. -/
  hashBlock : Uint256

def CCoinsViewCache.new : CCoinsViewCache := ⟨∅, 0⟩

/-- The coin database: only coins with an unspent output are ever written to it. -/
structure CCoinsViewDB where
  coins : Map Uint256 CCoins
  hashBestBlock : Uint256
  unpruned : ∀ (txid : Uint256) (c : CCoins), coins[txid]? = some c → c.isPruned = false

/-- `BatchWrite` of the database on one entry. -/
def CCoinsViewDB.write (coins : Map Uint256 CCoins) (it : Uint256 × CCoinsCacheEntry) : Map Uint256 CCoins :=
  if it.2.dirty then if it.2.coins.isPruned then coins.erase it.1 else coins.insert it.1 it.2.coins
  else coins

theorem CCoinsViewDB.write_unpruned {coins : Map Uint256 CCoins} (it : Uint256 × CCoinsCacheEntry)
    (h : ∀ (txid : Uint256) (c : CCoins), coins[txid]? = some c → c.isPruned = false) (txid : Uint256) (c : CCoins)
    (hc : (CCoinsViewDB.write coins it)[txid]? = some c) : c.isPruned = false := by
  unfold CCoinsViewDB.write at hc
  split at hc
  · split at hc
    · exact h txid c (of_lookup_erase hc)
    · next hunspent =>
      rw [lookup_insert] at hc
      split at hc
      · cases hc
        exact Bool.eq_false_iff.2 hunspent
      · exact h txid c hc
  · exact h txid c hc

def CCoinsViewDB.batchWrite (db : CCoinsViewDB) (mapCoins : Map Uint256 CCoinsCacheEntry) (hashBlock : Uint256) :
    CCoinsViewDB where
  coins := mapCoins.toList.foldl CCoinsViewDB.write db.coins
  hashBestBlock := if hashBlock = 0 then db.hashBestBlock else hashBlock
  unpruned := by
    apply List.foldlRecOn (motive := fun coins : Map Uint256 CCoins =>
      ∀ (txid : Uint256) (c : CCoins), coins[txid]? = some c → c.isPruned = false) _ _ db.unpruned
    exact fun _ h it _ => CCoinsViewDB.write_unpruned it h

/-- `CCoinsViewCache::BatchWrite` on one entry of the child. -/
def CCoinsViewCache.write (cacheCoins : Map Uint256 CCoinsCacheEntry) (it : Uint256 × CCoinsCacheEntry) :
    Map Uint256 CCoinsCacheEntry :=
  if it.2.dirty then
    match cacheCoins[it.1]? with
    | none =>
      -- an entry that is fresh and pruned in the child needs no entry here
      if it.2.fresh && it.2.coins.isPruned then cacheCoins
      else cacheCoins.insert it.1 ⟨it.2.coins, true, it.2.fresh⟩
    | some itUs =>
      if itUs.fresh && it.2.coins.isPruned then cacheCoins.erase it.1
      else cacheCoins.insert it.1 ⟨it.2.coins, true, itUs.fresh⟩
  else cacheCoins

def CCoinsViewCache.batchWrite (c : CCoinsViewCache) (mapCoins : Map Uint256 CCoinsCacheEntry) (hashBlock : Uint256) :
    CCoinsViewCache :=
  ⟨mapCoins.toList.foldl CCoinsViewCache.write c.cacheCoins, hashBlock⟩

/-- `CCoinsModifier`'s destructor, with the entry it refers to. -/
def CCoinsViewCache.endModifier (c : CCoinsViewCache) (txid : Uint256) (it : CCoinsCacheEntry) : CCoinsViewCache :=
  let coins := it.coins.cleanup
  { c with cacheCoins := if it.fresh && coins.isPruned then c.cacheCoins.erase txid else c.cacheCoins.insert txid { it with coins } }

structure View where
  caches : List CCoinsViewCache
  db : CCoinsViewDB

namespace View

/-- `FetchCoins` of the top cache, or `GetCoins` of the database where there is none. -/
def fetchCoins (db : CCoinsViewDB) (txid : Uint256) : List CCoinsViewCache → Option CCoins × List CCoinsViewCache
  | [] => (db.coins[txid]?, [])
  | c :: below =>
    match c.cacheCoins[txid]? with
    | some it => (some it.coins, c :: below)
    | none =>
      match fetchCoins db txid below with
      | (none, below) => (none, c :: below)
      | (some tmp, below) =>
        -- the parent only has an empty entry: our version is fresh
        (some tmp, { c with cacheCoins := c.cacheCoins.insert txid ⟨tmp, false, tmp.isPruned⟩ } :: below)

/-- `GetCoins`, and `AccessCoins` with the pointer's coins. -/
def getCoins (s : View) (txid : Uint256) : Option CCoins × View :=
  ((fetchCoins s.db txid s.caches).1, { s with caches := (fetchCoins s.db txid s.caches).2 })

def haveInputs (s : View) (tx : CTransaction) : Bool × View :=
  if tx.isCoinBase then (true, s)
  else tx.vin.foldl
    (fun acc txin =>
      -- the loop stops at the first input that is not there
      if acc.1 then
        let coins := acc.2.getCoins txin.prevout.hash
        (coins.1.any (·.isAvailable txin.prevout.n), coins.2)
      else acc)
    (true, s)

/-- `ModifyCoins` of the top cache, what its holder does, and the modifier's end. -/
def modifyCoins (txid : Uint256) (f : CCoins → CCoins) (s : View) : View :=
  match s.caches with
  | [] => s
  | c :: below =>
    match c.cacheCoins[txid]? with
    | some it => { s with caches := c.endModifier txid ⟨f it.coins, true, it.fresh⟩ :: below }
    | none =>
      match fetchCoins s.db txid below with
      | (none, below) => { s with caches := c.endModifier txid ⟨f .empty, true, true⟩ :: below }
      | (some coins, below) => { s with caches := c.endModifier txid ⟨f coins, true, coins.isPruned⟩ :: below }

/-- `ModifyNewCoins` of the top cache: the view below is not asked. -/
def modifyNewCoins (txid : Uint256) (f : CCoins → CCoins) (s : View) : View :=
  match s.caches with
  | [] => s
  | c :: below => { s with caches := c.endModifier txid ⟨f .empty, true, true⟩ :: below }

/-- `Uncache` of the top cache: an entry with no flag is dropped. -/
def uncache (hash : Uint256) (s : View) : View :=
  match s.caches with
  | [] => s
  | c :: below =>
    match c.cacheCoins[hash]? with
    | some it => if it.dirty || it.fresh then s else { s with caches := { c with cacheCoins := c.cacheCoins.erase hash } :: below }
    | none => s

/-- `Flush` of the top cache into the one below, or into the database. -/
def flush (s : View) : View :=
  match s.caches with
  | [] => s
  | [c] => ⟨[{ c with cacheCoins := ∅ }], s.db.batchWrite c.cacheCoins c.hashBlock⟩
  | c :: d :: below => { s with caches := { c with cacheCoins := ∅ } :: d.batchWrite c.cacheCoins c.hashBlock :: below }

/-- What `op` does to the cache under `i` others. -/
def atLayer : Nat → (View → View) → View → View
  | 0, op, s => op s
  | i + 1, op, s =>
    match s.caches with
    | [] => s
    | c :: below => { atLayer i op ⟨below, s.db⟩ with caches := c :: (atLayer i op ⟨below, s.db⟩).caches }

def getBestBlock (s : View) : Uint256 × View := go s.caches
where
  go : List CCoinsViewCache → Uint256 × View
  | [] => (s.db.hashBestBlock, ⟨[], s.db⟩)
  | c :: below =>
    if c.hashBlock = 0 then ((go below).1, ⟨{ c with hashBlock := (go below).1 } :: (go below).2.caches, s.db⟩)
    else (c.hashBlock, ⟨c :: below, s.db⟩)

def setBestBlock (hashBlock : Uint256) (s : View) : View :=
  match s.caches with
  | [] => s
  | c :: below => { s with caches := { c with hashBlock } :: below }

end View

end Zumy.Coins
