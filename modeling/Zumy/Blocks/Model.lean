/-
  Zumy.Blocks.Model — main.cpp, undo.h: what connecting a block does to the coins and the
  address indexes, and what disconnecting it does.

  The functions take any view of the coins (`CoinsView`): a stack of caches, or the flat map
  that a stack stands for. `none` is a block that is refused, or an assertion that fails.

  `Rules` stands for what else `CheckBlock` and `ConnectBlock` ask of a block: proof of work,
  merkle root, sizes, locks, signature operations, BIP68, scripts, values and payees. They
  change neither the coins nor the indexes. The check of BIP30 is commented out in the
  source. The first block of a chain, whose transactions are not connected, is left out.

  Of the undo data on disk the metadata is written byte by byte; an output is read back as
  it was written.
-/
import Zumy.Address
import Zumy.Serialize.VarInt
import Zumy.Lib.Batch
import Zumy.Coins.CacheRuns

namespace Zumy

/-- `IsPayToScriptHash`. -/
def isPayToScriptHash (script : CScript) : Bool :=
  script.length == 23 && script[0]? == some opHash160 && script[1]? == some 20 && script[22]? == some opEqual

/-- `IsPayToPublicKeyHash`. -/
def isPayToPublicKeyHash (script : CScript) : Bool :=
  script.length == 25 && script[0]? == some opDup && script[1]? == some opHash160 && script[2]? == some 20 &&
    script[23]? == some opEqualVerify && script[24]? == some opCheckSig

end Zumy

namespace Zumy.Blocks

open Zumy.Coins Zumy.Lib

abbrev CTransaction := Coins.CTransaction

/-! ## Views -/

/-- `CCoinsViewCache` as the functions below use it. -/
class CoinsView (V : Type) where
  /-- `GetCoins` or `AccessCoins`. -/
  getCoins : V → Uint256 → Option CCoins
  haveInputs : V → CTransaction → Bool × V
  modifyCoins : V → Uint256 → (CCoins → CCoins) → V
  modifyNewCoins : V → Uint256 → (CCoins → CCoins) → V
  getBestBlock : V → Uint256
  setBestBlock : V → Uint256 → V

open CoinsView

/-- Caches are filled by `HaveInputs`; what a later read would fill in is what it finds. -/
instance : CoinsView View where
  getCoins s txid := (s.getCoins txid).1
  haveInputs s tx := s.haveInputs tx
  modifyCoins s txid f := s.modifyCoins txid f
  modifyNewCoins s txid f := s.modifyNewCoins txid f
  getBestBlock s := s.getBestBlock.1
  setBestBlock s hashBlock := s.setBestBlock hashBlock

structure FlatView where
  coins : Uint256 → Option CCoins
  hashBlock : Uint256

instance : CoinsView FlatView where
  getCoins s txid := s.coins txid
  haveInputs s tx := (flatHaveInputs s.coins tx, s)
  modifyCoins s txid f := { s with coins := flatModify s.coins txid f }
  modifyNewCoins s txid f := { s with coins := flatNew s.coins txid f }
  getBestBlock s := s.hashBlock
  setBestBlock s hashBlock := { s with hashBlock }

variable {V : Type} [CoinsView V]

def modifying (view : V) (txid : Uint256) : CCoins := (getCoins view txid).getD .empty

/-- `GetOutputFor`, with its assertion. -/
def getOutputFor (view : V) (input : CTxIn) : Option CTxOut :=
  (getCoins view input.prevout.hash).bind fun coins =>
    if coins.isAvailable input.prevout.n then coins.vout[input.prevout.n]? else none

/-! ## Undo data -/

structure CTxInUndo where
  txout : CTxOut
  fCoinBase : Bool
  /-- 0 where the input did not spend the last output of its transaction. -/
  nHeight : Nat
  nVersion : Int
  deriving DecidableEq, Repr

/-- `vprevout`. -/
abbrev CTxUndo := List CTxInUndo

/-- `vtxundo`: all but the coinbase. -/
abbrev CBlockUndo := List CTxUndo

abbrev StoredInput := List UInt8 × CTxOut

def CTxInUndo.serialize (undo : CTxInUndo) : StoredInput :=
  (writeVarInt (undo.nHeight * 2 + if undo.fCoinBase then 1 else 0) ++ if 0 < undo.nHeight then writeVarInt undo.nVersion else [],
    undo.txout)

def CTxInUndo.unserialize (stored : StoredInput) : Option CTxInUndo := do
  let (nCode, is) ← readVarInt stored.1
  let nHeight := nCode.toNat / 2
  let fCoinBase := nCode.toNat % 2 == 1
  if 0 < nHeight then
    let (nVersion, _) ← readVarInt is
    some ⟨stored.2, fCoinBase, nHeight, nVersion⟩
  else some ⟨stored.2, fCoinBase, nHeight, 0⟩

/-- `UndoWriteToDisk`. -/
def CBlockUndo.write (blockundo : CBlockUndo) : List (List StoredInput) := blockundo.map (·.map CTxInUndo.serialize)

/-- `UndoReadFromDisk`. -/
def CBlockUndo.read (stored : List (List StoredInput)) : Option CBlockUndo := stored.mapM (·.mapM CTxInUndo.unserialize)

/-! ## Indexes -/

structure CAddressIndexKey where
  type : Nat
  hashBytes : List UInt8
  blockHeight : Int
  txindex : Nat
  txhash : Uint256
  index : Nat
  spending : Bool
  deriving DecidableEq

structure CAddressUnspentKey where
  type : Nat
  hashBytes : List UInt8
  txhash : Uint256
  index : Nat
  deriving DecidableEq

structure CAddressUnspentValue where
  satoshis : CAmount
  script : CScript
  blockHeight : Int
  deriving DecidableEq

def CAddressUnspentValue.null : CAddressUnspentValue := ⟨-1, [], 0⟩

def CAddressUnspentValue.isNull (v : CAddressUnspentValue) : Bool := v.satoshis == -1

/-- The key, of its fields `txid` and `outputIndex`. -/
abbrev CSpentIndexKey := COutPoint

structure CSpentIndexValue where
  txid : Uint256
  inputIndex : Nat
  blockHeight : Int
  satoshis : CAmount
  addressType : Nat
  addressHash : List UInt8
  deriving DecidableEq

def CSpentIndexValue.null : CSpentIndexValue := ⟨0, 0, 0, 0, 0, []⟩

def CSpentIndexValue.isNull (v : CSpentIndexValue) : Bool := v.txid == 0

/-- `fAddressIndex` and `fSpentIndex`. -/
structure IndexFlags where
  fAddressIndex : Bool
  fSpentIndex : Bool

structure IndexUpdates where
  addressIndex : List (CAddressIndexKey × CAmount)
  addressUnspentIndex : List (CAddressUnspentKey × CAddressUnspentValue)
  spentIndex : List (CSpentIndexKey × CSpentIndexValue)

def IndexUpdates.empty : IndexUpdates := ⟨[], [], []⟩

def IndexUpdates.append (a b : IndexUpdates) : IndexUpdates :=
  ⟨a.addressIndex ++ b.addressIndex, a.addressUnspentIndex ++ b.addressUnspentIndex, a.spentIndex ++ b.spentIndex⟩

/-- The type and the hash of a script that has an address: 2 pays to a script, 1 to a key. -/
def scriptAddress (scriptPubKey : CScript) : Option (Nat × List UInt8) :=
  if isPayToScriptHash scriptPubKey then some (2, (scriptPubKey.drop 2).take 20)
  else if isPayToPublicKeyHash scriptPubKey then some (1, (scriptPubKey.drop 3).take 20)
  else none

structure TxPos where
  nHeight : Int
  i : Nat
  txhash : Uint256

/-- `addressIndex` entry of an output (`spending := false`) or of an input. -/
def addressEntry (pos : TxPos) (addr : Nat × List UInt8) (index : Nat) (spending : Bool) (nValue : CAmount) :
    CAddressIndexKey × CAmount :=
  (⟨addr.1, addr.2, pos.nHeight, pos.i, pos.txhash, index, spending⟩, nValue)

/-- The turn of `ConnectBlock`'s loop over the inputs, with the output that is spent. -/
def spendingUpdates (flags : IndexFlags) (pos : TxPos) (j : Nat) (input : CTxIn) (prevout : CTxOut) : IndexUpdates where
  addressIndex :=
    if flags.fAddressIndex then ((scriptAddress prevout.scriptPubKey).map (addressEntry pos · j true (-prevout.nValue))).toList else []
  addressUnspentIndex :=
    if flags.fAddressIndex then
      ((scriptAddress prevout.scriptPubKey).map fun addr => (⟨addr.1, addr.2, input.prevout.hash, input.prevout.n⟩, .null)).toList
    else []
  spentIndex :=
    if flags.fSpentIndex then
      let addr := (scriptAddress prevout.scriptPubKey).getD (0, [])
      [(input.prevout, ⟨pos.txhash, j, pos.nHeight, prevout.nValue, addr.1, addr.2⟩)]
    else []

/-- The turn of `ConnectBlock`'s loop over the outputs. -/
def receivingUpdates (flags : IndexFlags) (pos : TxPos) (k : Nat) (out : CTxOut) : IndexUpdates where
  addressIndex := if flags.fAddressIndex then ((scriptAddress out.scriptPubKey).map (addressEntry pos · k false out.nValue)).toList else []
  addressUnspentIndex :=
    if flags.fAddressIndex then
      ((scriptAddress out.scriptPubKey).map fun addr => (⟨addr.1, addr.2, pos.txhash, k⟩, ⟨out.nValue, out.scriptPubKey, pos.nHeight⟩)).toList
    else []
  spentIndex := []

/-- The turn of `DisconnectBlock`'s loop over the outputs. -/
def undoReceiving (flags : IndexFlags) (pos : TxPos) (k : Nat) (out : CTxOut) : IndexUpdates where
  addressIndex := if flags.fAddressIndex then ((scriptAddress out.scriptPubKey).map (addressEntry pos · k false out.nValue)).toList else []
  addressUnspentIndex :=
    if flags.fAddressIndex then ((scriptAddress out.scriptPubKey).map fun addr => (⟨addr.1, addr.2, pos.txhash, k⟩, .null)).toList else []
  spentIndex := []

/-- The turn of `DisconnectBlock`'s loop over the inputs, with the output that is back. -/
def undoSpending (flags : IndexFlags) (pos : TxPos) (j : Nat) (input : CTxIn) (undo : CTxInUndo) (prevout : Option CTxOut) :
    IndexUpdates where
  addressIndex :=
    (prevout.bind fun out => (scriptAddress out.scriptPubKey).map (addressEntry pos · j true (-out.nValue))).toList
  addressUnspentIndex :=
    (prevout.bind fun out => (scriptAddress out.scriptPubKey).map fun addr =>
      (⟨addr.1, addr.2, input.prevout.hash, input.prevout.n⟩, ⟨out.nValue, out.scriptPubKey, undo.nHeight⟩)).toList
  spentIndex := if flags.fSpentIndex then [(input.prevout, .null)] else []

def concatUpdates (us : List IndexUpdates) : IndexUpdates := us.foldr .append .empty

/-! ## Blocks -/

structure CBlock where
  hash : Uint256
  nVersion : Int
  vtx : List CTransaction
  deriving DecidableEq

/-- A block's index entry; a block before it is there. No hash of a block is null. -/
structure CBlockIndex where
  hash : Uint256
  hashPrev : Uint256
  nHeight : Nat
  nHeight_pos : 0 < nHeight
  hash_ne : hash ≠ 0
  hashPrev_ne : hashPrev ≠ 0

/-- What else is asked of a block, with the coins each of its transactions spends. -/
abbrev Rules := CBlock → List (List CCoins) → Bool

/-- `CheckTransaction` but for the size. -/
def checkTransaction (tx : CTransaction) : Bool :=
  !tx.vin.isEmpty && !tx.vout.isEmpty && (getValueOut tx.vout).isSome && decide (tx.vin.map CTxIn.prevout).Nodup &&
    if tx.isCoinBase then tx.vin.all fun txin => decide (2 ≤ txin.scriptSig.length ∧ txin.scriptSig.length ≤ 100)
    else tx.vin.all fun txin => !txin.prevout.isNull

/-- `CheckBlock`: the first transaction is a coinbase, the others are not. -/
def checkBlock (block : CBlock) : Bool :=
  match block.vtx with
  | [] => false
  | coinbase :: vtx => coinbase.isCoinBase && vtx.all (!·.isCoinBase) && block.vtx.all checkTransaction

/-! ## Connecting -/

/-- `UpdateCoins` on one input, with its assertion. -/
def spendInput (view : V) (txin : CTxIn) : Option (V × CTxInUndo) :=
  let coins := modifying view txin.prevout.hash
  let nPos := txin.prevout.n
  match coins.vout[nPos]? with
  | none => none
  | some txout =>
    if txout.isNull then none
    else
      let spent := coins.spend nPos
      -- the last output of the transaction: its metadata goes into the undo data
      let undo : CTxInUndo :=
        if spent.vout.length = 0 then ⟨txout, spent.fCoinBase, spent.nHeight.toNat, spent.nVersion⟩ else ⟨txout, false, 0, 0⟩
      some (modifyCoins view txin.prevout.hash (·.spend nPos), undo)

def spendInputs : V → List CTxIn → Option (V × CTxUndo)
  | view, [] => some (view, [])
  | view, txin :: vin => do
    let (view, undo) ← spendInput view txin
    let (view, vprevout) ← spendInputs view vin
    some (view, undo :: vprevout)

def updateCoins (view : V) (tx : CTransaction) (nHeight : Int) : Option (V × CTxUndo) :=
  if tx.isCoinBase then some (modifyCoins view tx.hash fun _ => .fromTx tx nHeight, [])
  else do
    let (view, txundo) ← spendInputs view tx.vin
    some (modifyNewCoins view tx.hash fun _ => .fromTx tx nHeight, txundo)

structure TxResult where
  undo : CTxUndo
  updates : IndexUpdates
  spent : List CCoins

def spendingInputs (tx : CTransaction) : List CTxIn := if tx.isCoinBase then [] else tx.vin

def connectUpdates (flags : IndexFlags) (pos : TxPos) (tx : CTransaction) (prevouts : List CTxOut) : IndexUpdates :=
  concatUpdates (((spendingInputs tx).zip prevouts).mapIdx (fun j it => spendingUpdates flags pos j it.1 it.2) ++
    tx.vout.mapIdx fun k out => receivingUpdates flags pos k out)

def connectTx (flags : IndexFlags) (nHeight : Int) (i : Nat) (view : V) (tx : CTransaction) : Option (V × TxResult) := do
  let (fHave, view) := if tx.isCoinBase then (true, view) else haveInputs view tx
  if !fHave then none
  else
    let spent := (spendingInputs tx).map fun txin => modifying view txin.prevout.hash
    let prevouts ← (spendingInputs tx).mapM (getOutputFor view)
    let (view, undo) ← updateCoins view tx nHeight
    some (view, ⟨undo, connectUpdates flags ⟨nHeight, i, tx.hash⟩ tx prevouts, spent⟩)

/-- The loop, from the transaction at index `i`. -/
def connectTxs (flags : IndexFlags) (nHeight : Int) : Nat → V → List CTransaction → Option (V × List TxResult)
  | _, view, [] => some (view, [])
  | i, view, tx :: vtx => do
    let (view, r) ← connectTx flags nHeight i view tx
    let (view, rs) ← connectTxs flags nHeight (i + 1) view vtx
    some (view, r :: rs)

structure Connected (V : Type) where
  view : V
  undo : List (List StoredInput)
  updates : IndexUpdates

def connectBlock (flags : IndexFlags) (rules : Rules) (block : CBlock) (pindex : CBlockIndex) (view : V) :
    Option (Connected V) := do
  if !checkBlock block then none
  else if pindex.hashPrev ≠ getBestBlock view then none
  else
    let (view, rs) ← connectTxs flags pindex.nHeight 0 view block.vtx
    if !rules block (rs.map TxResult.spent) then none
    else
      some ⟨setBestBlock view pindex.hash, CBlockUndo.write ((rs.drop 1).map TxResult.undo),
        concatUpdates (rs.map TxResult.updates)⟩

/-! ## Disconnecting -/

/-- What `ApplyTxInUndo` asks of the coins. -/
def applyClean (undo : CTxInUndo) (coins : CCoins) (n : Nat) : Bool :=
  (if undo.nHeight ≠ 0 then coins.isPruned else !coins.isPruned) &&
    !(if undo.nHeight ≠ 0 then CCoins.empty else coins).isAvailable n

/-- What it makes of them; `resize` fills up with null outputs. -/
def applyCoins (undo : CTxInUndo) (n : Nat) (coins : CCoins) : CCoins :=
  let coins := if undo.nHeight ≠ 0 then ⟨undo.fCoinBase, [], undo.nHeight, undo.nVersion⟩ else coins
  let vout := if coins.vout.length < n + 1 then coins.vout.rightpad (n + 1) CTxOut.null else coins.vout
  { coins with vout := vout.set n undo.txout }

def applyTxInUndo (undo : CTxInUndo) (view : V) (out : COutPoint) : Bool × V :=
  (applyClean undo (modifying view out.hash) out.n, modifyCoins view out.hash (applyCoins undo out.n))

/-- The loop over the inputs from the last down to the `j`-th. -/
def restoreInputs (flags : IndexFlags) (pos : TxPos) : Nat → List (CTxIn × CTxInUndo) → V → Option (Bool × V × List IndexUpdates)
  | _, [], view => some (true, view, [])
  | j, (input, undo) :: rest, view => do
    let (fClean, view, us) ← restoreInputs flags pos (j + 1) rest view
    let (fInput, view) := applyTxInUndo undo view input.prevout
    if flags.fAddressIndex then
      let prevout ← getOutputFor view input
      some (fClean && fInput, view, us ++ [undoSpending flags pos j input undo (some prevout)])
    else some (fClean && fInput, view, us ++ [undoSpending flags pos j input undo none])

/-- The outputs of a transaction are in the view as in the block; a negative version is not
    serialized with the coins. -/
def outputsMatch (tx : CTransaction) (nHeight : Int) (coins : CCoins) : Bool :=
  let outs := coins.clearUnspendable
  let outsBlock := CCoins.fromTx tx nHeight
  let outs := if outsBlock.nVersion < 0 then { outs with nVersion := outsBlock.nVersion } else outs
  outs.beq outsBlock

def disconnectTx (flags : IndexFlags) (nHeight : Int) (i : Nat) (tx : CTransaction) (txundo : Option CTxUndo) (view : V) :
    Option (Bool × V × IndexUpdates) := do
  let pos : TxPos := ⟨nHeight, i, tx.hash⟩
  let receiving := (tx.vout.mapIdx fun k out => undoReceiving flags pos k out).reverse
  let fClean := outputsMatch tx nHeight (modifying view tx.hash)
  let view := modifyCoins view tx.hash fun _ => .empty
  match txundo with
  | none => some (fClean, view, concatUpdates receiving)
  | some vprevout =>
    if vprevout.length ≠ tx.vin.length then none
    else
      let (fInputs, view, us) ← restoreInputs flags pos 0 (tx.vin.zip vprevout) view
      some (fClean && fInputs, view, concatUpdates (receiving ++ us))

/-- The loop from the last transaction down to the one at index `i`. -/
def disconnectTxs (flags : IndexFlags) (nHeight : Int) :
    Nat → List (CTransaction × Option CTxUndo) → V → Option (Bool × V × IndexUpdates)
  | _, [], view => some (true, view, .empty)
  | i, (tx, txundo) :: rest, view => do
    let (fClean, view, us) ← disconnectTxs flags nHeight (i + 1) rest view
    let (fTx, view, u) ← disconnectTx flags nHeight i tx txundo view
    some (fClean && fTx, view, us.append u)

/-- `fClean`, the view, and the vectors of updates. -/
structure Disconnected (V : Type) where
  fClean : Bool
  view : V
  updates : IndexUpdates

def disconnectBlock (flags : IndexFlags) (block : CBlock) (pindex : CBlockIndex) (stored : List (List StoredInput)) (view : V) :
    Option (Disconnected V) := do
  if pindex.hash ≠ getBestBlock view then none
  else
    let blockUndo ← CBlockUndo.read stored
    if blockUndo.length + 1 ≠ block.vtx.length then none
    else
      let (fClean, view, us) ← disconnectTxs flags pindex.nHeight 0 (block.vtx.zip (none :: blockUndo.map some)) view
      some ⟨fClean, setBestBlock view pindex.hashPrev, us⟩

/-! ## The indexes -/

/-- The databases of the address index, the address-unspent index and the spent index. -/
structure Indexes where
  address : CAddressIndexKey → Option CAmount
  unspent : CAddressUnspentKey → Option CAddressUnspentValue
  spent : CSpentIndexKey → Option CSpentIndexValue

/-- An entry of `UpdateAddressUnspentIndex`: a null value is erased. -/
def unspentEntry (it : CAddressUnspentKey × CAddressUnspentValue) : CAddressUnspentKey × Option CAddressUnspentValue :=
  (it.1, if it.2.isNull then none else some it.2)

/-- An entry of `UpdateSpentIndex`. -/
def spentEntry (it : CSpentIndexKey × CSpentIndexValue) : CSpentIndexKey × Option CSpentIndexValue :=
  (it.1, if it.2.isNull then none else some it.2)

/-- `WriteAddressIndex`, `UpdateAddressUnspentIndex` and `UpdateSpentIndex` at the end of `ConnectBlock`. -/
def Indexes.connect (flags : IndexFlags) (u : IndexUpdates) (ix : Indexes) : Indexes where
  address := if flags.fAddressIndex then applyBatch (u.addressIndex.map fun it => (it.1, some it.2)) ix.address else ix.address
  unspent := if flags.fAddressIndex then applyBatch (u.addressUnspentIndex.map unspentEntry) ix.unspent else ix.unspent
  spent := if flags.fSpentIndex then applyBatch (u.spentIndex.map spentEntry) ix.spent else ix.spent

/-- `EraseAddressIndex` and `UpdateAddressUnspentIndex` at the end of `DisconnectBlock`; the
    vector of the spent index is filled, and used nowhere. -/
def Indexes.disconnect (flags : IndexFlags) (u : IndexUpdates) (ix : Indexes) : Indexes where
  address := if flags.fAddressIndex then applyBatch (u.addressIndex.map fun it => (it.1, none)) ix.address else ix.address
  unspent := if flags.fAddressIndex then applyBatch (u.addressUnspentIndex.map unspentEntry) ix.unspent else ix.unspent
  spent := ix.spent

end Zumy.Blocks
