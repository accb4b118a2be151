/-
  Zumy.PrivateSend.Pool — privatesend.cpp: the mixing pool of a masternode.

  A session starts with the first collateral (PSACCEPT), waits for the others in the queue,
  takes an entry from each participant (PSVIN), merges the entries into one transaction and
  collects the signatures of their inputs (PSSIGNFINALTX). Every failure ends in `SetNull`.

  `Env` is what stays the same for a node; `Node` is what one event reads of the clock, the
  chain, the memory pool and the masternode list. A handler gives the pool after it and what
  it did, in order.

  Left out: the client's side of every function (`fMasterNode` is true here), the queues of
  other masternodes, the charging of fees, and the wallet's locked coins.
-/
import Mathlib.Data.List.Sort
import Zumy.Lib.Run
import Zumy.Primitives

namespace Zumy.PrivateSend

def minPrivatesendPeerProtoVersion : Int := 70000
def privatesendCollateral : CAmount := 1000001
def privatesendEntryMaxSize : Nat := 9
def privatesendQueueTimeout : Int := 30
def privatesendSigningTimeout : Int := 15

/-- `InitDenominations` -/
def vecPrivateSendDenominations : List CAmount := [10 * coin + 10000, coin + 1000, 10000100, 1000010]

inductive PoolMessage where
  | errAlreadyHave
  | errDenom
  | errEntriesFull
  | errExistingTx
  | errFees
  | errInvalidCollateral
  | errInvalidInput
  | errInvalidScript
  | errInvalidTx
  | errMaximum
  | errMnList
  | errMode
  | errNonStandardPubkey
  | errNotAMn
  | errQueueFull
  | errRecent
  | errSession
  | errMissingTx
  | errVersion
  | msgNoerr
  | msgSuccess
  | msgEntriesAdded
  deriving DecidableEq, Repr

inductive PoolState where
  | idle
  | queue
  | acceptingEntries
  | signing
  | error
  | success
  deriving DecidableEq, Repr

inductive PoolStatusUpdate where
  | rejected
  | accepted
  deriving DecidableEq, Repr

structure CollateralTx extends CTransaction where
  nLockTime : Nat
  deriving DecidableEq, Repr

/-- `operator==` of transactions -/
def CollateralTx.equal (a b : CollateralTx) : Bool := a.hash == b.hash

structure CTxPSIn extends CTxIn where
  fHasSig : Bool
  deriving DecidableEq, Repr

structure CPrivateSendEntry where
  vecTxPSIn : List CTxPSIn
  vecTxPSOut : List CTxOut
  txCollateral : CollateralTx
  deriving DecidableEq, Repr

/-- An entry as it is read from a message: `fHasSig` is not serialized. -/
def CPrivateSendEntry.read (vecTxIn : List CTxIn) (vecTxOut : List CTxOut) (txCollateral : CollateralTx) :
    CPrivateSendEntry where
  vecTxPSIn := vecTxIn.map fun txin => { txin with fHasSig := false }
  vecTxPSOut := vecTxOut
  txCollateral := txCollateral

structure CMutableTransaction where
  vin : List CTxIn
  vout : List CTxOut
  deriving DecidableEq, Repr

structure CPrivatesendPool where
  vecSessionCollaterals : List CollateralTx
  vecEntries : List CPrivateSendEntry
  nState : PoolState
  nTimeLastSuccessfulStep : Int
  nSessionID : Nat
  nSessionDenom : Int
  finalMutableTransaction : CMutableTransaction
  deriving DecidableEq, Repr

structure Env where
  fLiteMode : Bool
  /-- 3 on the main and the test network; the regtest parameters leave it 0. -/
  nPoolMaxTransactions : Nat
  /-- `VerifyScript` of the input at an index of a transaction, by its `scriptSig` and the script it spends. -/
  verifyScript : CScript → CScript → CMutableTransaction → Nat → Bool
  getHash : CMutableTransaction → Uint256

structure Node where
  getTimeMillis : Int
  isBlockchainSynced : Bool
  /-- `nLastSsq` of the active masternode, when it is in the list. -/
  nLastSsq : Option Int
  /-- `CountEnabled(MIN_PRIVATESEND_PEER_PROTO_VERSION)` -/
  countEnabled : Int
  nSsqCount : Int
  getTransaction : Uint256 → Option CTransaction
  /-- The checks of `AcceptToMemoryPool` that come after `CheckTransaction`, and the size limit of that one. -/
  mempoolAccepts : CTransaction → Bool
  /-- `TRY_LOCK(cs_main)` -/
  lockMain : Bool
  /-- `TRY_LOCK(cs_privatesend)` -/
  lockPS : Bool

inductive Action where
  | pushStatus (nSessionID : Nat) (nState : PoolState) (nEntries : Nat) (nStatusUpdate : PoolStatusUpdate)
      (nMessageID : PoolMessage)
  | relayStatus (nSessionID : Nat) (nState : PoolState) (nEntries : Nat) (nStatusUpdate : PoolStatusUpdate)
      (nMessageID : PoolMessage)
  | relayQueue (nDenom : Int) (fReady : Bool)
  | relayFinalTransaction (nSessionID : Nat) (txFinal : CMutableTransaction)
  /-- `CommitFinalTransaction` is called on this pool. -/
  | commitFinalTransaction (pool : CPrivatesendPool)
  | relayInv (hashTx : Uint256)
  | relayCompletedTransaction (nSessionID : Nat) (nMessageID : PoolMessage)
  deriving DecidableEq, Repr

/-! ## Scripts and transactions -/

def opPushdata1 : UInt8 := 0x4c
def opPushdata2 : UInt8 := 0x4d
def opPushdata4 : UInt8 := 0x4e
def opDup : UInt8 := 0x76
def opEqualverify : UInt8 := 0x88
def opHash160 : UInt8 := 0xa9
def opChecksig : UInt8 := 0xac
def opInvalidopcode : UInt8 := 0xff

def readLE (bytes : List UInt8) : Nat := bytes.foldr (fun b n => b.toNat + 256 * n) 0

def sizeBytes (opcode : UInt8) : Nat :=
  if opcode = opPushdata1 then 1 else if opcode = opPushdata2 then 2 else if opcode = opPushdata4 then 4 else 0

/-- `GetOp`: the opcode and where the next one starts. A push that is cut off is
    `OP_INVALIDOPCODE`, and the next opcode is read from where the size was, or its data. -/
def getOp : CScript → UInt8 × CScript
  | [] => (opInvalidopcode, [])
  | opcode :: pc =>
    if opPushdata4 < opcode then (opcode, pc)
    else if pc.length < sizeBytes opcode then (opInvalidopcode, pc)
    else
      let nSize := if opcode < opPushdata1 then opcode.toNat else readLE (pc.take (sizeBytes opcode))
      let data := pc.drop (sizeBytes opcode)
      if data.length < nSize then (opInvalidopcode, data) else (opcode, data.drop nSize)

/-- The loop of `IsNormalPaymentScript`: the opcodes it asks for, in order. -/
def opsMatch : List (Option UInt8) → CScript → Bool
  | _, [] => true
  | [], _ :: _ => false
  | want :: wants, pc => want.all (· == (getOp pc).1) && opsMatch wants (getOp pc).2

def isNormalPaymentScript (script : CScript) : Bool :=
  script.length == 25 && opsMatch [some opDup, some opHash160, none, some opEqualverify, some opChecksig] script

def checkTransaction (tx : CTransaction) : Bool :=
  !tx.vin.isEmpty && !tx.vout.isEmpty && (getValueOut tx.vout).isSome && decide (tx.vin.map (·.prevout)).Nodup &&
    (if tx.isCoinBase then tx.vin.all fun txin => 2 ≤ txin.scriptSig.length && txin.scriptSig.length ≤ 100
      else tx.vin.all fun txin => !txin.prevout.isNull)

/-- The dry run of `AcceptToMemoryPool` -/
def acceptToMemoryPool (node : Node) (tx : CTransaction) : Bool :=
  checkTransaction tx && !tx.isCoinBase && node.mempoolAccepts tx

/-- The sum of what the inputs spend, when the transactions they spend are known. -/
def valueIn (node : Node) (vin : List CTxIn) : Option CAmount :=
  vin.foldlM (fun nValueIn txin => (node.getTransaction txin.prevout.hash).map fun txPrev =>
    nValueIn + ((txPrev.vout[txin.prevout.n]?).map (·.nValue)).getD 0) 0

def valueOut (vout : List CTxOut) : CAmount := (vout.map (·.nValue)).sum

def isCollateralValid (node : Node) (txCollateral : CollateralTx) : Bool :=
  if txCollateral.vout.isEmpty then false
  else if txCollateral.nLockTime ≠ 0 then false
  else if !txCollateral.vout.all fun txout => isNormalPaymentScript txout.scriptPubKey then false
  else match valueIn node txCollateral.vin with
    | none => false
    | some nValueIn =>
      if nValueIn - valueOut txCollateral.vout < privatesendCollateral then false
      else acceptToMemoryPool node txCollateral.toCTransaction

/-! ## Denominations -/

def getDenominations (vecTxOut : List CTxOut) : Int :=
  if vecTxOut.all fun txout => vecPrivateSendDenominations.any (txout.nValue == ·) then
    (vecPrivateSendDenominations.zipIdx.foldl (fun nDenom s =>
      nDenom ||| ((if vecTxOut.any (·.nValue == s.1) then 1 else 0) <<< s.2)) 0 : Nat)
  else 0

/-- The bits that are on; `none` where `GetDenominationsBits` is false. -/
def getDenominationsBits (nDenom : Int) : Option (List Nat) :=
  let nMaxDenoms := vecPrivateSendDenominations.length
  let vecBits := (List.range nMaxDenoms).filter fun i : Nat => (nDenom >>> i) % 2 == 1
  if nDenom ≥ 2 ^ nMaxDenoms then none else if vecBits.isEmpty then none else some vecBits

namespace CPrivatesendPool

variable (env : Env) (node : Node) (pool : CPrivatesendPool)

/-- `SetNull` -/
def setNull : CPrivatesendPool where
  vecSessionCollaterals := []
  vecEntries := []
  nState := .idle
  nTimeLastSuccessfulStep := node.getTimeMillis
  nSessionID := 0
  nSessionDenom := 0
  finalMutableTransaction := ⟨[], []⟩

/-- `SetState` -/
def setState (nStateNew : PoolState) : CPrivatesendPool :=
  if nStateNew = .error ∨ nStateNew = .success then pool else { pool with nState := nStateNew }

def pushStatus (nStatusUpdate : PoolStatusUpdate) (nMessageID : PoolMessage) : Action :=
  .pushStatus pool.nSessionID pool.nState pool.vecEntries.length nStatusUpdate nMessageID

def relayStatus (nStatusUpdate : PoolStatusUpdate) : Action :=
  .relayStatus pool.nSessionID pool.nState pool.vecEntries.length nStatusUpdate .msgNoerr

def isSessionReady : Bool := env.nPoolMaxTransactions ≤ pool.vecSessionCollaterals.length

def inputs : List CTxPSIn := pool.vecEntries.flatMap (·.vecTxPSIn)

def outputs : List CTxOut := pool.vecEntries.flatMap (·.vecTxPSOut)

def merged : CMutableTransaction := ⟨pool.inputs.map (·.toCTxIn), pool.outputs⟩

/-! ## Participants -/

def isAcceptableDenomAndCollateral (nDenom : Int) (txCollateral : CollateralTx) : Except PoolMessage Unit :=
  if (getDenominationsBits nDenom).isNone then .error .errDenom
  else if !isCollateralValid node txCollateral then .error .errInvalidCollateral
  else .ok ()

/-- `rand` is `GetRandInt(999999)`. -/
def createNewSession (nDenom : Int) (txCollateral : CollateralTx) (rand : Fin 999999) :
    Except PoolMessage (CPrivatesendPool × List Action) :=
  if pool.nSessionID ≠ 0 then .error .msgNoerr
  else if pool.nState ≠ .idle then .error .errMode
  else match isAcceptableDenomAndCollateral node nDenom txCollateral with
    | .error nMessageID => .error nMessageID
    | .ok () => .ok (
        { (pool.setState .queue) with
          nSessionID := rand + 1
          nSessionDenom := nDenom
          nTimeLastSuccessfulStep := node.getTimeMillis
          vecSessionCollaterals := pool.vecSessionCollaterals ++ [txCollateral] },
        [.relayQueue nDenom false])

def addUserToExistingSession (nDenom : Int) (txCollateral : CollateralTx) : Except PoolMessage (CPrivatesendPool × List Action) :=
  if pool.nSessionID = 0 ∨ pool.isSessionReady env then .error .msgNoerr
  else match isAcceptableDenomAndCollateral node nDenom txCollateral with
    | .error nMessageID => .error nMessageID
    | .ok () =>
      if pool.nState ≠ .queue then .error .errMode
      else if nDenom ≠ pool.nSessionDenom then .error .errDenom
      else .ok (
        { pool with
          nTimeLastSuccessfulStep := node.getTimeMillis
          vecSessionCollaterals := pool.vecSessionCollaterals ++ [txCollateral] }, [])

def processAccept (nVersion nDenom : Int) (txCollateral : CollateralTx) (rand : Fin 999999) : CPrivatesendPool × List Action :=
  if nVersion < minPrivatesendPeerProtoVersion then (pool, [pool.pushStatus .rejected .errVersion])
  else if pool.isSessionReady env then (pool, [pool.pushStatus .accepted .errQueueFull])
  else match node.nLastSsq with
    | none => (pool, [pool.pushStatus .rejected .errMnList])
    | some nLastSsq =>
      if pool.vecSessionCollaterals.length = 0 ∧ nLastSsq ≠ 0 ∧ nLastSsq + node.countEnabled.tdiv 5 > node.nSsqCount then
        (pool, [pool.pushStatus .rejected .errRecent])
      else
        let r := if pool.nSessionID = 0 then pool.createNewSession node nDenom txCollateral rand
          else pool.addUserToExistingSession env node nDenom txCollateral
        match r with
        | .ok (pool', actions) => (pool', actions ++ [pool'.pushStatus .accepted .msgNoerr])
        | .error nMessageID => (pool, [pool.pushStatus .rejected nMessageID])

/-! ## The final transaction -/

/-- `operator<` of scripts: the shorter one first. -/
def scriptLess (a b : CScript) : Bool := a.length < b.length || (a.length == b.length && decide (a < b))

def outLess (a b : CTxOut) : Bool := a.nValue < b.nValue || (a.nValue == b.nValue && scriptLess a.scriptPubKey b.scriptPubKey)

def sortFinal (tx : CMutableTransaction) : CMutableTransaction where
  vin := tx.vin.insertionSort fun a b => b.less a = false
  vout := tx.vout.insertionSort fun a b => outLess b a = false

def createFinalTransaction : CPrivatesendPool × List Action :=
  let txNew := sortFinal pool.merged
  ({ pool with finalMutableTransaction := txNew }.setState .signing, [.relayFinalTransaction pool.nSessionID txNew])

/-- Both ways out of `CommitFinalTransaction` reset the pool. -/
def commitFinalTransaction : CPrivatesendPool × List Action :=
  let hashTx := env.getHash pool.finalMutableTransaction
  let finalTransaction : CTransaction := ⟨pool.finalMutableTransaction.vin, pool.finalMutableTransaction.vout, hashTx⟩
  if !node.lockMain || !acceptToMemoryPool node finalTransaction then
    (setNull node, [.commitFinalTransaction pool, .relayCompletedTransaction 0 .errInvalidTx])
  else
    (setNull node, [.commitFinalTransaction pool, .relayInv hashTx, .relayCompletedTransaction pool.nSessionID .msgSuccess])

def isSignaturesComplete : Bool := pool.vecEntries.all fun entry => entry.vecTxPSIn.all (·.fHasSig)

/-- `CheckPool` -/
def checkPool : CPrivatesendPool × List Action :=
  if pool.nState = .acceptingEntries ∧ env.nPoolMaxTransactions ≤ pool.vecEntries.length then pool.createFinalTransaction
  else if pool.nState = .signing ∧ pool.isSignaturesComplete then pool.commitFinalTransaction env node
  else if (pool.nState = .error ∨ pool.nState = .success) ∧ node.getTimeMillis - pool.nTimeLastSuccessfulStep ≥ 10000 then
    (setNull node, [])
  else (pool, [])

/-! ## Entries -/

def isOutputsCompatibleWithSessionDenom (vecTxPSOut : List CTxOut) : Bool :=
  if getDenominations vecTxPSOut = 0 then false
  else pool.vecEntries.all fun entry => getDenominations vecTxPSOut == getDenominations entry.vecTxPSOut

def checkLikeTransaction (vecTxIn : List CTxIn) (vecTxOut : List CTxOut) : Except PoolMessage Unit :=
  match vecTxOut.find? fun txout => txout.scriptPubKey.length ≠ 25 ∨ !isNormalPaymentScript txout.scriptPubKey with
  | some txout => .error (if txout.scriptPubKey.length ≠ 25 then .errNonStandardPubkey else .errInvalidScript)
  | none =>
    match valueIn node vecTxIn with
    | none => .error .errMissingTx
    | some nValueIn =>
      if nValueIn - valueOut vecTxOut ≠ 0 then .error .errFees
      else if !acceptToMemoryPool node ⟨vecTxIn, vecTxOut, env.getHash ⟨vecTxIn, vecTxOut⟩⟩ then .error .errInvalidTx
      else .ok ()

/-- The checks of PSVIN in front of `AddEntry` -/
def checkVin (nVersion : Int) (vecTxIn : List CTxIn) (vecTxOut : List CTxOut) : Except PoolMessage Unit :=
  if nVersion < minPrivatesendPeerProtoVersion then .error .errVersion
  else if !pool.isSessionReady env then .error .errSession
  else if privatesendEntryMaxSize < vecTxIn.length then .error .errMaximum
  else if privatesendEntryMaxSize < vecTxOut.length then .error .errMaximum
  else if !pool.isOutputsCompatibleWithSessionDenom vecTxOut then .error .errExistingTx
  else checkLikeTransaction env node vecTxIn vecTxOut

/-- The checks of `AddEntry` -/
def checkEntry (entryNew : CPrivateSendEntry) : Except PoolMessage Unit :=
  if entryNew.vecTxPSIn.any (·.prevout.isNull) then .error .errInvalidInput
  else if !isCollateralValid node entryNew.txCollateral then .error .errInvalidCollateral
  else if env.nPoolMaxTransactions ≤ pool.vecEntries.length then .error .errEntriesFull
  else if entryNew.vecTxPSIn.any fun txin => pool.inputs.any fun txpsin =>
    txpsin.prevout == txin.prevout then .error .errAlreadyHave
  else .ok ()

def pushEntry (entryNew : CPrivateSendEntry) : CPrivatesendPool :=
  { pool with
    vecEntries := pool.vecEntries ++ [entryNew]
    nTimeLastSuccessfulStep := node.getTimeMillis }

def addEntry (entryNew : CPrivateSendEntry) : Except PoolMessage CPrivatesendPool :=
  match pool.checkEntry env node entryNew with
  | .error nMessageID => .error nMessageID
  | .ok () => .ok (pool.pushEntry node entryNew)

def processVin (nVersion : Int) (vecTxIn : List CTxIn) (vecTxOut : List CTxOut) (txCollateral : CollateralTx) :
    CPrivatesendPool × List Action :=
  match pool.checkVin env node nVersion vecTxIn vecTxOut with
  | .error nMessageID => (pool, [pool.pushStatus .rejected nMessageID])
  | .ok () =>
    match pool.addEntry env node (.read vecTxIn vecTxOut txCollateral) with
    | .error nMessageID => (setNull node, [pool.pushStatus .rejected nMessageID])
    | .ok added =>
      let checked := added.checkPool env node
      (checked.1, added.pushStatus .accepted .msgEntriesAdded :: checked.2 ++ [checked.1.relayStatus .accepted])

/-! ## Signatures -/

/-- `prevPubKey` is not serialized: an input read from a message has an empty one. -/
def prevPubKey (_ : CTxIn) : CScript := []

def inputIndex (vin : List CTxIn) (prevout : COutPoint) : Option Nat :=
  vin.zipIdx.foldl (fun nTxInIndex t => if t.1.prevout = prevout then some t.2 else nTxInIndex) none

/-- `IsInputScriptSigValid` -/
def isInputScriptSigValid (txin : CTxIn) : Bool :=
  match inputIndex pool.merged.vin txin.prevout with
  | none => false
  | some nTxInIndex =>
    let txNew := { pool.merged with vin := pool.merged.vin.modify nTxInIndex fun t => { t with scriptSig := txin.scriptSig } }
    env.verifyScript txin.scriptSig (prevPubKey txin) txNew nTxInIndex

def Names (txin t : CTxIn) : Prop := txin.prevout = t.prevout ∧ t.nSequence = txin.nSequence

instance (txin t : CTxIn) : Decidable (Names txin t) := inferInstanceAs (Decidable (_ ∧ _))

/-- `CPrivateSendEntry::AddScriptSig` on the entry's inputs; `none` where it is false. -/
def signInputs (txin : CTxIn) : List CTxPSIn → Option (List CTxPSIn)
  | [] => none
  | txpsin :: rest =>
    if Names txin txpsin.toCTxIn then
      if txpsin.fHasSig then none else some ({ txpsin with scriptSig := txin.scriptSig, fHasSig := true } :: rest)
    else (signInputs txin rest).map (txpsin :: ·)

/-- The first entry whose `AddScriptSig` is true takes the signature. -/
def signEntries (txin : CTxIn) : List CPrivateSendEntry → Option (List CPrivateSendEntry)
  | [] => none
  | entry :: rest =>
    match signInputs txin entry.vecTxPSIn with
    | some vecTxPSIn => some ({ entry with vecTxPSIn } :: rest)
    | none => (signEntries txin rest).map (entry :: ·)

def putScriptSig (txinNew txin : CTxIn) : CTxIn :=
  if Names txinNew txin then { txin with scriptSig := txinNew.scriptSig } else txin

/-- The checks of `AddScriptSig` -/
def isNewScriptSig (txinNew : CTxIn) : Bool :=
  !pool.inputs.any (·.scriptSig == txinNew.scriptSig) && pool.isInputScriptSigValid env txinNew

/-- `AddScriptSig`: the final transaction takes the signature before the entries do. -/
def addScriptSig (txinNew : CTxIn) : CPrivatesendPool × Bool :=
  if !pool.isNewScriptSig env txinNew then (pool, false)
  else
    let signed := { pool with
      finalMutableTransaction.vin := pool.finalMutableTransaction.vin.map (putScriptSig txinNew) }
    match signEntries txinNew pool.vecEntries with
    | some vecEntries => ({ signed with vecEntries }, true)
    | none => (signed, false)

def addScriptSigs : List CTxIn → CPrivatesendPool → CPrivatesendPool × Bool
  | [], pool => (pool, true)
  | txin :: vecTxIn, pool =>
    match pool.addScriptSig env txin with
    | (pool', true) => addScriptSigs vecTxIn pool'
    | (pool', false) => (pool', false)

def processSignFinalTx (nVersion : Int) (vecTxIn : List CTxIn) : CPrivatesendPool × List Action :=
  if nVersion < minPrivatesendPeerProtoVersion then (pool, [])
  else match addScriptSigs env vecTxIn pool with
    | (pool', true) => pool'.checkPool env node
    | (pool', false) => (pool', [pool'.relayStatus .rejected])

/-! ## The pool's thread -/

/-- `CheckTimeout` -/
def checkTimeout : CPrivatesendPool :=
  let nTimeout := if pool.nState = .signing then privatesendSigningTimeout else privatesendQueueTimeout
  if !node.lockPS then pool
  else if pool.nState ≠ .idle ∧ node.getTimeMillis - pool.nTimeLastSuccessfulStep ≥ nTimeout * 1000 then
    (setNull node).setState .error
  else pool

/-- `CheckForCompleteQueue` -/
def checkForCompleteQueue : CPrivatesendPool × List Action :=
  if pool.nState = .queue ∧ pool.isSessionReady env then
    (pool.setState .acceptingEntries, [.relayQueue pool.nSessionDenom true])
  else (pool, [])

end CPrivatesendPool

/-! ## Events -/

inductive Event where
  | accept (node : Node) (nVersion nDenom : Int) (txCollateral : CollateralTx) (rand : Fin 999999)
  | vin (node : Node) (nVersion : Int) (vecTxIn : List CTxIn) (vecTxOut : List CTxOut) (txCollateral : CollateralTx)
  | signFinalTx (node : Node) (nVersion : Int) (vecTxIn : List CTxIn)
  | checkTimeout (node : Node)
  | checkForCompleteQueue
  /-- `ResetPool`, by the user. -/
  | resetPool (node : Node)

/-- The two guards in front of every message of `ProcessMessage` -/
def reads (env : Env) (node : Node) : Bool := !env.fLiteMode && node.isBlockchainSynced

def handle (env : Env) (pool : CPrivatesendPool) : Event → CPrivatesendPool × List Action
  | .accept node nVersion nDenom txCollateral rand =>
    if reads env node then pool.processAccept env node nVersion nDenom txCollateral rand else (pool, [])
  | .vin node nVersion vecTxIn vecTxOut txCollateral =>
    if reads env node then pool.processVin env node nVersion vecTxIn vecTxOut txCollateral else (pool, [])
  | .signFinalTx node nVersion vecTxIn =>
    if reads env node then pool.processSignFinalTx env node nVersion vecTxIn else (pool, [])
  | .checkTimeout node => (pool.checkTimeout node, [])
  | .checkForCompleteQueue => pool.checkForCompleteQueue env
  | .resetPool node => (.setNull node, [])

def step (env : Env) (pool : CPrivatesendPool) (e : Event) : Option CPrivatesendPool := some (handle env pool e).1

end Zumy.PrivateSend
