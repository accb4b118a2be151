/-
  Zumy.Payments.Coinbase — the coinbase a miner builds (miner.cpp, `FillBlockPayments` and
  `FillBlockPayee` of masternode-payments.cpp) and the reward checks of `ConnectBlock`
  (main.cpp, masternode-payments.cpp).

  Both sides read a `RewardState`. `IsSuperblockTriggered` updates the objects it visits, so
  the miner and the checks give back the state with their answer. A check answers `none` where
  the source throws (`GetValueOut`) or reads behind the last output (`IsFundRewardValid`).

  Left out: the transactions of the block, of which only the fees matter here, and what
  `getblocktemplate` is told of the payments.
-/
import Zumy.Address
import Zumy.Governance.Superblock
import Zumy.Payments.Subsidy
import Zumy.Payments.Votes

namespace Zumy.Payments

open Governance

structure RewardState where
  cs : ConsensusParams
  base58Prefixes : Base58Prefixes
  decodeBase58Check : String → Option (List UInt8)
  /-- `chainActive.Height()` -/
  tip : Int
  isSynced : Bool
  /-- `SPORK_9_SUPERBLOCKS_ENABLED` is active. -/
  superblocksEnabled : Bool
  /-- `SPORK_13_OLD_SUPERBLOCK_FLAG` is active. -/
  oldSuperblockFlag : Bool
  mnpayments : CMasternodePayments
  /-- `pubKeyCollateralAddress.GetID()` of the masternodes in the list. -/
  collateralIDs : List Uint160
  mapTrigger : Triggers
  mapObjects : Objects
  sentinel : CSuperblockManager.SentinelContext

/-! ## Payees -/

namespace CMasternodeBlockPayees

/-- `GetBestPayee`: the script of the payee with the most votes; `none` where it returns false. -/
def getBestPayee (b : CMasternodeBlockPayees) : Option CScript :=
  let best := b.vecPayees.foldl (fun best payee =>
    if (payee.getVoteCount : Int) > best.2 then (some payee, (payee.getVoteCount : Int)) else best) (none, -1)
  if best.2 > -1 then best.1.map (·.scriptPubKey) else none

def isTransactionValid (b : CMasternodeBlockPayees) (nMasternodePayment : CAmount) (vout : List CTxOut) : Bool :=
  let nMaxSignatures := b.vecPayees.foldl (fun n payee => if payee.getVoteCount ≥ n then payee.getVoteCount else n) 0
  if nMaxSignatures < mnPaymentsSignaturesRequired then true
  else b.vecPayees.any fun payee => decide (payee.getVoteCount ≥ mnPaymentsSignaturesRequired) &&
    vout.any fun out => payee.scriptPubKey == out.scriptPubKey && nMasternodePayment == out.nValue

end CMasternodeBlockPayees

namespace CMasternodePayments

def getBlockPayee (s : CMasternodePayments) (nBlockHeight : Int) : Option CScript :=
  (s.mapMasternodeBlocks[nBlockHeight]?).bind (·.getBestPayee)

def isTransactionValid (s : CMasternodePayments) (nMasternodePayment : CAmount) (vout : List CTxOut)
    (nBlockHeight : Int) : Bool :=
  match s.mapMasternodeBlocks[nBlockHeight]? with
  | some b => b.isTransactionValid nMasternodePayment vout
  | none => true

end CMasternodePayments

/-! ## Amounts and scripts -/

/-- `0.8 * COIN` with a masternode to pay and without one. -/
def getMasternodePayment (cs : ConsensusParams) (tip : Int) (fMasternode : Bool) : CAmount :=
  if fMasternode ∧ tip > cs.nMasternodePaymentsStartBlock ∧ tip + 1 ≤ cs.nPhase5LastBlock then 8 * coin / 10
  else 8 * coin / 10

/-- The development fund: `0.2 * COIN`. -/
def devPayment : CAmount := 2 * coin / 10

/-- An amount stored in an `int`. -/
def toInt32 (n : CAmount) : Int := n.bmod (2 ^ 32)

/-- `CTxOut()` -/
def nullOut : CTxOut := ⟨-1, []⟩

/-- `vout.resize(n)` -/
def resize (vout : List CTxOut) (n : Nat) : List CTxOut := vout.take n ++ List.replicate (n - vout.length) nullOut

def setValue (vout : List CTxOut) (i : Nat) (nValue : CAmount) :
    List CTxOut := vout.modify i fun out => { out with nValue := nValue }

namespace RewardState

def devAddress : String := "ZUMYD3VX7ZcbBpdZMtMNioAAKQjKguKWmd"
def oldDevAddress : String := "53NTdWeAxEfVjXufpBqU2YKopyZYmN9P1V"

/-- `GetScriptForDestination(CZumyAddress(strAddress).Get())` -/
def addressScript (n : RewardState) (strAddress : String) : CScript :=
  getScriptForDestination ((CZumyAddress.ofDecoded (n.decodeBase58Check strAddress)).get n.base58Prefixes)

/-- `CMasternodeMan::Find` of a payee: the script that is paid. -/
def findPayee (n : RewardState) (payee : CScript) : Option CScript :=
  (n.collateralIDs.map fun id => getScriptForDestination (.keyID id)).find? (· == payee)

/-! ## The miner -/

/-- The two windows of `FillBlockPayee` in which the development fund is paid; their
    statements are the same. -/
def paysDevFund (n : RewardState) : Bool :=
  let nNextHeight := n.tip + 1
  (nNextHeight > n.cs.nDevPhaseTotalBlocks && nNextHeight ≤ 375003) || (nNextHeight ≥ 375004 && nNextHeight ≤ n.cs.nPhase5LastBlock)

/-- The payee of `FillBlockPayee`, when `hasPayment`: the best one by the votes, or a
    masternode that is found by the payee the votes have left unset. -/
def payeeToPay (n : RewardState) : Option CScript :=
  if n.tip ≤ n.cs.nMasternodePaymentsStartBlock then none
  else match n.mnpayments.getBlockPayee (n.tip + 1) with
    | some payee => some payee
    | none => n.findPayee []

def fillBlockPayee (n : RewardState) (vout : List CTxOut) (nFees : CAmount) : List CTxOut :=
  let powPayment := getPoWBlockPayment n.cs n.tip nFees
  let mnPayment := getMasternodePayment n.cs n.tip n.payeeToPay.isSome
  let devOut : CTxOut := ⟨devPayment, n.addressScript devAddress⟩
  let vout := setValue vout 0 powPayment
  let vout := if n.paysDevFund then (setValue (resize vout 2) 0 powPayment).set 1 devOut else vout
  match n.payeeToPay with
  | none => vout
  | some payee =>
    let vout := (setValue (resize vout 2) 0 powPayment).set 1 ⟨mnPayment, payee⟩
    if n.paysDevFund then ((setValue (resize vout 3) 0 powPayment).set 1 ⟨mnPayment, payee⟩).set 2 devOut else vout

def isSuperblockTriggered (n : RewardState) (nBlockHeight : Int) : Bool × RewardState :=
  let (fTriggered, mapObjects) := CSuperblockManager.isSuperblockTriggered n.cs n.sentinel n.mapTrigger n.mapObjects nBlockHeight
  (fTriggered, { n with mapObjects := mapObjects })

/-- `FillBlockPayments`, from the sporks on. -/
def fillRegularPayments (n : RewardState) (txNew : CTransaction) (blockReward : CAmount) : CTransaction :=
  if n.tip > n.cs.nMasternodePaymentsStartBlock then
    let nIntPoWReward := toInt32 (getPoWBlockPayment n.cs n.tip (0 * coin))
    { txNew with vout := n.fillBlockPayee txNew.vout (blockReward - nIntPoWReward) }
  else txNew

def fillBlockPayments (n : RewardState) (txNew : CTransaction) (nBlockHeight : Int) (blockReward : CAmount) :
    CTransaction × RewardState :=
  if !n.superblocksEnabled then (n.fillRegularPayments txNew blockReward, n)
  else
    let (fTriggered, n) := n.isSuperblockTriggered nBlockHeight
    if fTriggered then ((CSuperblockManager.createSuperblock n.cs n.mapTrigger n.mapObjects txNew nBlockHeight []).1, n)
    else (n.fillRegularPayments txNew blockReward, n)

/-- The coinbase of `CreateNewBlock` for the transactions' fees. The height in its input is left out. -/
def createCoinbase (n : RewardState) (scriptPubKeyIn : CScript) (nFees : CAmount) : CTransaction × RewardState :=
  let blockReward := getPoWBlockPayment n.cs n.tip nFees
  n.fillBlockPayments ⟨[⟨.null, [], 2 ^ 32 - 1⟩], [⟨blockReward, scriptPubKeyIn⟩], 0⟩ (n.tip + 1) blockReward

/-! ## The checks -/

/-- The address that `IsFundRewardValid` asks for. -/
def requiredDevAddress (n : RewardState) : String :=
  let nNextHeight := n.tip + 1
  let strDevAddress := if nNextHeight ≥ 375004 ∧ nNextHeight ≤ n.cs.nPhase3LastBlock then devAddress else ""
  if nNextHeight > n.cs.nDevPhaseTotalBlocks ∧ nNextHeight ≤ 375003 then oldDevAddress else strDevAddress

/-- `IsFundRewardValid`; `none` when the coinbase has no output 2. -/
def isFundRewardValid (n : RewardState) (vout : List CTxOut) (fundReward : CAmount) : Option Bool :=
  let devScriptPubKey := n.addressScript n.requiredDevAddress
  match vout[1]?, vout[2]? with
  | some out1, some out2 =>
    some ((out2.scriptPubKey == devScriptPubKey && out2.nValue == fundReward) ||
      (out1.scriptPubKey == devScriptPubKey && out1.nValue == fundReward))
  | _, _ => none

def inBudgetWindow (cs : ConsensusParams) (nBlockHeight : Int) : Bool :=
  let nOffset := nBlockHeight % cs.nBudgetPaymentsCycleBlocks
  nBlockHeight ≥ cs.nBudgetPaymentsStartBlock && nOffset < cs.nBudgetPaymentsWindowBlocks

def isBlockValueValid (n : RewardState) (txNew : CTransaction) (nTime now : Int) (nBlockHeight : Int) (blockReward : CAmount) :
    Option Bool × RewardState :=
  match getValueOut txNew.vout with
  | none => (none, n)
  | some nValueOut =>
    let isBlockRewardValueMet : Bool := nValueOut ≤ blockReward
    if nBlockHeight < n.cs.nSuperblockStartBlock then
      if inBudgetWindow n.cs nBlockHeight then
        if n.isSynced && !n.oldSuperblockFlag then (some isBlockRewardValueMet, n) else (some true, n)
      else (some isBlockRewardValueMet, n)
    else
      let nSuperblockMaxValue := blockReward + CSuperblock.getPaymentsLimit n.cs nBlockHeight
      if !n.isSynced then
        if CSuperblock.isValidBlockHeight n.cs nBlockHeight then (some (nValueOut ≤ nSuperblockMaxValue : Bool), n)
        else (some isBlockRewardValueMet, n)
      else if n.superblocksEnabled then
        if nTime + 60 * 60 < now then (some true, n)
        else
          let (fTriggered, n) := n.isSuperblockTriggered nBlockHeight
          if fTriggered then (CSuperblockManager.isValid n.cs n.mapTrigger n.mapObjects txNew nBlockHeight blockReward, n)
          else (some isBlockRewardValueMet, n)
      else (some isBlockRewardValueMet, n)

/-- The masternode payment as the votes have it, and the heights at which none is required. -/
def isMasternodePaid (n : RewardState) (vout : List CTxOut) (nBlockHeight : Int) : Bool :=
  n.mnpayments.isTransactionValid (getMasternodePayment n.cs n.tip true) vout nBlockHeight

def isBlockPayeeValid (n : RewardState) (txNew : CTransaction) (nBlockHeight : Int) (blockReward : CAmount) :
    Option Bool × RewardState :=
  if !n.isSynced then (some true, n)
  else if nBlockHeight < n.cs.nSuperblockStartBlock then
    if n.isMasternodePaid txNew.vout nBlockHeight then (some true, n)
    else if inBudgetWindow n.cs nBlockHeight then (some n.oldSuperblockFlag, n)
    else (some (nBlockHeight ≤ n.cs.nHardForkTwo : Bool), n)
  else
    let (fTriggered, n) := if n.superblocksEnabled then n.isSuperblockTriggered nBlockHeight else (false, n)
    if fTriggered then (CSuperblockManager.isValid n.cs n.mapTrigger n.mapObjects txNew nBlockHeight blockReward, n)
    else if n.isMasternodePaid txNew.vout nBlockHeight then (some true, n)
    else (some (nBlockHeight ≤ n.cs.nHardForkTwo : Bool), n)

/-- `ConnectBlock` asks for the development fund at these heights. -/
def requiresDevFund (n : RewardState) : Bool :=
  let nNextHeight := n.tip + 1
  nNextHeight > n.cs.nPhase1LastBlock && nNextHeight ≤ n.cs.nPhase3LastBlock

/-- The reward checks of `ConnectBlock` on the block after the tip: `nTime` is the block's and
    `now` is `GetTime()`. -/
def connectRewards (n : RewardState) (txNew : CTransaction) (nTime now : Int) (nFees : CAmount) : Option Bool :=
  let fMasternodePaid : Bool := n.tip > n.cs.nMasternodePaymentsStartBlock
  let fundReward := devPayment
  let nHeight := n.tip + 1
  match (if n.requiresDevFund then n.isFundRewardValid txNew.vout fundReward else some true) with
  | some true =>
    let nExpectedBlockValue := getMasternodePayment n.cs n.tip fMasternodePaid + getPoWBlockPayment n.cs n.tip nFees + fundReward
    match n.isBlockValueValid txNew nTime now nHeight nExpectedBlockValue with
    | (some true, n) => (n.isBlockPayeeValid txNew nHeight nExpectedBlockValue).1
    | (answer, _) => answer
  | answer => answer

/-- The checks take the coinbase that the miner builds, in the state it leaves. -/
def CoinbaseAccepted (n : RewardState) (scriptPubKeyIn : CScript) (nTime now : Int) (nFees : CAmount) : Prop :=
  (n.createCoinbase scriptPubKeyIn nFees).2.connectRewards (n.createCoinbase scriptPubKeyIn nFees).1 nTime now nFees = some true

end RewardState

end Zumy.Payments
