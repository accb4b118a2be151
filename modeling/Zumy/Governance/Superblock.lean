/-
  Zumy.Governance.Superblock — superblocks and their triggers (governance-classes.h, .cpp).

  `mapTrigger` keeps the superblock parsed from each trigger object; an active trigger is
  one whose object is stored. A trigger is taken at the height `nSuperblockCycle`, whatever
  `event_block_height` its object has. `IsSuperblockTriggered` updates the sentinel flags of
  the objects it visits, so it gives back the objects with its answer; the votes stay as
  they are.

  The payment amounts come from `ParsePaymentAmount`, which refuses any outside the money range.
-/
import Zumy.ChainParams
import Zumy.Governance.Object

namespace Zumy.Governance

open Lib

structure CGovernancePayment where
  script : CScript
  nAmount : CAmount
  deriving DecidableEq, Repr

def CGovernancePayment.toTxOut (p : CGovernancePayment) : CTxOut := ⟨p.nAmount, p.script⟩

structure CSuperblock where
  nGovObjHash : Uint256
  /-- `event_block_height` of the object. -/
  nEpochStart : Int
  vecPayments : List CGovernancePayment
  inRange : ∀ p ∈ vecPayments, moneyRange p.nAmount = true
  deriving DecidableEq

def staticSuperblockAmount : CAmount := 0 * coin

namespace CSuperblock

def isValidBlockHeight (cs : ConsensusParams) (nBlockHeight : Int) : Bool :=
  nBlockHeight ≥ cs.nSuperblockStartBlock && nBlockHeight % cs.nSuperblockCycle == 0

def getPaymentsLimit (cs : ConsensusParams) (nBlockHeight : Int) : CAmount :=
  if !isValidBlockHeight cs nBlockHeight then 0 else staticSuperblockAmount

def countPayments (sb : CSuperblock) : Int := sb.vecPayments.length

def getPaymentsTotalAmount (sb : CSuperblock) : CAmount := (sb.vecPayments.map (·.nAmount)).sum

/-- The loop over the payments: each is looked for from `nVoutIndex` on, and `nVoutIndex`
is set to the place where it was found. -/
def paymentsMatch (vout : List CTxOut) (nVoutIndex : Nat) : List CGovernancePayment → Bool
  | [] => true
  | payment :: payments =>
    let j := (vout.drop nVoutIndex).findIdx fun out => payment.script = out.scriptPubKey ∧ payment.nAmount = out.nValue
    if nVoutIndex + j < vout.length then paymentsMatch vout (nVoutIndex + j) payments else false

/-- `IsValid`; `none` where `GetValueOut` throws. -/
def isValid (cs : ConsensusParams) (sb : CSuperblock) (txNew : CTransaction) (nBlockHeight : Int) (blockReward : CAmount) :
    Option Bool :=
  if !isValidBlockHeight cs nBlockHeight then some false
  else
    let nOutputs : Int := txNew.vout.length
    let nMinerPayments := nOutputs - sb.countPayments
    if nMinerPayments < 0 then some false
    else if sb.getPaymentsTotalAmount > getPaymentsLimit cs nBlockHeight then some false
    else (getValueOut txNew.vout).map fun nBlockValue =>
      if nBlockValue > blockReward + sb.getPaymentsTotalAmount then false
      else paymentsMatch txNew.vout 0 sb.vecPayments

end CSuperblock

/-! ## The triggers of a height -/

/-- `mapTrigger` of the trigger manager. -/
abbrev Triggers := Map Uint256 CSuperblock
abbrev Objects := Map Uint256 CGovernanceObject

def getActiveTriggers (mapTrigger : Triggers) (mapObjects : Objects) : List CSuperblock :=
  (mapTrigger.toList.filter fun it => mapObjects.contains it.1).map (·.2)

namespace CSuperblockManager

/-- What `UpdateSentinelVariables` reads outside the object. -/
structure SentinelContext where
  nGovernanceMinQuorum : Int
  countEnabled : Nat
  adjustedTime : Int

def SentinelContext.update (cx : SentinelContext) (o : CGovernanceObject) : CGovernanceObject :=
  o.updateSentinelVariables cx.nGovernanceMinQuorum cx.countEnabled cx.adjustedTime

/-- The votes a trigger needs for its funding, by the masternodes enabled now. -/
def SentinelContext.fundingQuorum (cx : SentinelContext) : Int := max cx.nGovernanceMinQuorum (cx.countEnabled / 10)

/-- The loop of `IsSuperblockTriggered` over the active triggers. -/
def anyTriggered (cs : ConsensusParams) (cx : SentinelContext) (nBlockHeight : Int) (mapObjects : Objects) :
    List CSuperblock → Bool × Objects
  | [] => (false, mapObjects)
  | pSuperblock :: vecTriggers =>
    match mapObjects[pSuperblock.nGovObjHash]? with
    | none => anyTriggered cs cx nBlockHeight mapObjects vecTriggers
    | some pObj =>
      if nBlockHeight ≠ cs.nSuperblockCycle then anyTriggered cs cx nBlockHeight mapObjects vecTriggers
      else
        let mapObjects := mapObjects.insert pSuperblock.nGovObjHash (cx.update pObj)
        if (cx.update pObj).fCachedFunding then (true, mapObjects)
        else anyTriggered cs cx nBlockHeight mapObjects vecTriggers

def isSuperblockTriggered (cs : ConsensusParams) (cx : SentinelContext) (mapTrigger : Triggers) (mapObjects : Objects)
    (nBlockHeight : Int) : Bool × Objects :=
  if !CSuperblock.isValidBlockHeight cs nBlockHeight then (false, mapObjects)
  else anyTriggered cs cx nBlockHeight mapObjects (getActiveTriggers mapTrigger mapObjects)

/-- One turn of `GetBestSuperblock`: the winner so far and its yes count. -/
def better (cs : ConsensusParams) (mapObjects : Objects) (nBlockHeight : Int) (best : Option CSuperblock × Int)
    (pSuperblock : CSuperblock) : Option CSuperblock × Int :=
  match mapObjects[pSuperblock.nGovObjHash]? with
  | none => best
  | some pObj =>
    if nBlockHeight ≠ cs.nSuperblockCycle then best
    else
      let nTempYesCount := pObj.getAbsoluteYesCount voteSignalFunding
      if nTempYesCount > best.2 then (some pSuperblock, nTempYesCount) else best

/-- `GetBestSuperblock`; `none` where it returns false. -/
def getBestSuperblock (cs : ConsensusParams) (mapTrigger : Triggers) (mapObjects : Objects) (nBlockHeight : Int) :
    Option CSuperblock :=
  if !CSuperblock.isValidBlockHeight cs nBlockHeight then none
  else
    let best := (getActiveTriggers mapTrigger mapObjects).foldl (better cs mapObjects nBlockHeight) (none, 0)
    if best.2 > 0 then best.1 else none

/-- `CreateSuperblock`: the coinbase with the payments at its end, and `voutSuperblockRet`. -/
def createSuperblock (cs : ConsensusParams) (mapTrigger : Triggers) (mapObjects : Objects) (txNewRet : CTransaction)
    (nBlockHeight : Int) (voutSuperblockRet : List CTxOut) : CTransaction × List CTxOut :=
  match getBestSuperblock cs mapTrigger mapObjects nBlockHeight with
  | none => (txNewRet, voutSuperblockRet)
  | some pSuperblock =>
    let payments := pSuperblock.vecPayments.map CGovernancePayment.toTxOut
    ({ txNewRet with vout := txNewRet.vout ++ payments }, payments)

def isValid (cs : ConsensusParams) (mapTrigger : Triggers) (mapObjects : Objects) (txNew : CTransaction) (nBlockHeight : Int)
    (blockReward : CAmount) : Option Bool :=
  match getBestSuperblock cs mapTrigger mapObjects nBlockHeight with
  | none => some false
  | some pSuperblock => pSuperblock.isValid cs txNew nBlockHeight blockReward

end CSuperblockManager

end Zumy.Governance
