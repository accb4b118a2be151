/-
  Zumy.InstantSend.Model — transaction locks (instantsend.cpp, instantsend.h).

  A lock request becomes a candidate with one `COutPointLock` per input; masternodes
  vote for (transaction, outpoint); a candidate whose outpoints all have
  `signaturesRequired` votes locks its inputs in `mapLockedOutpoints`. Votes that come
  before their request wait in `mapTxLockVotesOrphan` and are replayed by every
  request that becomes a candidate.

  A function returns `none` where the source dereferences an iterator equal to `end()`:
  the lookups of a hash of `mapVotedOutpoints` in `mapTxLockCandidates`. Everything a
  step reads outside `CInstantSend` is in `Env`, one per step; logging, relaying, the
  wallet's counters and the requests to peers are left out.
-/
import Zumy.Lib.Run
import Zumy.Primitives

namespace Zumy.InstantSend

def signaturesRequired : Nat := 10
def signaturesTotal : Int := 20
def orphanVoteSeconds : Int := 60
def instantsendConfirmationsRequired : Int := 10
def minInstantsendProtoVersion : Int := 70000
def warnManyInputs : Nat := 100
def minFee : CAmount := coin / 1000

structure CTxLockRequest extends CTransaction where
  nTimeCreated : Int
  deriving DecidableEq, Repr

structure CTxLockVote where
  txHash : Uint256
  outpoint : COutPoint
  outpointMasternode : COutPoint
  vchMasternodeSignature : List UInt8
  nConfirmedHeight : Int
  nTimeCreated : Int
  deriving DecidableEq, Repr, Inhabited

structure COutPointLock where
  outpoint : COutPoint
  mapMasternodeVotes : Map COutPoint CTxLockVote

structure CTxLockCandidate where
  nConfirmedHeight : Int
  txLockRequest : CTxLockRequest
  mapOutPointLocks : Map COutPoint COutPointLock

structure CInstantSend where
  pCurrentBlockIndex : Option Int
  mapLockRequestAccepted : Map Uint256 CTxLockRequest
  mapLockRequestRejected : Map Uint256 CTxLockRequest
  mapTxLockVotes : Map Uint256 CTxLockVote
  mapTxLockVotesOrphan : Map Uint256 CTxLockVote
  mapTxLockCandidates : Map Uint256 CTxLockCandidate
  mapVotedOutpoints : Map COutPoint HashSet
  mapLockedOutpoints : Map COutPoint Uint256
  mapMasternodeOrphanVotes : Map COutPoint Int

def init : CInstantSend := ⟨none, ∅, ∅, ∅, ∅, ∅, ∅, ∅, ∅⟩

/-- A notification the chain or the mempool sends to `CInstantSend`. The block of a
    synced transaction is absent (0-confirmed), unknown, or at a height. -/
inductive Notification where
  | syncTransaction (tx : CTransaction) (pblock : Option (Option Int))
  | updatedBlockTip (pindex : Option Int)

inductive MempoolResult where
  | accepted
  | missingInputs
  | rejected
  deriving DecidableEq, Repr

/-- What one step reads outside `CInstantSend`. -/
structure Env where
  now : Int
  fLiteMode : Bool
  fBlocksOnly : Bool
  fMasterNode : Bool
  fEnableInstantSend : Bool
  /-- `fLargeWorkForkFound || fLargeWorkInvalidChainFound` -/
  fLargeWork : Bool
  spork2Active : Bool
  spork5Value : Int
  masternodeListSynced : Bool
  nInstantSendKeepLock : Int
  chainHeight : Int
  activeMasternode : COutPoint
  activePubKey : CPubKey
  /-- The masternode's key, when the list has it. -/
  masternodeInfo : COutPoint → Option CPubKey
  /-- `GetMasternodeRank` at a height; -1 when it has none. -/
  getMasternodeRank : COutPoint → Int → Int
  verifyMessage : CPubKey → List UInt8 → Uint256 × COutPoint → Bool
  signMessage : Uint256 × COutPoint → Option (List UInt8)
  /-- Height and value of an unspent output. -/
  getCoin : COutPoint → Option (Int × CAmount)
  /-- Height and value of an output of a confirmed transaction, spent or not. -/
  outpointCreated : COutPoint → Option (Int × CAmount)
  checkFinalTx : CTransaction → Bool
  isNormalPaymentScript : CScript → Bool
  isUnspendable : CScript → Bool
  acceptToMemoryPool : CTransaction → MempoolResult
  /-- What the rest of `ResolveConflicts` does once no completed lock conflicts: evict
      from the mempool, disconnect and reconnect the tip. It answers and it notifies. -/
  resolveChain : CInstantSend → CTxLockRequest → Bool × List Notification

def Env.getUTXOHeight (env : Env) (o : COutPoint) : Int :=
  match env.getCoin o with
  | none => -1
  | some c => c.1

/-! ## Lock requests -/

def CTxLockRequest.getMinFee (T : CTxLockRequest) : CAmount := max minFee (T.vin.length * minFee)

/-- The value an input adds, `none` where `IsValid` returns false at it. -/
def CTxLockRequest.inputValue (env : Env) (fRequireUnspent : Bool) (txin : CTxIn) : Option CAmount :=
  let prev := match env.getCoin txin.prevout with
    | some c => some c
    | none => if !fRequireUnspent then none else env.outpointCreated txin.prevout
  prev.bind fun c =>
    let nTxAge := env.chainHeight - c.1 + 1
    if nTxAge < instantsendConfirmationsRequired - 1 then none else some c.2

def CTxLockRequest.isValid (env : Env) (T : CTxLockRequest) (fRequireUnspent : Bool) : Bool :=
  if T.vout.length < 1 then false
  else if T.vin.length > warnManyInputs then false
  else if !env.checkFinalTx T.toCTransaction then false
  else if T.vout.any fun o => !env.isNormalPaymentScript o.scriptPubKey && !env.isUnspendable o.scriptPubKey then false
  else match T.vin.mapM (CTxLockRequest.inputValue env fRequireUnspent) with
    | none => false
    | some values =>
      let nValueIn := values.sum
      let nValueOut := (T.vout.map CTxOut.nValue).sum
      if nValueOut > env.spork5Value * coin then false
      else if nValueIn - nValueOut < T.getMinFee then false
      else true

/-! ## Votes -/

def CTxLockVote.checkSignature (env : Env) (v : CTxLockVote) : Bool :=
  match env.masternodeInfo v.outpointMasternode with
  | none => false
  | some pubKey => env.verifyMessage pubKey v.vchMasternodeSignature (v.txHash, v.outpoint)

/-- The height of the block with the outpoint, spent or not; `none` where it is unknown. -/
def Env.prevoutHeight (env : Env) (o : COutPoint) : Option Int :=
  if env.getUTXOHeight o = -1 then (env.outpointCreated o).map (·.1) else some (env.getUTXOHeight o)

def CTxLockVote.isValid (env : Env) (v : CTxLockVote) : Bool :=
  if (env.masternodeInfo v.outpointMasternode).isNone then false
  else match env.prevoutHeight v.outpoint with
    | none => false
    | some nPrevoutHeight =>
      let nLockInputHeight := nPrevoutHeight + 4
      let n := env.getMasternodeRank v.outpointMasternode nLockInputHeight
      if n = -1 then false
      else if n > signaturesTotal then false
      else v.checkSignature env

/-- `Sign`: the signature made, when it verifies under the active masternode's own key. -/
def CTxLockVote.sign (env : Env) (v : CTxLockVote) : Option CTxLockVote :=
  match env.signMessage (v.txHash, v.outpoint) with
  | none => none
  | some sig =>
    if !env.verifyMessage env.activePubKey sig (v.txHash, v.outpoint) then none
    else some { v with vchMasternodeSignature := sig }

def isExpired (env : Env) (nConfirmedHeight nHeight : Int) : Bool :=
  nConfirmedHeight != -1 && decide (nHeight - nConfirmedHeight > env.nInstantSendKeepLock)

/-! ## Candidates -/

def COutPointLock.hasMasternodeVoted (l : COutPointLock) (mn : COutPoint) : Bool := l.mapMasternodeVotes.contains mn
def COutPointLock.countVotes (l : COutPointLock) : Nat := l.mapMasternodeVotes.size
def COutPointLock.isReady (l : COutPointLock) : Bool := signaturesRequired ≤ l.countVotes

/-- `none` where the source returns false and changes nothing. -/
def COutPointLock.addVote (l : COutPointLock) (v : CTxLockVote) : Option COutPointLock :=
  if l.mapMasternodeVotes.contains v.outpointMasternode then none
  else some { l with mapMasternodeVotes := l.mapMasternodeVotes.insertIfNew v.outpointMasternode v }

def CTxLockCandidate.addOutPointLock (c : CTxLockCandidate) (o : COutPoint) : CTxLockCandidate :=
  { c with mapOutPointLocks := c.mapOutPointLocks.insertIfNew o ⟨o, ∅⟩ }

def CTxLockCandidate.addVote (c : CTxLockCandidate) (v : CTxLockVote) : Option CTxLockCandidate :=
  match c.mapOutPointLocks[v.outpoint]? with
  | none => none
  | some l => (l.addVote v).map fun l' => { c with mapOutPointLocks := c.mapOutPointLocks.insert v.outpoint l' }

def CTxLockCandidate.isAllOutPointsReady (c : CTxLockCandidate) : Bool :=
  !c.mapOutPointLocks.isEmpty && c.mapOutPointLocks.toList.all fun kv => kv.2.isReady

def CTxLockCandidate.hasMasternodeVoted (c : CTxLockCandidate) (o mn : COutPoint) : Bool :=
  match c.mapOutPointLocks[o]? with
  | none => false
  | some l => l.hasMasternodeVoted mn

def CTxLockCandidate.countVotes (c : CTxLockCandidate) : Nat := (c.mapOutPointLocks.toList.map fun kv => kv.2.countVotes).sum

/-- The candidate `CreateTxLockCandidate` makes of a request, its inputs taken in reverse. -/
def CTxLockCandidate.ofRequest (T : CTxLockRequest) : CTxLockCandidate :=
  (T.vin.reverse.map CTxIn.prevout).foldl CTxLockCandidate.addOutPointLock ⟨-1, T, ∅⟩

end Zumy.InstantSend
