/-
  Zumy.Payments.Votes — the masternode payment votes (masternode-payments.h, .cpp).

  `mapMasternodePaymentVotes` holds every vote seen, by hash; one whose signature was
  dropped (`MarkAsNotVerified`) is not verified. `mapMasternodeBlocks` lists, for each
  height, the hashes of the votes for each payee. `mapMasternodesLastVote` keeps the
  height each masternode last voted for.

  What the functions ask the rest of the node (the masternode list, block hashes, ranks,
  the keys) is read from an `Env`, given anew with every event. The signed text is a
  function of outpoint, height and payee, so a signature is checked against those three.
  Heights are `Int`; where the source's 32-bit differences overflow is the subject of `VoteHeights`.
-/
import Zumy.Lib.Run
import Zumy.Lib.OrdMap
import Zumy.ChainParams

namespace Zumy.Payments

open Lib

def mnPaymentsSignaturesRequired : Nat := 10
def mnPaymentsSignaturesTotal : Int := 20
def minMasternodePaymentProtoVersion : Int := 70000

structure CMasternodePaymentVote where
  vinMasternode : CTxIn
  nBlockHeight : Int
  payee : CScript
  vchSig : List UInt8
  deriving DecidableEq, Repr, Inhabited

structure CMasternodePayee where
  scriptPubKey : CScript
  vecVoteHashes : List Uint256
  deriving DecidableEq, Repr

structure CMasternodeBlockPayees where
  nBlockHeight : Int
  vecPayees : List CMasternodePayee
  deriving DecidableEq, Repr

structure CMasternodePayments where
  /-- The height of `pCurrentBlockIndex`. -/
  pCurrentBlockIndex : Option Int
  mapMasternodePaymentVotes : Map Uint256 CMasternodePaymentVote
  mapMasternodeBlocks : Map Int CMasternodeBlockPayees
  mapMasternodesLastVote : Map COutPoint Int

def init : CMasternodePayments := ⟨none, ∅, ∅, ∅⟩

/-- What the payment code reads of `CMasternode` and `masternode_info_t`. -/
structure CMasternode where
  vin : CTxIn
  nProtocolVersion : Int
  pubKeyMasternode : CPubKey
  deriving DecidableEq, Repr

structure Env where
  fLiteMode : Bool
  fMasterNode : Bool
  isMasternodeListSynced : Bool
  /-- `SPORK_10_MASTERNODE_PAY_UPDATED_NODES` is active. -/
  payUpdatedNodes : Bool
  vMasternodes : List CMasternode
  getMasternodeRank : CTxIn → Int → Int → Int
  getBlockHash : Int → Option Uint256
  /-- The key a 65-byte signature of the message recovers to is this key. -/
  recoversTo : CPubKey → List UInt8 → COutPoint × Int × CScript → Bool
  activeMasternodeVin : CTxIn
  activeMasternodePubKey : CPubKey
  signMessage : COutPoint × Int × CScript → Option (List UInt8)
  /-- The payee script of `GetNextMasternodeInQueueForPayment`. -/
  nextPayeeInQueue : Int → Option CScript

namespace Env

/-- The spork is active or not: the source uses the answer as a protocol version. -/
def getMinMasternodePaymentsProto (env : Env) : Int := if env.payUpdatedNodes then 1 else 0

/-- `max(int(mnodeman.size() * 1.25), 5000)`. -/
def getStorageLimit (env : Env) : Int := max ((env.vMasternodes.length * 5 / 4 : Nat) : Int) 5000

def find (env : Env) (vin : CTxIn) : Option CMasternode := env.vMasternodes.find? fun mn => mn.vin.prevout = vin.prevout

/-- `CMessageSigner::VerifyMessage`: only 65 bytes are a compact signature. -/
def verifyMessage (env : Env) (pubKey : CPubKey) (vchSig : List UInt8) (message : COutPoint × Int × CScript) : Bool :=
  vchSig.length == 65 && env.recoversTo pubKey vchSig message

end Env

namespace CMasternodePaymentVote

variable (voteHash : CScript → Int → COutPoint → Uint256)

/-- The hash covers the payee, the height and the masternode, not the signature. -/
def getHash (v : CMasternodePaymentVote) : Uint256 := voteHash v.payee v.nBlockHeight v.vinMasternode.prevout

def isVerified (v : CMasternodePaymentVote) : Bool := !v.vchSig.isEmpty

def markAsNotVerified (v : CMasternodePaymentVote) : CMasternodePaymentVote := { v with vchSig := [] }

def message (v : CMasternodePaymentVote) : COutPoint × Int × CScript := (v.vinMasternode.prevout, v.nBlockHeight, v.payee)

def checkSignature (v : CMasternodePaymentVote) (env : Env) (pubKeyMasternode : CPubKey) : Bool :=
  env.verifyMessage pubKeyMasternode v.vchSig v.message

/-- `Sign`: the vote with its signature, when the signature verifies. -/
def sign (v : CMasternodePaymentVote) (env : Env) : Option CMasternodePaymentVote :=
  (env.signMessage v.message).bind fun vchSig =>
    if env.verifyMessage env.activeMasternodePubKey vchSig v.message then some { v with vchSig } else none

def isValid (v : CMasternodePaymentVote) (env : Env) (nValidationHeight : Int) : Bool :=
  match env.find v.vinMasternode with
  | none => false
  | some mn =>
    let nMinRequiredProtocol :=
      if v.nBlockHeight ≥ nValidationHeight then env.getMinMasternodePaymentsProto else minMasternodePaymentProtoVersion
    if mn.nProtocolVersion < nMinRequiredProtocol then false
    else if !env.fMasterNode && v.nBlockHeight < nValidationHeight then true
    else !(env.getMasternodeRank v.vinMasternode (v.nBlockHeight - 101) nMinRequiredProtocol > mnPaymentsSignaturesTotal)

end CMasternodePaymentVote

/-! ## The payees of one height -/

namespace CMasternodePayee

def addVoteHash (p : CMasternodePayee) (hash : Uint256) : CMasternodePayee :=
  { p with vecVoteHashes := p.vecVoteHashes ++ [hash] }

def getVoteCount (p : CMasternodePayee) : Nat := p.vecVoteHashes.length

end CMasternodePayee

namespace CMasternodeBlockPayees

def addVoteHash (payee : CScript) (hash : Uint256) : List CMasternodePayee → List CMasternodePayee
  | [] => [⟨payee, [hash]⟩]
  | p :: ps => if p.scriptPubKey = payee then p.addVoteHash hash :: ps else p :: addVoteHash payee hash ps

def addPayee (voteHash : CScript → Int → COutPoint → Uint256) (b : CMasternodeBlockPayees) (v : CMasternodePaymentVote) :
    CMasternodeBlockPayees :=
  { b with vecPayees := addVoteHash v.payee (v.getHash voteHash) b.vecPayees }

def voteHashes (b : CMasternodeBlockPayees) : List Uint256 := b.vecPayees.flatMap (·.vecVoteHashes)

end CMasternodeBlockPayees

/-! ## Adding and removing votes -/

namespace CMasternodePayments

def voteHashes (s : CMasternodePayments) (nBlockHeight : Int) : List Uint256 :=
  (s.mapMasternodeBlocks[nBlockHeight]?).elim [] (·.voteHashes)

def Verified (s : CMasternodePayments) (hash : Uint256) (v : CMasternodePaymentVote) : Prop :=
  s.mapMasternodePaymentVotes[hash]? = some v ∧ v.isVerified = true

def clear (s : CMasternodePayments) : CMasternodePayments :=
  { s with mapMasternodeBlocks := ∅, mapMasternodePaymentVotes := ∅ }

def hasVerifiedPaymentVote (s : CMasternodePayments) (hash : Uint256) : Bool :=
  (s.mapMasternodePaymentVotes[hash]?).any (·.isVerified)

/-- `CanVote`: the answer, and the state with the height recorded. -/
def canVote (s : CMasternodePayments) (outMasternode : COutPoint) (nBlockHeight : Int) : Bool × CMasternodePayments :=
  if s.mapMasternodesLastVote[outMasternode]? = some nBlockHeight then (false, s)
  else (true, { s with mapMasternodesLastVote := s.mapMasternodesLastVote.insert outMasternode nBlockHeight })

variable (voteHash : CScript → Int → COutPoint → Uint256)

def putVote (s : CMasternodePayments) (v : CMasternodePaymentVote) : CMasternodePayments :=
  let blockPayees := (s.mapMasternodeBlocks[v.nBlockHeight]?).getD ⟨v.nBlockHeight, []⟩
  { s with
    mapMasternodePaymentVotes := s.mapMasternodePaymentVotes.insert (v.getHash voteHash) v
    mapMasternodeBlocks := s.mapMasternodeBlocks.insert v.nBlockHeight (blockPayees.addPayee voteHash v) }

/-- `AddPaymentVote` counts the vote: the block its rank is taken from is known, and no
verified vote has its hash. -/
def countsVote (s : CMasternodePayments) (env : Env) (v : CMasternodePaymentVote) : Bool :=
  (env.getBlockHash (v.nBlockHeight - 101)).isSome && !s.hasVerifiedPaymentVote (v.getHash voteHash)

def addPaymentVote (s : CMasternodePayments) (env : Env) (v : CMasternodePaymentVote) : CMasternodePayments :=
  if s.countsVote voteHash env v then s.putVote voteHash v else s

def storeSeen (s : CMasternodePayments) (v : CMasternodePaymentVote) : CMasternodePayments :=
  { s with mapMasternodePaymentVotes := s.mapMasternodePaymentVotes.insert (v.getHash voteHash) v.markAsNotVerified }

/-- `CheckAndRemove` at one vote. -/
def removeOld (nHeight nLimit : Int) (s : CMasternodePayments) (kv : Uint256 × CMasternodePaymentVote) : CMasternodePayments :=
  if nHeight - kv.2.nBlockHeight > nLimit then
    { s with
      mapMasternodePaymentVotes := s.mapMasternodePaymentVotes.erase kv.1
      mapMasternodeBlocks := s.mapMasternodeBlocks.erase kv.2.nBlockHeight }
  else s

def checkAndRemove (s : CMasternodePayments) (env : Env) : CMasternodePayments :=
  match s.pCurrentBlockIndex with
  | none => s
  | some nHeight => s.mapMasternodePaymentVotes.toList.foldl (removeOld nHeight env.getStorageLimit) s

end CMasternodePayments

/-! ## Messages and blocks -/

namespace Env

/-- A vote message the node does not read: it is not synced, in lite mode, or the peer is too old. -/
def ignoresVotes (env : Env) (nVersion : Int) : Bool :=
  !env.isMasternodeListSynced || env.fLiteMode || nVersion < env.getMinMasternodePaymentsProto

def inRange (env : Env) (nHeight nBlockHeight : Int) : Bool :=
  !(nBlockHeight < nHeight - env.getStorageLimit || nBlockHeight > nHeight + 20)

/-- The vote `ProcessBlock` builds and signs for a height, when this node is a masternode
of the top ranks and finds one to pay. -/
def ownVote (env : Env) (nBlockHeight : Int) : Option CMasternodePaymentVote :=
  if env.fLiteMode || !env.fMasterNode || !env.isMasternodeListSynced then none
  else
    let nRank := env.getMasternodeRank env.activeMasternodeVin (nBlockHeight - 101) env.getMinMasternodePaymentsProto
    if nRank = -1 ∨ nRank > mnPaymentsSignaturesTotal then none
    else (env.nextPayeeInQueue nBlockHeight).bind fun payee =>
      CMasternodePaymentVote.sign ⟨env.activeMasternodeVin, nBlockHeight, payee, []⟩ env

end Env

namespace CMasternodePayments

variable (voteHash : CScript → Int → COutPoint → Uint256)

/-- `ProcessMessage` from the signature check on. -/
def checkVote (s : CMasternodePayments) (env : Env) (v : CMasternodePaymentVote) : CMasternodePayments :=
  match env.find v.vinMasternode with
  | none => s
  | some mnInfo => if v.checkSignature env mnInfo.pubKeyMasternode then s.addPaymentVote voteHash env v else s

/-- `ProcessMessage` after the vote was stored as seen. -/
def readVote (s : CMasternodePayments) (env : Env) (nHeight : Int) (v : CMasternodePaymentVote) : CMasternodePayments :=
  if !env.inRange nHeight v.nBlockHeight then s
  else if !v.isValid env nHeight then s
  else
    let (fCanVote, s) := s.canVote v.vinMasternode.prevout v.nBlockHeight
    if !fCanVote then s else s.checkVote voteHash env v

/-- `ProcessMessage` of a MASTERNODEPAYMENTVOTE from a peer of version `nVersion`. -/
def processMessage (s : CMasternodePayments) (env : Env) (nVersion : Int) (v : CMasternodePaymentVote) : CMasternodePayments :=
  if env.ignoresVotes nVersion then s
  else match s.pCurrentBlockIndex with
    | none => s
    | some nHeight =>
      if s.mapMasternodePaymentVotes.contains (v.getHash voteHash) then s
      else (s.storeSeen voteHash v).readVote voteHash env nHeight v

/-- `ProcessBlock`: the own vote is counted without `CanVote`. -/
def processBlock (s : CMasternodePayments) (env : Env) (nBlockHeight : Int) : CMasternodePayments :=
  match env.ownVote nBlockHeight with
  | none => s
  | some voteNew => s.addPaymentVote voteHash env voteNew

def updatedBlockTip (s : CMasternodePayments) (env : Env) (nHeight : Int) : CMasternodePayments :=
  processBlock voteHash { s with pCurrentBlockIndex := some nHeight } env (nHeight + 10)

def restart (s : CMasternodePayments) : CMasternodePayments :=
  { s with pCurrentBlockIndex := none, mapMasternodesLastVote := ∅ }

end CMasternodePayments

inductive Event where
  | paymentVote (nVersion : Int) (v : CMasternodePaymentVote)
  | updatedBlockTip (nHeight : Int)
  | checkAndRemove
  | clear
  | restart

def next (voteHash : CScript → Int → COutPoint → Uint256) (s : CMasternodePayments) (ev : Env × Event) : CMasternodePayments :=
  match ev.2 with
  | .paymentVote nVersion v => s.processMessage voteHash ev.1 nVersion v
  | .updatedBlockTip nHeight => s.updatedBlockTip voteHash ev.1 nHeight
  | .checkAndRemove => s.checkAndRemove ev.1
  | .clear => s.clear
  | .restart => s.restart

def step (voteHash : CScript → Int → COutPoint → Uint256) (s : CMasternodePayments) (ev : Env × Event) :
    Option CMasternodePayments :=
  some (next voteHash s ev)

/-! ## A small network -/

def masternodeVin (k : Nat) : CTxIn := ⟨⟨7, k⟩, [], 0⟩

def signWith (pubKey : CPubKey) (message : COutPoint × Int × CScript) : List UInt8 :=
  List.replicate 65 (pubKey.headD 0 + 16 * UInt8.ofNat message.2.1.toNat + message.2.2.headD 0)

/-- Two masternodes, 1 and 2, in a node that is synced and not a masternode itself. -/
def network : Env where
  fLiteMode := false
  fMasterNode := false
  isMasternodeListSynced := true
  payUpdatedNodes := true
  vMasternodes := [⟨masternodeVin 1, 70206, [1]⟩, ⟨masternodeVin 2, 70206, [2]⟩]
  getMasternodeRank _ _ _ := 1
  getBlockHash _ := some 0
  recoversTo pubKey vchSig message := vchSig == signWith pubKey message
  activeMasternodeVin := masternodeVin 0
  activeMasternodePubKey := []
  signMessage _ := none
  nextPayeeInQueue _ := none

/-- Masternode `k`'s signed vote that `payee` is paid at a height. -/
def signedVote (k : Nat) (nBlockHeight : Int) (payee : CScript) : CMasternodePaymentVote :=
  ⟨masternodeVin k, nBlockHeight, payee, signWith [UInt8.ofNat k] (⟨7, k⟩, nBlockHeight, payee)⟩

def smallHash (payee : CScript) (nBlockHeight : Int) (o : COutPoint) : Uint256 :=
  (payee.foldl (fun n b => n * 257 + b.toNat + 1) 0 * 1000 + nBlockHeight.toNat) * 1000 + o.n

def firstVote : List (Env × Event) := [(network, .updatedBlockTip 5), (network, .paymentVote 70206 (signedVote 1 10 [5]))]

end Zumy.Payments
