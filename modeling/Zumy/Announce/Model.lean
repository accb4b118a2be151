/-
  Zumy.Announce.Model — masternode.cpp, masternodeman.cpp: the masternodes a node knows from
  their broadcasts, the pings that keep them alive and the PoSe ban scores.

  What a function reads of the rest of the node (clocks, chain, coins, sync, its own
  masternode) is in `Env`, one for each call; the hashes are in `Hashes`, the same for all.
  A function that works on the masternode it was pointed at (`pmn`) takes it and gives it
  back; `store` puts it back into the list.

  Left out: relaying, the requests to peers, payments and governance votes.
  `CActiveMasternode::ManageState`, which a broadcast under the node's own key runs, is not
  a part of that call: the broadcast and the ping it makes are calls of their own.
-/
import Mathlib.Logic.Equiv.List
import Zumy.Address
import Zumy.Lib.Decimal
import Zumy.Lib.OrdMap

namespace Zumy.Announce

open Lib

def masternodeCheckSeconds : Int := 5
def masternodeMinMnbSeconds : Int := 5 * 60
def masternodeMinMnpSeconds : Int := 10 * 60
def masternodeExpirationSeconds : Int := 65 * 60
def masternodeNewStartRequiredSeconds : Int := 180 * 60
def masternodePoseBanMaxScore : Int := 5
def protocolVersion : Int := 80005

abbrev CNetAddr := List UInt8

structure CService where
  ip : CNetAddr
  port : UInt16
  deriving DecidableEq, Repr, Inhabited

/-- `CTxIn()` -/
def nullTxIn : CTxIn := ⟨.null, [], 2 ^ 32 - 1⟩

structure CMasternodePing where
  vin : CTxIn
  blockHash : Uint256
  sigTime : Int
  vchSig : List UInt8
  deriving DecidableEq, Repr

/-- `CMasternodePing()` -/
def nullPing : CMasternodePing := ⟨nullTxIn, 0, 0, []⟩

/-- `operator==` -/
def CMasternodePing.equal (a b : CMasternodePing) : Bool := a.vin == b.vin && a.blockHash == b.blockHash

/-- `CMasternode::state` -/
inductive State where
  | preEnabled
  | enabled
  | expired
  | outpointSpent
  | updateRequired
  | watchdogExpired
  | newStartRequired
  | poseBan
  deriving DecidableEq, Repr

structure CMasternode where
  vin : CTxIn
  addr : CService
  pubKeyCollateralAddress : CPubKey
  pubKeyMasternode : CPubKey
  lastPing : CMasternodePing
  vchSig : List UInt8
  sigTime : Int
  nTimeLastChecked : Int
  nActiveState : State
  nProtocolVersion : Int
  nPoSeBanScore : Int
  nPoSeBanHeight : Int
  deriving DecidableEq, Repr

structure CMasternodeBroadcast extends CMasternode where
  fRecovery : Bool
  deriving DecidableEq, Repr

structure CMasternodeVerification where
  vin1 : CTxIn
  vin2 : CTxIn
  addr : CService
  nonce : Int
  nBlockHeight : Int
  vchSig1 : List UInt8
  vchSig2 : List UInt8
  deriving DecidableEq, Repr

/-- `GetHash` of a broadcast, a ping and a verification, by the fields each is made from. -/
structure Hashes where
  broadcast : CTxIn → CPubKey → Int → Uint256
  ping : CTxIn → Int → Uint256
  verification : CTxIn → CTxIn → CService → Int → Int → Uint256
  /-- `CalculateScore` hashes the block, then the block and the outpoint. -/
  block : Uint256 → Uint256
  blockAnd : Uint256 → Uint256 → Uint256

structure Env where
  getTime : Int
  getAdjustedTime : Int
  shutdownRequested : Bool
  fLiteMode : Bool
  isBlockchainSynced : Bool
  isMasternodeListSynced : Bool
  isSynced : Bool
  fMasterNode : Bool
  activeVin : CTxIn
  activePubKeyMasternode : CPubKey
  getMinMasternodePaymentsProto : Int
  /-- `TRY_LOCK(cs_main)` -/
  lockMain : Bool
  /-- The hashes of the active chain, by height. -/
  chain : List Uint256
  /-- The height of `pCurrentBlockIndex`, which is set when the chain is synced. -/
  currentHeight : Int
  /-- An unspent output: its amount and the height of its transaction. -/
  coins : COutPoint → Option (CAmount × Int)
  /-- The block is in `mapBlockIndex`. -/
  knowsBlock : Uint256 → Bool
  /-- The time of the block where the transaction got its confirmations, when it is found. -/
  confirmationTime : COutPoint → Option Int
  nMasternodeMinimumConfirmations : Int
  isVinAssociatedWithPubkey : CTxIn → CPubKey → Bool
  network : Network
  isValidNetAddr : CService → Bool
  /-- `IsRFC1918() || IsLocal()` -/
  isLocalNetAddr : CService → Bool
  keyID : CPubKey → Uint160
  verifyMessage : CPubKey → List UInt8 → List Char → Bool
  /-- `ToString(false)` -/
  addrToString : CService → List Char
  txInToString : CTxIn → List Char

structure CMasternodeMan where
  vMasternodes : List CMasternode
  /-- Each broadcast with the time it was seen. -/
  mapSeenMasternodeBroadcast : Map Uint256 (Int × CMasternodeBroadcast)
  mapSeenMasternodePing : Map Uint256 CMasternodePing
  mapSeenMasternodeVerification : Map Uint256 CMasternodeVerification
  /-- Until when replies are taken, and the nodes asked that did not reply yet. -/
  mMnbRecoveryRequests : Map Uint256 (Int × List CNetAddr)
  mMnbRecoveryGoodReplies : Map Uint256 (List CMasternodeBroadcast)

def CMasternodeMan.init : CMasternodeMan := ⟨[], ∅, ∅, ∅, ∅, ∅⟩

/-! ## Texts -/

/-- `ToString` of a hash: its bytes from the last to the first. -/
def hashToString (h : Uint256) : List Char := (List.range 64).map fun i => Nat.digitChar (uintToArith256 h / 16 ^ (63 - i) % 16)

def idToString (id : Uint160) : List Char :=
  id.1.reverse.flatMap fun b => [Nat.digitChar (b.toNat / 16), Nat.digitChar (b.toNat % 16)]

def toStringShort (o : COutPoint) : List Char := hashToString o.hash ++ '-' :: decimal o.n

/-! ## The chain -/

/-- `chainActive.Height()` -/
def Env.height (env : Env) : Int := env.chain.length - 1

def Env.getBlockHash (env : Env) (nBlockHeight : Int) : Option Uint256 :=
  if env.chain = [] then none
  else if nBlockHeight < -1 ∨ nBlockHeight > env.height then none
  else if nBlockHeight = -1 then env.chain.getLast?
  else env.chain[nBlockHeight.toNat]?

/-! ## A masternode -/

namespace CMasternode

def isEnabled (mn : CMasternode) : Bool := mn.nActiveState == .enabled
def isPoSeBanned (mn : CMasternode) : Bool := mn.nActiveState == .poseBan
def isExpired (mn : CMasternode) : Bool := mn.nActiveState == .expired
def isOutpointSpent (mn : CMasternode) : Bool := mn.nActiveState == .outpointSpent
def isUpdateRequired (mn : CMasternode) : Bool := mn.nActiveState == .updateRequired
def isWatchdogExpired (mn : CMasternode) : Bool := mn.nActiveState == .watchdogExpired
def isNewStartRequired (mn : CMasternode) : Bool := mn.nActiveState == .newStartRequired
def isPoSeVerified (mn : CMasternode) : Bool := mn.nPoSeBanScore ≤ -masternodePoseBanMaxScore

/-- `IsValidForPayment`; `fSentinel` when spork 14 is active. -/
def isValidForPayment (mn : CMasternode) (fSentinel : Bool) : Bool :=
  mn.isEnabled || (!fSentinel && mn.isWatchdogExpired)

def increasePoSeBanScore (mn : CMasternode) : CMasternode :=
  if mn.nPoSeBanScore < masternodePoseBanMaxScore then { mn with nPoSeBanScore := mn.nPoSeBanScore + 1 } else mn

def decreasePoSeBanScore (mn : CMasternode) : CMasternode :=
  if mn.nPoSeBanScore > -masternodePoseBanMaxScore then { mn with nPoSeBanScore := mn.nPoSeBanScore - 1 } else mn

def isBroadcastedWithin (env : Env) (mn : CMasternode) (nSeconds : Int) : Bool := env.getAdjustedTime - mn.sigTime < nSeconds

def isPingedWithin (env : Env) (mn : CMasternode) (nSeconds nTimeToCheckAt : Int) : Bool :=
  if mn.lastPing.equal nullPing then false
  else
    let nTimeToCheckAt := if nTimeToCheckAt = -1 then env.getAdjustedTime else nTimeToCheckAt
    nTimeToCheckAt - mn.lastPing.sigTime < nSeconds

def isOurs (env : Env) (mn : CMasternode) : Bool := env.fMasterNode && mn.pubKeyMasternode == env.activePubKeyMasternode

/-- The end of `Check`, for a masternode that is neither spent nor banned. -/
def checkPings (env : Env) (mn : CMasternode) : CMasternode :=
  let fOurMasternode := mn.isOurs env
  let fRequireUpdate := mn.nProtocolVersion < env.getMinMasternodePaymentsProto ||
    (fOurMasternode && mn.nProtocolVersion < protocolVersion)
  if fRequireUpdate then { mn with nActiveState := .updateRequired }
  else
    let fWaitForPing := !env.isMasternodeListSynced && !mn.isPingedWithin env masternodeMinMnpSeconds (-1)
    if fWaitForPing && !fOurMasternode && (mn.isExpired || mn.isWatchdogExpired || mn.isNewStartRequired) then mn
    else if (!fWaitForPing || fOurMasternode) && !mn.isPingedWithin env masternodeNewStartRequiredSeconds (-1) then
      { mn with nActiveState := .newStartRequired }
    else if (!fWaitForPing || fOurMasternode) && !mn.isPingedWithin env masternodeExpirationSeconds (-1) then
      { mn with nActiveState := .expired }
    else if mn.lastPing.sigTime - mn.sigTime < masternodeMinMnpSeconds then { mn with nActiveState := .preEnabled }
    else { mn with nActiveState := .enabled }

/-- `Check`; `size` is the length of the masternode list. -/
def check (env : Env) (size : Nat) (fForce : Bool) (mn : CMasternode) : CMasternode :=
  if env.shutdownRequested then mn
  else if !fForce && env.getTime - mn.nTimeLastChecked < masternodeCheckSeconds then mn
  else
    let mn := { mn with nTimeLastChecked := env.getTime }
    if mn.isOutpointSpent then mn
    else if !env.lockMain then mn
    else if (env.coins mn.vin.prevout).isNone then { mn with nActiveState := .outpointSpent }
    else if mn.isPoSeBanned then
      if env.height < mn.nPoSeBanHeight then mn else mn.decreasePoSeBanScore.checkPings env
    else if mn.nPoSeBanScore ≥ masternodePoseBanMaxScore then
      { mn with nActiveState := .poseBan, nPoSeBanHeight := env.height + size }
    else mn.checkPings env

def isValidStateForAutoStart (nActiveStateIn : State) : Bool :=
  nActiveStateIn == .enabled || nActiveStateIn == .preEnabled || nActiveStateIn == .expired || nActiveStateIn == .watchdogExpired

/-- `CMasternodeBroadcast(mn)` -/
def toBroadcast (mn : CMasternode) : CMasternodeBroadcast := { mn with fRecovery := false }

end CMasternode

def CMasternodeBroadcast.getHash (hs : Hashes) (mnb : CMasternodeBroadcast) : Uint256 :=
  hs.broadcast mnb.vin mnb.pubKeyCollateralAddress mnb.sigTime

def CMasternode.getHash (hs : Hashes) (mn : CMasternode) : Uint256 := mn.toBroadcast.getHash hs

/-- `CMasternode(mnb)` -/
def CMasternodeBroadcast.toMasternode (mnb : CMasternodeBroadcast) : CMasternode :=
  { mnb.toCMasternode with nTimeLastChecked := 0, nPoSeBanScore := 0, nPoSeBanHeight := 0 }

structure Announcement where
  vin : CTxIn
  addr : CService
  pubKeyCollateralAddress : CPubKey
  pubKeyMasternode : CPubKey
  vchSig : List UInt8
  sigTime : Int
  nProtocolVersion : Int
  lastPing : CMasternodePing
  deriving DecidableEq, Repr

/-- A broadcast as it is read, the other fields those of `CMasternodeBroadcast()`. -/
def Announcement.read (a : Announcement) : CMasternodeBroadcast where
  vin := a.vin
  addr := a.addr
  pubKeyCollateralAddress := a.pubKeyCollateralAddress
  pubKeyMasternode := a.pubKeyMasternode
  lastPing := a.lastPing
  vchSig := a.vchSig
  sigTime := a.sigTime
  nTimeLastChecked := 0
  nActiveState := .enabled
  nProtocolVersion := a.nProtocolVersion
  nPoSeBanScore := 0
  nPoSeBanHeight := 0
  fRecovery := false

/-- `CMasternodeBroadcast()` -/
def nullBroadcast (env : Env) : CMasternodeBroadcast :=
  Announcement.read ⟨nullTxIn, default, [], [], [], env.getAdjustedTime, protocolVersion, nullPing⟩

/-! ## The list -/

def isAt (vin : CTxIn) (mn : CMasternode) : Bool := mn.vin.prevout == vin.prevout

namespace CMasternodeMan

def size (m : CMasternodeMan) : Nat := m.vMasternodes.length
def find (m : CMasternodeMan) (vin : CTxIn) : Option CMasternode := m.vMasternodes.find? (isAt vin)

/-- What `Find` points at, replaced. -/
def store (m : CMasternodeMan) (pmn : CMasternode) : CMasternodeMan :=
  { m with vMasternodes := m.vMasternodes.set (m.vMasternodes.findIdx (isAt pmn.vin)) pmn }

def add (m : CMasternodeMan) (mn : CMasternode) : Bool × CMasternodeMan :=
  match m.find mn.vin with
  | some _ => (false, m)
  | none => (true, { m with vMasternodes := m.vMasternodes ++ [mn] })

end CMasternodeMan

/-! ## A node to run -/

/-- A synced node that is no masternode, at height 19. The signature of a key is the key itself;
    every output is a collateral with its confirmations. -/
def sampleEnv (now : Int) : Env where
  getTime := now
  getAdjustedTime := now
  shutdownRequested := false
  fLiteMode := false
  isBlockchainSynced := true
  isMasternodeListSynced := true
  isSynced := true
  fMasterNode := false
  activeVin := nullTxIn
  activePubKeyMasternode := []
  getMinMasternodePaymentsProto := 80004
  lockMain := true
  chain := List.range 20
  currentHeight := 19
  coins := fun _ => some (2000 * coin, 0)
  knowsBlock := fun _ => true
  confirmationTime := fun _ => some 0
  nMasternodeMinimumConfirmations := 15
  isVinAssociatedWithPubkey := fun _ _ => true
  network := .main
  isValidNetAddr := fun _ => true
  isLocalNetAddr := fun _ => false
  keyID := fun _ => ⟨List.replicate 20 0, rfl⟩
  verifyMessage := fun pubKey vchSig _ => vchSig == pubKey
  addrToString := fun _ => []
  txInToString := fun _ => []

def encodeTxIn (vin : CTxIn) : Nat :=
  Encodable.encode (vin.prevout.hash, vin.prevout.n, vin.scriptSig.map UInt8.toNat, vin.nSequence)

def sampleHashes : Hashes where
  broadcast := fun vin pubKey sigTime => Encodable.encode (encodeTxIn vin, pubKey.map UInt8.toNat, sigTime)
  ping := fun vin sigTime => Encodable.encode (encodeTxIn vin, sigTime)
  verification := fun vin1 vin2 addr nonce nBlockHeight =>
    Encodable.encode (encodeTxIn vin1, encodeTxIn vin2, addr.ip.map UInt8.toNat, addr.port.toNat, nonce, nBlockHeight)
  block := fun _ => 0
  blockAnd := fun _ aux => aux

def inputOf (k : Nat) : CTxIn := ⟨⟨k, 0⟩, [], 2 ^ 32 - 1⟩

end Zumy.Announce
