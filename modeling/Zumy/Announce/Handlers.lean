/-
  Zumy.Announce.Handlers — masternode.cpp, masternodeman.cpp: what broadcasts and pings do to
  the masternode list and to `mapSeenMasternodeBroadcast`.

  Each handler answers what the source returns, with the misbehaviour (`nDos`) it found where
  the source has one. `mapSeenMasternodeBroadcast[hash]` adds an empty broadcast when the map
  has none (`seenAt`).
-/
import Zumy.Announce.Verification
import Zumy.Lib.Run

namespace Zumy.Announce

open Lib

def mnbRecoveryQuorumRequired : Nat := 10
def mnbRecoveryMaxAskEntries : Nat := 10
def mnbRecoveryWaitSeconds : Int := 60
def mnbRecoveryRetrySeconds : Int := 3 * 60 * 60
def mainnetDefaultPort : UInt16 := 32000

variable (env : Env) (hs : Hashes)

/-! ## The seen broadcasts -/

namespace CMasternodeMan

/-- `mapSeenMasternodeBroadcast.insert` -/
def see (m : CMasternodeMan) (mnb : CMasternodeBroadcast) : CMasternodeMan :=
  { m with mapSeenMasternodeBroadcast := m.mapSeenMasternodeBroadcast.insertIfNew (mnb.getHash hs) (env.getTime, mnb) }

def forget (m : CMasternodeMan) (hash : Uint256) : CMasternodeMan :=
  { m with mapSeenMasternodeBroadcast := m.mapSeenMasternodeBroadcast.erase hash }

/-- `operator[]` -/
def seenAt (m : CMasternodeMan) (hash : Uint256) : CMasternodeBroadcast × CMasternodeMan :=
  match m.mapSeenMasternodeBroadcast[hash]? with
  | some e => (e.2, m)
  | none =>
    (nullBroadcast env,
      { m with mapSeenMasternodeBroadcast := m.mapSeenMasternodeBroadcast.insert hash (0, nullBroadcast env) })

def seeLastPing (m : CMasternodeMan) (pmn : CMasternode) (mnp : CMasternodePing) : CMasternodeMan :=
  { m with
    mapSeenMasternodeBroadcast := m.mapSeenMasternodeBroadcast.modify (pmn.getHash hs)
      fun e => (e.1, { e.2 with lastPing := mnp }) }

def seePing (m : CMasternodeMan) (mnp : CMasternodePing) : CMasternodeMan :=
  { m with mapSeenMasternodePing := m.mapSeenMasternodePing.insertIfNew (hs.ping mnp.vin mnp.sigTime) mnp }

end CMasternodeMan

/-! ## Pings -/

namespace CMasternodePing

def simpleCheck (mnp : CMasternodePing) : Bool × Int :=
  if mnp.sigTime > env.getAdjustedTime + 60 * 60 then (false, 1)
  else if !env.knowsBlock mnp.blockHash then (false, 0)
  else (true, 0)

def checkSignature (mnp : CMasternodePing) (pubKeyMasternode : CPubKey) : Bool × Int :=
  let strMessage := env.txInToString mnp.vin ++ hashToString mnp.blockHash ++ decimal mnp.sigTime
  if env.verifyMessage pubKeyMasternode mnp.vchSig strMessage then (true, 0) else (false, 33)

/-- `CheckAndUpdate` of a masternode that is there. -/
def checkAndUpdate (m : CMasternodeMan) (pmn : CMasternode) (mnp : CMasternodePing) (fFromNewBroadcast : Bool) :
    Bool × Int × CMasternode × CMasternodeMan :=
  let (fSimple, nDos) := mnp.simpleCheck env
  if !fSimple then (false, nDos, pmn, m)
  else if !fFromNewBroadcast && (pmn.isUpdateRequired || pmn.isNewStartRequired) then (false, nDos, pmn, m)
  else if pmn.isPingedWithin env (masternodeMinMnpSeconds - 60) mnp.sigTime then (false, nDos, pmn, m)
  else
    let (fSigned, nDos) := mnp.checkSignature env pmn.pubKeyMasternode
    if !fSigned then (false, nDos, pmn, m)
    else
      let pmn := { pmn with lastPing := mnp }
      let m := m.seeLastPing hs pmn mnp
      let pmn := pmn.check env m.size true
      (pmn.isEnabled, nDos, pmn, m)

end CMasternodePing

/-! ## Broadcasts -/

/-- What `UpdateFromNewBroadcast` takes of a broadcast as it is. -/
def CMasternode.takeFields (pmn : CMasternode) (mnb : CMasternodeBroadcast) : CMasternode :=
  { pmn with
    pubKeyMasternode := mnb.pubKeyMasternode
    sigTime := mnb.sigTime
    vchSig := mnb.vchSig
    nProtocolVersion := mnb.nProtocolVersion
    addr := mnb.addr
    nPoSeBanScore := 0
    nPoSeBanHeight := 0
    nTimeLastChecked := 0 }

def CMasternode.takeLastPing (m : CMasternodeMan) (pmn : CMasternode) (mnb : CMasternodeBroadcast) :
    CMasternode × CMasternodeMan :=
  if mnb.lastPing.equal nullPing then ({ pmn with lastPing := mnb.lastPing }, m.seePing hs mnb.lastPing)
  else
    let (fPing, _, pmn, m) := mnb.lastPing.checkAndUpdate env hs m pmn true
    if fPing then ({ pmn with lastPing := mnb.lastPing }, m.seePing hs mnb.lastPing) else (pmn, m)

def CMasternode.updateFromNewBroadcast (m : CMasternodeMan) (pmn : CMasternode) (mnb : CMasternodeBroadcast) :
    Bool × CMasternode × CMasternodeMan :=
  if mnb.sigTime ≤ pmn.sigTime && !mnb.fRecovery then (false, pmn, m)
  else
    let (pmn, m) := (pmn.takeFields mnb).takeLastPing env hs m mnb
    if pmn.isOurs env then
      let pmn := { pmn with nPoSeBanScore := -masternodePoseBanMaxScore }
      if pmn.nProtocolVersion == protocolVersion then (true, pmn, m) else (false, pmn, m)
    else (true, pmn, m)

namespace CMasternodeBroadcast

def strMessage (mnb : CMasternodeBroadcast) : List Char :=
  env.addrToString mnb.addr ++ decimal mnb.sigTime ++ idToString (env.keyID mnb.pubKeyCollateralAddress) ++
    idToString (env.keyID mnb.pubKeyMasternode) ++ decimal mnb.nProtocolVersion

def checkSignature (mnb : CMasternodeBroadcast) : Bool × Int :=
  if env.verifyMessage mnb.pubKeyCollateralAddress mnb.vchSig (mnb.strMessage env) then (true, 0) else (false, 100)

/-- An empty ping, or one that fails its own check, marks the broadcast as expired. -/
def markExpired (mnb : CMasternodeBroadcast) : Int × CMasternodeBroadcast :=
  let (fPing, nDos) := if mnb.lastPing.equal nullPing then (false, 0) else mnb.lastPing.simpleCheck env
  (nDos, { mnb with nActiveState := if fPing then mnb.nActiveState else .expired })

/-- The end of `SimpleCheck`. -/
def checkFields (mnb : CMasternodeBroadcast) (nDos : Int) : Bool × Int :=
  if mnb.nProtocolVersion < env.getMinMasternodePaymentsProto then (false, nDos)
  else if (getScriptForDestination (.keyID (env.keyID mnb.pubKeyCollateralAddress))).length ≠ 25 then (false, 100)
  else if (getScriptForDestination (.keyID (env.keyID mnb.pubKeyMasternode))).length ≠ 25 then (false, 100)
  else if mnb.vin.scriptSig ≠ [] then (false, 100)
  else if env.network = .main then (mnb.addr.port == mainnetDefaultPort, nDos)
  else (mnb.addr.port != mainnetDefaultPort, nDos)

def simpleCheck (mnb : CMasternodeBroadcast) : Bool × Int × CMasternodeBroadcast :=
  if !env.isValidNetAddr mnb.addr then (false, 0, mnb)
  else if mnb.sigTime > env.getAdjustedTime + 60 * 60 then (false, 1, mnb)
  else
    let (nDos, mnb) := mnb.markExpired env
    let (fOk, nDos) := mnb.checkFields env nDos
    (fOk, nDos, mnb)

/-- The checks of `Update`; `Check` has run on the masternode it gives back, unless they
    stopped before. -/
def checkUpdate (mnb : CMasternodeBroadcast) (size : Nat) (pmn : CMasternode) : Bool × Int × CMasternode :=
  if pmn.sigTime == mnb.sigTime && !mnb.fRecovery then (false, 0, pmn)
  else if pmn.sigTime > mnb.sigTime then (false, 0, pmn)
  else
    let pmn := pmn.check env size false
    if pmn.isPoSeBanned then (false, 0, pmn)
    else if pmn.pubKeyCollateralAddress != mnb.pubKeyCollateralAddress then (false, 33, pmn)
    else
      let (fSigned, nDos) := mnb.checkSignature env
      (fSigned, nDos, pmn)

/-- There was no broadcast recently, or it is the one of the node's own masternode. -/
def takesEntry (mnb : CMasternodeBroadcast) (pmn : CMasternode) : Bool :=
  !pmn.isBroadcastedWithin env masternodeMinMnbSeconds || mnb.toCMasternode.isOurs env

def update (m : CMasternodeMan) (mnb : CMasternodeBroadcast) (pmn : CMasternode) : Bool × Int × CMasternode × CMasternodeMan :=
  let (fOk, nDos, pmn) := mnb.checkUpdate env m.size pmn
  if !fOk then (false, nDos, pmn, m)
  else if mnb.takesEntry env pmn then
    let (fUpdated, pmn, m) := pmn.updateFromNewBroadcast env hs m mnb
    let pmn := if fUpdated then pmn.check env m.size false else pmn
    (true, nDos, pmn, m)
  else (true, nDos, pmn, m)

/-- `CheckOutpoint`, with the misbehaviour found before. -/
def checkOutpoint (m : CMasternodeMan) (mnb : CMasternodeBroadcast) (nDos : Int) : Bool × Int × CMasternodeMan :=
  if env.fMasterNode && mnb.vin.prevout == env.activeVin.prevout && mnb.pubKeyMasternode == env.activePubKeyMasternode then
    (false, nDos, m)
  else
    let (fSigned, nDos) := mnb.checkSignature env
    if !fSigned then (false, nDos, m)
    else if !env.lockMain then (false, nDos, m.forget (mnb.getHash hs))
    else match env.coins mnb.vin.prevout with
      | none => (false, nDos, m)
      | some (nValue, nHeight) =>
        if nValue ≠ 2000 * coin then (false, nDos, m)
        else if env.height - nHeight + 1 < env.nMasternodeMinimumConfirmations then (false, nDos, m.forget (mnb.getHash hs))
        else if !env.isVinAssociatedWithPubkey mnb.vin mnb.pubKeyCollateralAddress then (false, 33, m)
        else match env.confirmationTime mnb.vin.prevout with
          | some nTime => (!(nTime > mnb.sigTime), nDos, m)
          | none => (true, nDos, m)

end CMasternodeBroadcast

/-! ## The manager -/

def bumpSeen (m : CMasternodeMan) (hash : Uint256) (nTime : Int) : CMasternodeMan :=
  if env.getTime - nTime > masternodeNewStartRequiredSeconds - masternodeMinMnpSeconds * 2 then
    { m with mapSeenMasternodeBroadcast := m.mapSeenMasternodeBroadcast.modify hash fun e => (env.getTime, e.2) }
  else m

/-- The reply of a node that was asked for a broadcast: a good one has a newer ping than the one seen. -/
def takeReply (m : CMasternodeMan) (pfrom : Option CNetAddr) (mnb mnbSeen : CMasternodeBroadcast) : CMasternodeMan :=
  let hash := mnb.getHash hs
  match pfrom, m.mMnbRecoveryRequests[hash]? with
  | some addr, some (nUntil, setRequested) =>
    if env.getTime < nUntil && setRequested.contains addr then
      -- do not allow node to send same mnb multiple times in recovery mode
      let m := { m with mMnbRecoveryRequests := m.mMnbRecoveryRequests.insert hash (nUntil, setRequested.erase addr) }
      if mnb.lastPing.sigTime > mnbSeen.lastPing.sigTime then
        let mnTemp := mnb.toMasternode.check env m.size false
        if CMasternode.isValidStateForAutoStart mnTemp.nActiveState then
          { m with
            mMnbRecoveryGoodReplies := m.mMnbRecoveryGoodReplies.insert hash
              ((m.mMnbRecoveryGoodReplies[hash]?).getD [] ++ [mnb]) }
        else m
      else m
    else m
  | _, _ => m

/-- `CheckMnbAndUpdateMasternodeList` of a new broadcast of a listed masternode. -/
def updateListed (m : CMasternodeMan) (mnb : CMasternodeBroadcast) (pmn : CMasternode) : Bool × Int × CMasternodeMan :=
  let (mnbOld, m) := m.seenAt env (pmn.getHash hs)
  let (fUpdate, nDos, pmn, m) := mnb.update env hs m pmn
  let m := m.store pmn
  if !fUpdate then (false, nDos, m)
  else (true, nDos, if mnb.getHash hs ≠ mnbOld.getHash hs then m.forget (mnbOld.getHash hs) else m)

/-- `CheckMnbAndUpdateMasternodeList` of a new broadcast of a masternode that is not listed. The node's
    own with another protocol is listed, but not relayed. -/
def addListed (m : CMasternodeMan) (mnb : CMasternodeBroadcast) (nDos : Int) : Bool × Int × CMasternodeMan :=
  let (fOutpoint, nDos, m) := mnb.checkOutpoint env hs m nDos
  if !fOutpoint then (false, nDos, m)
  else (!(mnb.toCMasternode.isOurs env && mnb.nProtocolVersion != protocolVersion), nDos, (m.add mnb.toCMasternode).2)

def checkMnbAndUpdateMasternodeList (m : CMasternodeMan) (pfrom : Option CNetAddr) (mnb : CMasternodeBroadcast) :
    Bool × Int × CMasternodeMan :=
  match m.mapSeenMasternodeBroadcast[mnb.getHash hs]?, mnb.fRecovery with
  | some (nTime, mnbSeen), false => (true, 0, takeReply env hs (bumpSeen env m (mnb.getHash hs) nTime) pfrom mnb mnbSeen)
  | _, _ =>
    let m := m.see env hs mnb
    let (fSimple, nDos, mnb) := mnb.simpleCheck env
    if !fSimple then (false, nDos, m)
    else match m.find mnb.vin with
      | some pmn => updateListed env hs m mnb pmn
      | none => addListed env hs m mnb nDos

def updateMasternodeList (m : CMasternodeMan) (mnb : CMasternodeBroadcast) : CMasternodeMan :=
  let m := (m.seePing hs mnb.lastPing).see env hs mnb
  match m.find mnb.vin with
  | none => (m.add mnb.toMasternode).2
  | some pmn =>
    let (mnbOld, m) := m.seenAt env (pmn.getHash hs)
    let (fUpdated, pmn, m) := pmn.updateFromNewBroadcast env hs m mnb
    let m := m.store pmn
    if fUpdated then m.forget (mnbOld.getHash hs) else m

/-! ## `CheckAndRemove` -/

/-- The first loop: what is left of the list, and the manager whose other fields it wrote.
    `setRequested` are the nodes it can ask for a broadcast. -/
def removeSpent (setRequested : Uint256 → List CNetAddr) :
    Nat → List CMasternode → CMasternodeMan → List CMasternode × CMasternodeMan
  | _, [], m => ([], m)
  | nAskForMnbRecovery, it :: vMasternodes, m =>
    let hash := it.getHash hs
    if it.isOutpointSpent then removeSpent setRequested nAskForMnbRecovery vMasternodes (m.forget hash)
    else
      let fAsk := nAskForMnbRecovery > 0 && env.isSynced && it.isNewStartRequired && !m.mMnbRecoveryRequests.contains hash
      let m' :=
        if fAsk then
          { m with
            mMnbRecoveryRequests :=
              m.mMnbRecoveryRequests.insert hash (env.getTime + mnbRecoveryWaitSeconds, setRequested hash) }
        else m
      let nAskForMnbRecovery := if fAsk && setRequested hash ≠ [] then nAskForMnbRecovery - 1 else nAskForMnbRecovery
      let (left, m') := removeSpent setRequested nAskForMnbRecovery vMasternodes m'
      (it :: left, m')

/-- One turn of the second loop: the replies for one broadcast, which is taken again when the
    nodes asked agree. -/
def reprocess (m : CMasternodeMan) (reply : Uint256 × List CMasternodeBroadcast) : CMasternodeMan :=
  let nUntil := (m.mMnbRecoveryRequests[reply.1]?.map (·.1)).getD 0
  let m := { m with mMnbRecoveryRequests := m.mMnbRecoveryRequests.insertIfNew reply.1 (0, []) }
  if nUntil < env.getTime then
    let m := match reply.2 with
      | mnb :: _ =>
        if reply.2.length ≥ mnbRecoveryQuorumRequired then
          (checkMnbAndUpdateMasternodeList env hs m none { mnb with fRecovery := true }).2.2
        else m
      | [] => m
    { m with mMnbRecoveryGoodReplies := m.mMnbRecoveryGoodReplies.erase reply.1 }
  else m

def CMasternodeMan.check (m : CMasternodeMan) : CMasternodeMan :=
  { m with vMasternodes := m.vMasternodes.map (·.check env m.size false) }

/-- `CheckAndRemove` up to its second loop. -/
def checkAndRemoveSpent (setRequested : Uint256 → List CNetAddr) (m : CMasternodeMan) : CMasternodeMan :=
  let (left, m) := removeSpent env hs setRequested mnbRecoveryMaxAskEntries (m.check env).vMasternodes (m.check env)
  { m with vMasternodes := left }

/-- The end of `CheckAndRemove`. -/
def expire (m : CMasternodeMan) : CMasternodeMan :=
  { m with
    mMnbRecoveryRequests := m.mMnbRecoveryRequests.filter fun _ request => !(env.getTime - request.1 > mnbRecoveryRetrySeconds)
    mapSeenMasternodePing := m.mapSeenMasternodePing.filter fun _ mnp =>
      !(env.getTime - mnp.sigTime > masternodeNewStartRequiredSeconds)
    mapSeenMasternodeVerification := m.mapSeenMasternodeVerification.filter fun _ mnv =>
      !(mnv.nBlockHeight < env.currentHeight - maxPoseBlocks) }

def checkAndRemove (setRequested : Uint256 → List CNetAddr) (m : CMasternodeMan) : CMasternodeMan :=
  if !env.isMasternodeListSynced then m
  else
    let m := checkAndRemoveSpent env hs setRequested m
    expire env (m.mMnbRecoveryGoodReplies.toList.foldl (reprocess env hs) m)

/-! ## Messages -/

def mnAnnounce (m : CMasternodeMan) (pfrom : CNetAddr) (a : Announcement) : CMasternodeMan :=
  if env.fLiteMode || !env.isBlockchainSynced then m
  else (checkMnbAndUpdateMasternodeList env hs m (some pfrom) a.read).2.2

def mnPing (m : CMasternodeMan) (mnp : CMasternodePing) : CMasternodeMan :=
  if env.fLiteMode || !env.isBlockchainSynced then m
  else if m.mapSeenMasternodePing.contains (hs.ping mnp.vin mnp.sigTime) then m
  else
    let m := m.seePing hs mnp
    match m.find mnp.vin with
    | none => m
    | some pmn =>
      if pmn.isNewStartRequired then m
      else
        let (_, _, pmn, m) := mnp.checkAndUpdate env hs m pmn false
        m.store pmn

def sendMasternodes (vin : CTxIn) : List CMasternode → CMasternodeMan → CMasternodeMan
  | [], m => m
  | mn :: vMasternodes, m =>
    if vin ≠ nullTxIn ∧ vin ≠ mn.vin then sendMasternodes vin vMasternodes m
    else if env.isLocalNetAddr mn.addr then sendMasternodes vin vMasternodes m
    else if mn.isUpdateRequired then sendMasternodes vin vMasternodes m
    else
      let m := m.see env hs mn.toBroadcast
      if vin = mn.vin then m else sendMasternodes vin vMasternodes m

/-- SSEG; `fAsked` when the peer asked for the list already. -/
def sseg (m : CMasternodeMan) (vin : CTxIn) (fAsked : Bool) : CMasternodeMan :=
  if env.fLiteMode || !env.isBlockchainSynced then m
  else if !env.isSynced then m
  else if vin = nullTxIn ∧ fAsked = true then m
  else sendMasternodes env hs vin m.vMasternodes m

/-- `masternodebroadcast relay`, checked or not. -/
def relayBroadcast (m : CMasternodeMan) (a : Announcement) (fSafe : Bool) : CMasternodeMan :=
  if (a.read.checkSignature env).1 then
    if fSafe then (checkMnbAndUpdateMasternodeList env hs m none a.read).2.2 else updateMasternodeList env hs m a.read
  else m

def setMasternodeLastPing (m : CMasternodeMan) (vin : CTxIn) (mnp : CMasternodePing) : CMasternodeMan :=
  match m.find vin with
  | none => m
  | some pmn =>
    let pmn := { pmn with lastPing := mnp }
    ((m.store pmn).seePing hs mnp).seeLastPing hs pmn mnp

/-- `CheckMasternode`, by the masternode's key. -/
def checkMasternode (m : CMasternodeMan) (pubKeyMasternode : CPubKey) (fForce : Bool) : CMasternodeMan :=
  let i := m.vMasternodes.findIdx fun mn => mn.pubKeyMasternode == pubKeyMasternode
  { m with vMasternodes := m.vMasternodes.modify i (·.check env m.size fForce) }

end Zumy.Announce
