/-
  Zumy.Governance.Manager — governance.cpp: the governance objects of a node, its
  messages, and the calls that pass between them and the masternode list.

  A `Node` has both managers: a vote's masternode index comes from the masternode list,
  and the first one asked for after a rebuild of the index makes the governance manager
  move the records of all its objects (`rebuildVoteMaps`). `log` is a ghost: it keeps
  what was done to the votes of the stored objects, and nothing reads it.

  Left out: relaying, requests to peers, the wallet, and the triggers of superblocks, of
  which `Env` says only the objects they expire. The rate check of objects is an argument.
-/
import Zumy.Lib.Run
import Zumy.Governance.Object

namespace Zumy.Governance

open Lib Container Masternode

def maxCacheSize : Nat := 1000000
def minGovernancePeerProtoVersion : Int := 70000
def seenObjectIsValid : Nat := 0
def seenObjectErrorInvalid : Nat := 1

structure CGovernanceManager where
  pCurrentBlockIndex : Option Int
  mapObjects : Map Uint256 CGovernanceObject
  mapSeenGovernanceObjects : Map Uint256 Nat
  mapMasternodeOrphanObjects : Map Uint256 (CGovernanceObject × Int)
  mapWatchdogObjects : Map Uint256 Int
  nHashWatchdogCurrent : Uint256
  nTimeWatchdogCurrent : Int
  /-- The object a vote points at, by its key in `mapObjects`. -/
  mapVoteToObject : CacheMap Uint256 Uint256
  mapInvalidVotes : CacheMap Uint256 CGovernanceVote
  mapOrphanVotes : OrphanVotes
  setRequestedObjects : HashSet
  setRequestedVotes : HashSet
  fRateChecksEnabled : Bool

def CGovernanceManager.init : CGovernanceManager :=
  ⟨none, ∅, ∅, ∅, ∅, 0, 0, .empty maxCacheSize, .empty maxCacheSize, .empty maxCacheSize, ∅, ∅, true⟩

inductive VoteLog where
  | inserted (nHash : Uint256)
  | accepted (nHash : Uint256) (vote : CGovernanceVote)
  /-- `ClearMasternodeVotes` ran on the object; the masternodes listed then. -/
  | cleared (nHash : Uint256) (listed : List COutPoint)
  /-- `RebuildVoteMaps` ran with this index. -/
  | migrated (index : CMasternodeIndex)

structure Node where
  governance : CGovernanceManager
  mnodeman : CMasternodeMan
  log : List VoteLog

def Node.init : Node := ⟨.init, .init, []⟩

structure Env where
  now : Int
  adjustedTime : Int
  fLiteMode : Bool
  blockchainSynced : Bool
  masternodeListSynced : Bool
  synced : Bool
  nGovernanceMinQuorum : Int
  countEnabled : Int
  verifyMessage : CPubKey → List UInt8 → VoteMessage → Bool
  checkSignature : CPubKey → CGovernanceObject → Bool
  isCollateralValid : CGovernanceObject → Bool
  /-- `MasternodeRateCheck` without and with force: its answer and `fRateCheckBypassed`. -/
  masternodeRateCheck : CGovernanceObject → Bool → Bool × Bool
  /-- The objects `CGovernanceTriggerManager::CleanAndRemove` expires, where they are triggers. -/
  outdatedTriggers : List Uint256
  isOutpointSpent : COutPoint → Bool
  /-- The masternode vector moves its elements to grow. -/
  fReallocates : Bool

namespace Node

/-- `mapObjects` after an update, and other fields of the governance manager. -/
def withGovernance (s : Node) (g : CGovernanceManager) : Node := { s with governance := g }

def putObjects (s : Node) (mapObjects : Map Uint256 CGovernanceObject) : Node :=
  { s with governance := { s.governance with mapObjects := mapObjects } }

def setRateChecks (s : Node) (fRateChecksEnabled : Bool) : Node :=
  { s with governance := { s.governance with fRateChecksEnabled := fRateChecksEnabled } }

end Node

/-! ## Masternode indexes -/

def rebuildVoteMaps (s : Node) : Node where
  governance := { s.governance with mapObjects := s.governance.mapObjects.map fun _ o => o.rebuildVoteMap s.mnodeman }
  mnodeman := s.mnodeman.clearOldMasternodeIndex
  log := .migrated s.mnodeman.indexMasternodes :: s.log

/-- `RebuildVoteMaps` on a rebuilt index comes before any index is used. -/
def useIndex (s : Node) : Node := if s.mnodeman.fIndexRebuilt then rebuildVoteMaps s else s

/-- `CGovernanceManager::GetMasternodeIndex` -/
def getMasternodeIndex (s : Node) (vin : CTxIn) : Int × Node :=
  ((useIndex s).mnodeman.indexMasternodes.getMasternodeIndex vin, useIndex s)

section

-- `CGovernanceVote::GetHash`
variable (voteHash : CGovernanceVote → Uint256)

/-! ## Votes -/

def voteContext (env : Env) (s : Node) : VoteContext :=
  ⟨env.now, env.adjustedTime, s.governance.fRateChecksEnabled,
   CGovernanceVote.isValid env.now s.mnodeman.masternodeInfo env.verifyMessage⟩

/-- What `CGovernanceObject::ProcessVote` leaves in the managers: a vote found invalid is
    remembered, a vote taken is noted with its masternode. -/
def noteVote (s : Node) (vote : CGovernanceVote) : Except VoteError Unit → Node
  | .ok () => { s with mnodeman := s.mnodeman.addGovernanceVote vote.vinMasternode vote.nParentHash }
  | .error .invalidVote =>
    { s with governance := { s.governance with mapInvalidVotes := s.governance.mapInvalidVotes.insert (voteHash vote) vote } }
  | .error _ => s

/-- `CGovernanceObject::ProcessVote` of an object that is not in `mapObjects`. -/
def processVoteOn (env : Env) (s : Node) (o : CGovernanceObject) (vote : CGovernanceVote) :
    Except VoteError Unit × Node × CGovernanceObject :=
  let (nMNIndex, s) := getMasternodeIndex s vote.vinMasternode
  let (answer, o) := o.processVote voteHash (voteContext env s) nMNIndex vote
  (answer, noteVote voteHash s vote answer, o)

/-- `CGovernanceObject::ProcessVote` of the object stored under a hash. -/
def processStoredVote (env : Env) (s : Node) (nHash : Uint256) (vote : CGovernanceVote) : Except VoteError Unit × Node :=
  let (nMNIndex, s) := getMasternodeIndex s vote.vinMasternode
  match s.governance.mapObjects[nHash]? with
  | none => (.error .unknownParentObject, s)
  | some o =>
    let (answer, o) := o.processVote voteHash (voteContext env s) nMNIndex vote
    let s := s.putObjects (s.governance.mapObjects.insert nHash o)
    let s := match answer with
      | .ok () => { s with log := .accepted nHash vote :: s.log }
      | .error _ => s
    (answer, noteVote voteHash s vote answer)

/-- `CGovernanceManager::ProcessVote` -/
def processVote (env : Env) (s : Node) (vote : CGovernanceVote) : Except VoteError Unit × Node :=
  let nHashGovobj := vote.nParentHash
  if s.governance.mapInvalidVotes.hasKey (voteHash vote) then (.error .oldInvalidVote, s)
  else match s.governance.mapObjects[nHashGovobj]? with
    | none =>
      (.error .unknownParentObject, s.withGovernance { s.governance with
        mapOrphanVotes :=
          (s.governance.mapOrphanVotes.insert nHashGovobj (vote, env.adjustedTime + governanceOrphanExpirationTime)).2 })
    | some govobj =>
      if govobj.fCachedDelete || govobj.fExpired then (.error .expiredOrDeletedObject, s)
      else match processStoredVote voteHash env s nHashGovobj vote with
        | (.ok (), s) =>
          (.ok (), s.withGovernance { s.governance with
            mapVoteToObject := s.governance.mapVoteToObject.insert (voteHash vote) nHashGovobj })
        | (.error e, s) => (.error e, s)

def eraseOrphanVote (s : Node) (nHash : Uint256) (pairVote : VoteTimePair) : Node :=
  s.withGovernance { s.governance with mapOrphanVotes := s.governance.mapOrphanVotes.erase nHash pairVote }

/-- One turn of `CheckOrphanVotes`: the votes go to the object the caller holds. -/
def checkOrphanVote (env : Env) (nHash : Uint256) (r : Node × CGovernanceObject) (pairVote : VoteTimePair) :
    Node × CGovernanceObject :=
  let (s, govobj) := r
  if pairVote.2 < env.adjustedTime then (eraseOrphanVote s nHash pairVote, govobj)
  else match processVoteOn voteHash env s govobj pairVote.1 with
    | (.ok (), s, govobj) => (eraseOrphanVote s nHash pairVote, govobj)
    | (.error _, s, govobj) => (s, govobj)

def checkOrphanVotes (env : Env) (s : Node) (govobj : CGovernanceObject) : Node :=
  let vecVotePairs := s.governance.mapOrphanVotes.getAll govobj.hash
  let (s, _) := vecVotePairs.foldl (checkOrphanVote voteHash env govobj.hash) (s.setRateChecks false, govobj)
  s.setRateChecks true

/-! ## Objects -/

def expireObject (now : Int) (o : CGovernanceObject) : CGovernanceObject :=
  { o with fExpired := true, nDeletionTime := if o.nDeletionTime = 0 then now else o.nDeletionTime }

def updateCurrentWatchdog (env : Env) (s : Node) (watchdogNew : CGovernanceObject) : Bool × Node :=
  let nExpirationDelay := governanceWatchdogExpirationTime / 2
  let g := s.governance
  if g.nHashWatchdogCurrent = 0 ∨
      (env.now - watchdogNew.nTime < nExpirationDelay ∧
        (env.now - g.nTimeWatchdogCurrent > nExpirationDelay ∨
          uintToArith256 watchdogNew.hash > uintToArith256 g.nHashWatchdogCurrent)) then
    (true, s.withGovernance { g with
      mapObjects := g.mapObjects.modify g.nHashWatchdogCurrent (expireObject env.now)
      nHashWatchdogCurrent := watchdogNew.hash
      nTimeWatchdogCurrent := watchdogNew.nTime })
  else (false, s)

def validityContext (env : Env) (s : Node) : CGovernanceObject.ValidityContext :=
  ⟨s.mnodeman.masternodeInfo, env.checkSignature, env.isCollateralValid⟩

/-- The end of `AddGovernanceObject`: a copy of the object is stored. -/
def storeObject (s : Node) (govobj : CGovernanceObject) : Node :=
  { s with
    governance := { s.governance with
      mapObjects := s.governance.mapObjects.insertIfNew govobj.hash govobj
      mapWatchdogObjects :=
        if govobj.nObjectType = governanceObjectWatchdog then
          s.governance.mapWatchdogObjects.insert govobj.hash (govobj.nTime + governanceWatchdogExpirationTime)
        else s.governance.mapWatchdogObjects }
    log := .inserted govobj.hash :: s.log }

/-- `AddGovernanceObject`: its answer, `fAddToSeen`, and the node. -/
def addGovernanceObject (env : Env) (s : Node) (govobj : CGovernanceObject) : Bool × Bool × Node :=
  if !(govobj.isValidLocally (validityContext env s) true).1 then (false, true, s)
  else if s.governance.mapObjects.contains govobj.hash then (false, true, s)
  else if govobj.nObjectType = governanceObjectWatchdog then
    if govobj.nTime < env.adjustedTime - governanceWatchdogExpirationTime ∨
        govobj.nTime > env.adjustedTime + governanceWatchdogExpirationTime then (false, true, s)
    else
      let (fBetter, s) := updateCurrentWatchdog env s govobj
      if !fBetter then (false, false, s) else (true, true, storeObject s govobj)
  else (true, true, storeObject s govobj)

/-- What `AddGovernanceObject` does: nothing, or it stores the object, a watchdog after the
    watchdog it replaces has expired. -/
theorem addGovernanceObject_cases (env : Env) (s : Node) (govobj : CGovernanceObject) :
    ((addGovernanceObject env s govobj).1 = false ∧ (addGovernanceObject env s govobj).2.2 = s) ∨
    ((addGovernanceObject env s govobj).1 = true ∧ s.governance.mapObjects[govobj.hash]? = none ∧
      ((addGovernanceObject env s govobj).2.2 = storeObject s govobj ∨
        (addGovernanceObject env s govobj).2.2 = storeObject (updateCurrentWatchdog env s govobj).2 govobj)) := by
  unfold addGovernanceObject
  split
  · exact .inl ⟨rfl, rfl⟩
  split
  · exact .inl ⟨rfl, rfl⟩
  rename_i hnew
  have hnone : s.governance.mapObjects[govobj.hash]? = none := contains_eq_false_iff.1 (Bool.eq_false_iff.2 hnew)
  split
  · split
    · exact .inl ⟨rfl, rfl⟩
    · cases hb : (updateCurrentWatchdog env s govobj).1 with
      | true => exact .inr ⟨by simp [hb], hnone, .inr (by simp [hb])⟩
      | false =>
        have hs : (updateCurrentWatchdog env s govobj).2 = s := by
          simp only [updateCurrentWatchdog] at hb ⊢
          split at hb
          · cases hb
          · rename_i h; rw [if_neg h]
        exact .inl ⟨by simp [hb], by simp [hb, hs]⟩
  · exact .inr ⟨rfl, hnone, .inl rfl⟩

/-- `mapSeenGovernanceObjects.insert(...)` -/
def markSeen (s : Node) (nHash : Uint256) (status : Nat) : Node :=
  s.withGovernance { s.governance with
    mapSeenGovernanceObjects := s.governance.mapSeenGovernanceObjects.insertIfNew nHash status }

def keepOrphanObject (env : Env) (s : Node) (govobj : CGovernanceObject) : Node :=
  s.withGovernance { s.governance with
    mapMasternodeOrphanObjects := s.governance.mapMasternodeOrphanObjects.insertIfNew govobj.hash
      (govobj, env.adjustedTime + governanceOrphanExpirationTime) }

/-- MNGOVERNANCEOBJECT, after the object was found requested and new: the answer is that of
    `AddGovernanceObject`. The orphan votes go to `govobj`, not to the copy it stored. -/
def processNewObject (env : Env) (s : Node) (govobj : CGovernanceObject) : Bool × Node :=
  let nHash := govobj.hash
  let (fAllowed, fRateCheckBypassed) := env.masternodeRateCheck govobj false
  if !fAllowed then (false, s)
  else
    let (fIsValid, fMasternodeMissing) := govobj.isValidLocally (validityContext env s) true
    let s := if fMasternodeMissing then keepOrphanObject env s govobj else s
    if !fIsValid then (false, markSeen s nHash seenObjectErrorInvalid)
    else if fRateCheckBypassed && !(env.masternodeRateCheck govobj true).1 then (false, s)
    else
      let govobj := govobj.updateSentinelVariables env.nGovernanceMinQuorum env.countEnabled env.adjustedTime
      let (fAdded, fAddToSeen, s) := addGovernanceObject env s govobj
      let s := if fAddToSeen then markSeen s nHash seenObjectIsValid else s
      (fAdded, checkOrphanVotes voteHash env s govobj)

/-- `ProcessMessage` reads no message before these hold. -/
def Env.ignoresMessages (env : Env) (nVersion : Int) : Bool :=
  env.fLiteMode || !env.blockchainSynced || nVersion < minGovernancePeerProtoVersion || !env.masternodeListSynced

def takeObjectRequest (s : Node) (nHash : Uint256) : Node :=
  s.withGovernance { s.governance with setRequestedObjects := s.governance.setRequestedObjects.erase nHash }

def takeVoteRequest (s : Node) (nHash : Uint256) : Node :=
  s.withGovernance { s.governance with setRequestedVotes := s.governance.setRequestedVotes.erase nHash }

def processObjectMessage (env : Env) (s : Node) (nVersion : Int) (govobj : CGovernanceObject) : Bool × Node :=
  if env.ignoresMessages nVersion || s.governance.pCurrentBlockIndex.isNone then (false, s)
  else if !s.governance.setRequestedObjects.contains govobj.hash then (false, s)
  else if s.governance.mapSeenGovernanceObjects.contains govobj.hash then (false, takeObjectRequest s govobj.hash)
  else processNewObject voteHash env (takeObjectRequest s govobj.hash) govobj

def processVoteMessage (env : Env) (s : Node) (nVersion : Int) (vote : CGovernanceVote) : Node :=
  if env.ignoresMessages nVersion then s
  else if !s.governance.setRequestedVotes.contains (voteHash vote) then s
  else (processVote voteHash env (takeVoteRequest s (voteHash vote)) vote).2

/-- `ConfirmInventoryRequest` for an object or a vote. -/
def confirmInventoryRequest (s : Node) (fVote : Bool) (hash : Uint256) : Node :=
  let g := s.governance
  if fVote then
    if g.mapVoteToObject.hasKey hash then s else s.withGovernance { g with setRequestedVotes := g.setRequestedVotes.insert hash }
  else if g.mapObjects.contains hash then s
  else s.withGovernance { g with setRequestedObjects := g.setRequestedObjects.insert hash }

/-! ## Orphans of masternodes -/

/-- One turn of `CGovernanceObject::CheckOrphanVotes`. An expired vote is processed too,
    and removed whatever comes of it. -/
def checkObjectOrphanVote (env : Env) (nHash : Uint256) (s : Node) (it : ListNode CTxIn VoteTimePair) : Node :=
  let pairVote := it.item.value
  let fExpired : Bool := pairVote.2 < env.adjustedTime
  if !fExpired && !s.mnodeman.has pairVote.1.vinMasternode then s
  else
    let (answer, s) := processStoredVote voteHash env s nHash pairVote.1
    let fRemove := fExpired || answer.isOk
    if !fRemove then s
    else s.putObjects (s.governance.mapObjects.modify nHash fun o =>
      { o with mapOrphanVotes := o.mapOrphanVotes.erase it.item.key pairVote })

def checkObjectOrphanVotes (env : Env) (s : Node) (nHash : Uint256) : Node :=
  match s.governance.mapObjects[nHash]? with
  | none => s
  | some o => o.mapOrphanVotes.listItems.foldl (checkObjectOrphanVote voteHash env nHash) s

def checkMasternodeOrphanVotes (env : Env) (s : Node) : Node :=
  (s.governance.mapObjects.keys.foldl (checkObjectOrphanVotes voteHash env) (s.setRateChecks false)).setRateChecks true

def eraseOrphanObject (s : Node) (nHash : Uint256) : Node :=
  s.withGovernance { s.governance with mapMasternodeOrphanObjects := s.governance.mapMasternodeOrphanObjects.erase nHash }

/-- One turn of `CheckMasternodeOrphanObjects`. -/
def checkMasternodeOrphanObject (env : Env) (s : Node) (it : Uint256 × CGovernanceObject × Int) : Node :=
  let govobj := it.2.1
  if it.2.2 < env.adjustedTime then eraseOrphanObject s it.1
  else
    let (fIsValid, fMasternodeMissing) := govobj.isValidLocally (validityContext env s) true
    if !fIsValid then if !fMasternodeMissing then eraseOrphanObject s it.1 else s
    else
      let (fAdded, _, s) := addGovernanceObject env s govobj
      if fAdded then eraseOrphanObject s it.1 else s

def checkMasternodeOrphanObjects (env : Env) (s : Node) : Node :=
  (s.governance.mapMasternodeOrphanObjects.toList.foldl (checkMasternodeOrphanObject env) (s.setRateChecks false)).setRateChecks true

/-! ## Cleaning -/

def expireWatchdog (env : Env) (s : Node) (it : Uint256 × Int) : Node :=
  if it.2 < env.adjustedTime then
    s.withGovernance { s.governance with
      mapObjects := s.governance.mapObjects.modify it.1 (expireObject env.adjustedTime)
      nHashWatchdogCurrent := if it.1 = s.governance.nHashWatchdogCurrent then 0 else s.governance.nHashWatchdogCurrent
      mapWatchdogObjects := s.governance.mapWatchdogObjects.erase it.1 }
  else s

def expireWatchdogs (env : Env) (s : Node) : Node :=
  if s.governance.mapWatchdogObjects.size > 1 then s.governance.mapWatchdogObjects.toList.foldl (expireWatchdog env) s else s

def clearDirtyObject (s : Node) (nHash : Uint256) : Node :=
  match s.governance.mapObjects[nHash]? with
  | none => s
  | some o =>
    { s.putObjects (s.governance.mapObjects.insert nHash
        { o.clearMasternodeVotes voteHash s.mnodeman with fDirtyCache := true }) with
      log := .cleared nHash s.mnodeman.outpoints :: s.log }

/-- `CleanAndRemove` drops what is no trigger from its map and leaves the object. -/
def expireOutdated (adjustedTime : Int) (o : CGovernanceObject) : CGovernanceObject :=
  if o.nObjectType = governanceObjectTrigger then { o with fExpired := true, nDeletionTime := adjustedTime } else o

def expireTrigger (env : Env) (s : Node) (nHash : Uint256) : Node :=
  s.putObjects (s.governance.mapObjects.modify nHash (expireOutdated env.adjustedTime))

def eraseObject (s : Node) (nHash : Uint256) (o : CGovernanceObject) : Node where
  governance := { s.governance with
    mapVoteToObject := ((s.governance.mapVoteToObject.listItems.filter (·.item.value == nHash)).map (·.item.key)).foldl
      (fun c nKey => c.erase nKey) s.governance.mapVoteToObject
    mapWatchdogObjects :=
      if o.nObjectType = governanceObjectWatchdog then s.governance.mapWatchdogObjects.erase nHash
      else s.governance.mapWatchdogObjects
    mapObjects := s.governance.mapObjects.erase nHash }
  mnodeman := s.mnodeman.removeGovernanceObject o.hash
  log := s.log

def cleanObject (env : Env) (s : Node) (nHash : Uint256) : Node :=
  match s.governance.mapObjects[nHash]? with
  | none => s
  | some o =>
    let o := if o.fDirtyCache then o.updateSentinelVariables env.nGovernanceMinQuorum env.countEnabled env.adjustedTime else o
    let s := s.withGovernance { s.governance with
      mapObjects := s.governance.mapObjects.insert nHash o
      nHashWatchdogCurrent :=
        if o.fCachedDelete ∧ nHash = s.governance.nHashWatchdogCurrent then 0 else s.governance.nHashWatchdogCurrent }
    if (o.fCachedDelete || o.fExpired) && env.adjustedTime - o.nDeletionTime ≥ governanceDeletionDelay then eraseObject s nHash o
    else s

/-- `UpdateCachesAndClean` up to the dirty objects, which the masternode list forgets. -/
def clearDirtyObjects (env : Env) (s : Node) : Node :=
  let vecDirtyHashes := s.mnodeman.vecDirtyGovernanceObjectHashes
  let s := { s with mnodeman := { s.mnodeman with vecDirtyGovernanceObjectHashes := [] } }
  vecDirtyHashes.foldl (clearDirtyObject voteHash) (expireWatchdogs env s)

def updateCachesAndClean (env : Env) (s : Node) : Node :=
  let s := clearDirtyObjects voteHash env s
  if s.governance.pCurrentBlockIndex.isNone then s
  else
    let keys := s.governance.mapObjects.keys
    let s := env.outdatedTriggers.foldl (expireTrigger env) (s.setRateChecks false)
    (keys.foldl (cleanObject env) s).setRateChecks true

def cleanOrphanObjects (env : Env) (s : Node) : Node :=
  (s.governance.mapOrphanVotes.listItems.filter (·.item.value.2 < env.adjustedTime)).foldl
    (fun s it => eraseOrphanVote s it.item.key it.item.value) s

def doMaintenance (env : Env) (s : Node) : Node :=
  if env.fLiteMode || !env.synced || s.governance.pCurrentBlockIndex.isNone then s
  else updateCachesAndClean voteHash env (cleanOrphanObjects env s)

/-- `NotifyMasternodeUpdates`, up to its second notification. -/
def notifyAdded (env : Env) (s : Node) : Node :=
  if s.mnodeman.fMasternodesAdded then checkMasternodeOrphanVotes voteHash env (checkMasternodeOrphanObjects env s) else s

def notifyMasternodeUpdates (env : Env) (s : Node) : Node :=
  let fMasternodesRemovedLocal := s.mnodeman.fMasternodesRemoved
  let s := notifyAdded voteHash env s
  let s := if fMasternodesRemovedLocal then updateCachesAndClean voteHash env s else s
  { s with mnodeman := { s.mnodeman with fMasternodesAdded := false, fMasternodesRemoved := false } }

/-! ## Events

  `CMasternodeMan::CheckAndRemove` gives up its lock between its parts; they are events of
  their own. -/

inductive Event where
  /-- MNGOVERNANCEOBJECT, as the fields that are read from the wire. -/
  | governanceObject (nVersion : Int) (hash : Uint256) (nObjectType nTime : Int) (vinMasternode : CTxIn) (vchSig : List UInt8)
      (fUnparsable : Bool)
  | governanceObjectVote (nVersion : Int) (vote : CGovernanceVote)
  /-- A vote of the RPC server. -/
  | ownVote (vote : CGovernanceVote)
  | confirmInventoryRequest (fVote : Bool) (hash : Uint256)
  | doMaintenance
  | updatedBlockTip (nHeight : Int)
  | addMasternode (mn : CMasternode)
  | updateMasternode (vin : CTxIn) (pubKeyMasternode : CPubKey)
  | removeSpent
  | checkAndRebuildMasternodeIndex
  | notifyMasternodeUpdates

def next (s : Node) (ev : Env × Event) : Node :=
  match ev.2 with
  | .governanceObject nVersion hash nObjectType nTime vin vchSig fUnparsable =>
    (processObjectMessage voteHash ev.1 s nVersion (.received hash nObjectType nTime vin vchSig fUnparsable)).2
  | .governanceObjectVote nVersion vote => processVoteMessage voteHash ev.1 s nVersion vote
  | .ownVote vote => (processVote voteHash ev.1 s vote).2
  | .confirmInventoryRequest fVote hash => confirmInventoryRequest s fVote hash
  | .doMaintenance => doMaintenance voteHash ev.1 s
  | .updatedBlockTip nHeight => s.withGovernance { s.governance with pCurrentBlockIndex := some nHeight }
  | .addMasternode mn => { s with mnodeman := s.mnodeman.add mn ev.1.fReallocates }
  | .updateMasternode vin pubKey => { s with mnodeman := s.mnodeman.updateFromNewBroadcast vin pubKey }
  | .removeSpent => { s with mnodeman := s.mnodeman.removeSpent ev.1.isOutpointSpent }
  | .checkAndRebuildMasternodeIndex =>
    if s.mnodeman.fMasternodesRemoved then { s with mnodeman := s.mnodeman.checkAndRebuildMasternodeIndex ev.1.now } else s
  | .notifyMasternodeUpdates => notifyMasternodeUpdates voteHash ev.1 s

def step (s : Node) (ev : Env × Event) : Option Node := some (next voteHash s ev)

end

/-! ## A small network

  The traces of the later modules run in it: masternode `k` has outpoint `(7, k)`; every
  signature verifies; triggers need no collateral; nothing is spent. -/

def network : Env where
  now := 100000
  adjustedTime := 100000
  fLiteMode := false
  blockchainSynced := true
  masternodeListSynced := true
  synced := true
  nGovernanceMinQuorum := 10
  countEnabled := 100
  verifyMessage := fun _ _ _ => true
  checkSignature := fun _ _ => true
  isCollateralValid := fun _ => true
  masternodeRateCheck := fun _ _ => (true, false)
  outdatedTriggers := []
  isOutpointSpent := fun _ => false
  fReallocates := false

def masternodeVin (k : Nat) : CTxIn := ⟨⟨7, k⟩, [], 0⟩

/-- Masternode `k`'s vote to fund an object. -/
def fundingVote (k : Nat) (nParentHash : Uint256) : CGovernanceVote := ⟨1, masternodeVin k, nParentHash, 1, 99000, []⟩

def smallHash (v : CGovernanceVote) : Uint256 := v.vinMasternode.prevout.n

end Zumy.Governance
