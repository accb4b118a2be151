/-
  Zumy.Governance.Object — governance-object.cpp: a governance object and its votes.

  `mapCurrentMNVotes` has a record for each masternode index and in it an instance for
  each signal. `ProcessVote` makes the record and the instance before it knows whether the
  vote is good, so a refused vote can leave an empty instance behind.

  `ProcessVote` asks the governance manager for the masternode's index and for its rate
  checks; `processVote` here takes what it is answered, in a `VoteContext`.
-/
import Zumy.Governance.Vote
import Zumy.Masternode.Manager

namespace Zumy.Governance

open Lib Container Masternode

def governanceObjectProposal : Int := 1
def governanceObjectTrigger : Int := 2
def governanceObjectWatchdog : Int := 3

def governanceUpdateMin : Int := 60 * 60
def governanceDeletionDelay : Int := 10 * 60
def governanceOrphanExpirationTime : Int := 5 * 60
def governanceWatchdogExpirationTime : Int := 2 * 60 * 60

structure VoteInstance where
  eOutcome : Nat
  nTime : Int
  nCreationTime : Int
  deriving DecidableEq, Repr

/-- `vote_instance_t()` -/
def VoteInstance.none : VoteInstance := ⟨voteOutcomeNone, 0, 0⟩

structure VoteRec where
  mapInstances : Map Nat VoteInstance

structure CGovernanceObjectVoteFile where
  listVotes : List CGovernanceVote
  /-- The vote an entry points at. -/
  mapVoteIndex : Map Uint256 CGovernanceVote

/-- An object with the value `GetHash` returns; its data is in `nObjectType` and `fUnparsable`. -/
structure CGovernanceObject where
  hash : Uint256
  nObjectType : Int
  nTime : Int
  nDeletionTime : Int
  vinMasternode : CTxIn
  vchSig : List UInt8
  fCachedFunding : Bool
  fCachedValid : Bool
  fCachedDelete : Bool
  fCachedEndorsed : Bool
  fDirtyCache : Bool
  fExpired : Bool
  fUnparsable : Bool
  mapCurrentMNVotes : Map Int VoteRec
  mapOrphanVotes : CacheMultiMap CTxIn VoteTimePair VoteTimePair.less
  fileVotes : CGovernanceObjectVoteFile

/-- An object as it is read from the wire: without votes, its flags those of a new object. -/
def CGovernanceObject.received (hash : Uint256) (nObjectType nTime : Int) (vinMasternode : CTxIn) (vchSig : List UInt8)
    (fUnparsable : Bool) : CGovernanceObject :=
  ⟨hash, nObjectType, nTime, 0, vinMasternode, vchSig, false, true, false, false, true, false, fUnparsable, ∅, .empty 0, ⟨[], ∅⟩⟩

inductive VoteError where
  | oldInvalidVote
  | unknownParentObject
  | expiredOrDeletedObject
  | masternodeIndexNotFound
  | voteSignalNone
  | unsupportedVoteSignal
  | obsoleteVote
  | votingTooOften
  | invalidVote
  deriving DecidableEq, Repr

section

-- `CGovernanceVote::GetHash`
variable (voteHash : CGovernanceVote → Uint256)

namespace CGovernanceObjectVoteFile

def addVote (f : CGovernanceObjectVoteFile) (vote : CGovernanceVote) : CGovernanceObjectVoteFile :=
  ⟨vote :: f.listVotes, f.mapVoteIndex.insert (voteHash vote) vote⟩

def removeVotesFromMasternode (f : CGovernanceObjectVoteFile) (vinMasternode : CTxIn) : CGovernanceObjectVoteFile :=
  ⟨f.listVotes.filter (·.vinMasternode != vinMasternode),
   ((f.listVotes.filter (·.vinMasternode == vinMasternode)).map voteHash).foldl (fun m h => m.erase h) f.mapVoteIndex⟩

end CGovernanceObjectVoteFile

/-- What `ProcessVote` reads outside the object. -/
structure VoteContext where
  now : Int
  adjustedTime : Int
  fRateChecksEnabled : Bool
  isValid : CGovernanceVote → Bool

namespace CGovernanceObject

def recVote (o : CGovernanceObject) (nMNIndex : Int) : VoteRec := o.mapCurrentMNVotes[nMNIndex]?.getD ⟨∅⟩

def voteInstance (o : CGovernanceObject) (nMNIndex : Int) (eSignal : Nat) : VoteInstance :=
  (o.recVote nMNIndex).mapInstances[eSignal]?.getD .none

def putRec (o : CGovernanceObject) (nMNIndex : Int) (r : VoteRec) : CGovernanceObject :=
  { o with mapCurrentMNVotes := o.mapCurrentMNVotes.insert nMNIndex r }

def putInstance (o : CGovernanceObject) (nMNIndex : Int) (eSignal : Nat) (i : VoteInstance) : CGovernanceObject :=
  o.putRec nMNIndex ⟨(o.recVote nMNIndex).mapInstances.insert eSignal i⟩

/-- `ProcessVote`, the index of the vote's masternode given. -/
def processVote (cx : VoteContext) (o : CGovernanceObject) (nMNIndex : Int) (vote : CGovernanceVote) :
    Except VoteError Unit × CGovernanceObject :=
  if nMNIndex < 0 then
    (.error .masternodeIndexNotFound, { o with
      mapOrphanVotes := (o.mapOrphanVotes.insert vote.vinMasternode (vote, cx.adjustedTime + governanceOrphanExpirationTime)).2 })
  else
    let eSignal := vote.getSignal
    let o₁ := o.putRec nMNIndex (o.recVote nMNIndex)
    if eSignal = voteSignalNone then (.error .voteSignalNone, o₁)
    else if eSignal > maxSupportedVoteSignal then (.error .unsupportedVoteSignal, o₁)
    else
      let voteInstance := o.voteInstance nMNIndex eSignal
      let o₂ := o.putInstance nMNIndex eSignal voteInstance
      if vote.nTime < voteInstance.nCreationTime then (.error .obsoleteVote, o₂)
      else if cx.fRateChecksEnabled && cx.now - voteInstance.nTime < governanceUpdateMin then (.error .votingTooOften, o₂)
      else if !cx.isValid vote then (.error .invalidVote, o₂)
      else
        -- the time of the instance is never moved on
        (.ok (), { o.putInstance nMNIndex eSignal ⟨vote.getOutcome, voteInstance.nTime, vote.nTime⟩ with
          fileVotes := o.fileVotes.addVote voteHash vote
          fDirtyCache := true })

/-- One turn of `RebuildVoteMap`. -/
def moveRec (mnodeman : CMasternodeMan) (mapMNVotesNew : Map Int VoteRec) (it : Int × VoteRec) : Map Int VoteRec :=
  match mnodeman.indexMasternodesOld.get it.1 with
  | none => mapMNVotesNew
  | some vinMasternode =>
    let nNewIndex := mnodeman.indexMasternodes.getMasternodeIndex vinMasternode
    if nNewIndex ≥ 0 then mapMNVotesNew.insert nNewIndex it.2 else mapMNVotesNew

/-- `RebuildVoteMap`: the records move from their old index to the masternode's new one. -/
def rebuildVoteMap (mnodeman : CMasternodeMan) (o : CGovernanceObject) : CGovernanceObject :=
  { o with mapCurrentMNVotes := o.mapCurrentMNVotes.toList.foldl (moveRec mnodeman) ∅ }

/-- One turn of `ClearMasternodeVotes`. `Get` also answers whether the index was rebuilt;
    nothing looks at it. -/
def clearRec (mnodeman : CMasternodeMan) (o : CGovernanceObject) (it : Int × VoteRec) : CGovernanceObject :=
  match mnodeman.indexMasternodes.get it.1 with
  | some vinMasternode =>
    if mnodeman.has vinMasternode then o
    else { o with
      fileVotes := o.fileVotes.removeVotesFromMasternode voteHash vinMasternode
      mapCurrentMNVotes := o.mapCurrentMNVotes.erase it.1 }
  | none => { o with mapCurrentMNVotes := o.mapCurrentMNVotes.erase it.1 }

def clearMasternodeVotes (mnodeman : CMasternodeMan) (o : CGovernanceObject) : CGovernanceObject :=
  o.mapCurrentMNVotes.toList.foldl (clearRec voteHash mnodeman) o

/-! ## Counting -/

def countMatchingVotes (o : CGovernanceObject) (eVoteSignal eVoteOutcome : Nat) : Nat :=
  o.mapCurrentMNVotes.toList.countP fun it => (it.2.mapInstances[eVoteSignal]?).any (·.eOutcome == eVoteOutcome)

def getAbsoluteYesCount (o : CGovernanceObject) (eVoteSignal : Nat) : Int :=
  o.countMatchingVotes eVoteSignal voteOutcomeYes - o.countMatchingVotes eVoteSignal voteOutcomeNo

def getAbsoluteNoCount (o : CGovernanceObject) (eVoteSignal : Nat) : Int :=
  o.countMatchingVotes eVoteSignal voteOutcomeNo - o.countMatchingVotes eVoteSignal voteOutcomeYes

/-- `UpdateSentinelVariables`; the deletion flag once set stays set. -/
def updateSentinelVariables (nGovernanceMinQuorum countEnabled adjustedTime : Int) (o : CGovernanceObject) : CGovernanceObject :=
  if countEnabled = 0 then o
  else
    let nAbsVoteReq := max nGovernanceMinQuorum (countEnabled / 10)
    let nAbsDeleteReq := max nGovernanceMinQuorum (2 * countEnabled / 3)
    let fDelete := o.getAbsoluteYesCount voteSignalDelete ≥ nAbsDeleteReq ∧ !o.fCachedDelete
    { o with
      fCachedFunding := o.getAbsoluteYesCount voteSignalFunding ≥ nAbsVoteReq
      fCachedValid := !(o.getAbsoluteNoCount voteSignalValid ≥ nAbsVoteReq)
      fCachedEndorsed := o.getAbsoluteYesCount voteSignalEndorsed ≥ nAbsVoteReq
      fDirtyCache := false
      fCachedDelete := o.fCachedDelete || fDelete
      nDeletionTime := if fDelete ∧ o.nDeletionTime = 0 then adjustedTime else o.nDeletionTime }

theorem updateSentinelVariables_votes (o : CGovernanceObject) (nGovernanceMinQuorum countEnabled adjustedTime : Int) :
    (o.updateSentinelVariables nGovernanceMinQuorum countEnabled adjustedTime).hash = o.hash ∧
      (o.updateSentinelVariables nGovernanceMinQuorum countEnabled adjustedTime).fileVotes = o.fileVotes ∧
      (o.updateSentinelVariables nGovernanceMinQuorum countEnabled adjustedTime).mapCurrentMNVotes = o.mapCurrentMNVotes := by
  unfold updateSentinelVariables
  split <;> exact ⟨rfl, rfl, rfl⟩

/-- What `IsValidLocally` reads outside the object. -/
structure ValidityContext where
  masternodeInfo : CTxIn → Option CPubKey
  checkSignature : CPubKey → CGovernanceObject → Bool
  isCollateralValid : CGovernanceObject → Bool

/-- `IsValidLocally`: its answer and `fMissingMasternode`. -/
def isValidLocally (cx : ValidityContext) (o : CGovernanceObject) (fCheckCollateral : Bool) : Bool × Bool :=
  if o.fUnparsable then (false, false)
  else if ¬ (o.nObjectType = governanceObjectProposal ∨ o.nObjectType = governanceObjectTrigger ∨
      o.nObjectType = governanceObjectWatchdog) then (false, false)
  else if !fCheckCollateral then (true, false)
  else if o.nObjectType = governanceObjectTrigger ∨ o.nObjectType = governanceObjectWatchdog then
    match cx.masternodeInfo o.vinMasternode with
    | none => (false, true)
    | some pubKeyMasternode => (cx.checkSignature pubKeyMasternode o, false)
  else (cx.isCollateralValid o, false)

end CGovernanceObject

end

end Zumy.Governance
