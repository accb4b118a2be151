/-
  Zumy.Governance.Vote — governance-vote.cpp: a masternode's vote on a governance object.
-/
import Zumy.Container.CacheMultiMap

namespace Zumy.Governance

open Lib Container

def voteSignalNone : Nat := 0
def voteSignalFunding : Nat := 1
def voteSignalValid : Nat := 2
def voteSignalDelete : Nat := 3
def voteSignalEndorsed : Nat := 4
def maxSupportedVoteSignal : Nat := voteSignalEndorsed

def voteOutcomeNone : Nat := 0
def voteOutcomeYes : Nat := 1
def voteOutcomeNo : Nat := 2

structure CGovernanceVote where
  nVoteSignal : Int
  vinMasternode : CTxIn
  nParentHash : Uint256
  nVoteOutcome : Int
  nTime : Int
  vchSig : List UInt8
  deriving DecidableEq, Repr, Inhabited

namespace CGovernanceVote

def getSignal (v : CGovernanceVote) : Nat := (v.nVoteSignal % 2 ^ 32).toNat
def getOutcome (v : CGovernanceVote) : Nat := (v.nVoteOutcome % 2 ^ 32).toNat

/-- `operator==` -/
def equal (vote1 vote2 : CGovernanceVote) : Bool :=
  vote1.vinMasternode == vote2.vinMasternode && vote1.nParentHash == vote2.nParentHash &&
    vote1.nVoteOutcome == vote2.nVoteOutcome && vote1.nVoteSignal == vote2.nVoteSignal && vote1.nTime == vote2.nTime

/-- `operator<`, statement by statement. -/
def less (vote1 vote2 : CGovernanceVote) : Bool :=
  let fResult := vote1.vinMasternode.less vote2.vinMasternode
  if !fResult then false
  else
    let fResult := vote1.vinMasternode == vote2.vinMasternode
    let fResult := fResult && vote1.nParentHash < vote2.nParentHash
    if !fResult then false
    else
      let fResult := fResult && vote1.nParentHash == vote2.nParentHash
      let fResult := fResult && vote1.nVoteOutcome < vote2.nVoteOutcome
      if !fResult then false
      else
        let fResult := fResult && vote1.nVoteOutcome == vote2.nVoteOutcome
        let fResult := fResult && vote1.nVoteSignal == vote2.nVoteSignal
        if !fResult then false
        else
          let fResult := fResult && vote1.nVoteSignal == vote2.nVoteSignal
          fResult && vote1.nTime < vote2.nTime

end CGovernanceVote

abbrev VoteTimePair := CGovernanceVote × Int

def VoteTimePair.less (p1 p2 : VoteTimePair) : Bool := CGovernanceVote.less p1.1 p2.1

abbrev VoteMessage := COutPoint × Uint256 × Int × Int × Int

def CGovernanceVote.message (v : CGovernanceVote) : VoteMessage :=
  (v.vinMasternode.prevout, v.nParentHash, v.nVoteSignal, v.nVoteOutcome, v.nTime)

/-- `IsValid(true)`, given the key of a listed masternode and the check of a signature. -/
def CGovernanceVote.isValid (now : Int) (masternodeInfo : CTxIn → Option CPubKey)
    (verifyMessage : CPubKey → List UInt8 → VoteMessage → Bool) (v : CGovernanceVote) : Bool :=
  if v.nTime > now + 60 * 60 then false
  else if v.nVoteSignal > maxSupportedVoteSignal then false
  else if v.nVoteOutcome > 3 then false
  else match masternodeInfo v.vinMasternode with
    | none => false
    | some pubKey => verifyMessage pubKey v.vchSig v.message

abbrev OrphanVotes := CacheMultiMap Uint256 VoteTimePair VoteTimePair.less

end Zumy.Governance
