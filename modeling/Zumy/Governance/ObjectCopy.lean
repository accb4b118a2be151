/-
  Zumy.Governance.ObjectCopy — governance-object.h, governance-object.cpp: the copy and the
  assignment of a governance object.

  `ObjectMembers` has all members of the class but its lock. `operator=` takes a copy of its
  argument and swaps with it. The copy constructor lists all 21 members, `swap` 13 of them.

  Two objects are compared by what a caller can see of them: maps by their entries, the cache
  of orphan votes by its items.
-/
import Zumy.Container.CacheMultiMapIndex
import Zumy.Governance.Restart

namespace Zumy.Governance

open Lib Container

structure ObjectMembers where
  nObjectType : Int
  nHashParent : Uint256
  nRevision : Int
  nTime : Int
  nDeletionTime : Int
  nCollateralHash : Uint256
  strData : List Char
  vinMasternode : CTxIn
  vchSig : List UInt8
  fCachedLocalValidity : Bool
  strLocalValidityError : List Char
  fCachedFunding : Bool
  fCachedValid : Bool
  fCachedDelete : Bool
  fCachedEndorsed : Bool
  fDirtyCache : Bool
  fExpired : Bool
  fUnparsable : Bool
  mapCurrentMNVotes : Map Int VoteRec
  mapOrphanVotes : CacheMultiMap CTxIn VoteTimePair VoteTimePair.less
  fileVotes : CGovernanceObjectVoteFile

namespace ObjectMembers

section

-- `CGovernanceVote::GetHash`
variable (voteHash : CGovernanceVote → Uint256)

/-- `CGovernanceObject(const CGovernanceObject& other)` -/
def copy (other : ObjectMembers) : ObjectMembers where
  nObjectType := other.nObjectType
  nHashParent := other.nHashParent
  nRevision := other.nRevision
  nTime := other.nTime
  nDeletionTime := other.nDeletionTime
  nCollateralHash := other.nCollateralHash
  strData := other.strData
  vinMasternode := other.vinMasternode
  vchSig := other.vchSig
  fCachedLocalValidity := other.fCachedLocalValidity
  strLocalValidityError := other.strLocalValidityError
  fCachedFunding := other.fCachedFunding
  fCachedValid := other.fCachedValid
  fCachedDelete := other.fCachedDelete
  fCachedEndorsed := other.fCachedEndorsed
  fDirtyCache := other.fDirtyCache
  fExpired := other.fExpired
  fUnparsable := other.fUnparsable
  mapCurrentMNVotes := other.mapCurrentMNVotes
  mapOrphanVotes := other.mapOrphanVotes.copy
  fileVotes := rebuildFile voteHash other.fileVotes

/-- `swap`: what it leaves in its first argument; the second one is the mirror image. -/
def swapped (first second : ObjectMembers) : ObjectMembers :=
  { first with
    nHashParent := second.nHashParent
    nRevision := second.nRevision
    nTime := second.nTime
    nDeletionTime := second.nDeletionTime
    nCollateralHash := second.nCollateralHash
    strData := second.strData
    nObjectType := second.nObjectType
    -- swap all cached valid flags
    fCachedFunding := second.fCachedFunding
    fCachedValid := second.fCachedValid
    fCachedDelete := second.fCachedDelete
    fCachedEndorsed := second.fCachedEndorsed
    fDirtyCache := second.fDirtyCache
    fExpired := second.fExpired }

def swap (first second : ObjectMembers) : ObjectMembers × ObjectMembers := (swapped first second, swapped second first)

/-- `operator=`, whose argument is a copy. -/
def assign (this other : ObjectMembers) : ObjectMembers := (swap this (copy voteHash other)).1

end

/-! ## What can be seen of an object -/

def SameVotes (m m' : Map Int VoteRec) : Prop :=
  ∀ i : Int, (m[i]?).map (·.mapInstances.toList) = (m'[i]?).map (·.mapInstances.toList)

def SameOrphanVotes (c c' : CacheMultiMap CTxIn VoteTimePair VoteTimePair.less) : Prop :=
  c.nMaxSize = c'.nMaxSize ∧ c.listItems.map ListNode.item = c'.listItems.map ListNode.item

def SameFile (f f' : CGovernanceObjectVoteFile) : Prop :=
  f.listVotes = f'.listVotes ∧ ∀ h : Uint256, f.mapVoteIndex[h]? = f'.mapVoteIndex[h]?

/-- The members that `swap` leaves out. -/
structure SameUnswapped (a b : ObjectMembers) : Prop where
  vinMasternode : a.vinMasternode = b.vinMasternode
  vchSig : a.vchSig = b.vchSig
  fCachedLocalValidity : a.fCachedLocalValidity = b.fCachedLocalValidity
  strLocalValidityError : a.strLocalValidityError = b.strLocalValidityError
  fUnparsable : a.fUnparsable = b.fUnparsable
  mapCurrentMNVotes : SameVotes a.mapCurrentMNVotes b.mapCurrentMNVotes
  mapOrphanVotes : SameOrphanVotes a.mapOrphanVotes b.mapOrphanVotes
  fileVotes : SameFile a.fileVotes b.fileVotes

structure SameSwapped (a b : ObjectMembers) : Prop where
  nObjectType : a.nObjectType = b.nObjectType
  nHashParent : a.nHashParent = b.nHashParent
  nRevision : a.nRevision = b.nRevision
  nTime : a.nTime = b.nTime
  nDeletionTime : a.nDeletionTime = b.nDeletionTime
  nCollateralHash : a.nCollateralHash = b.nCollateralHash
  strData : a.strData = b.strData
  fCachedFunding : a.fCachedFunding = b.fCachedFunding
  fCachedValid : a.fCachedValid = b.fCachedValid
  fCachedDelete : a.fCachedDelete = b.fCachedDelete
  fCachedEndorsed : a.fCachedEndorsed = b.fCachedEndorsed
  fDirtyCache : a.fDirtyCache = b.fDirtyCache
  fExpired : a.fExpired = b.fExpired

def SameMembers (a b : ObjectMembers) : Prop := SameSwapped a b ∧ SameUnswapped a b

variable {voteHash : CGovernanceVote → Uint256} {a b : ObjectMembers}

/-! ## The assignment -/

theorem assign_swapped (voteHash : CGovernanceVote → Uint256) (a b : ObjectMembers) : SameSwapped (assign voteHash a b) b :=
  ⟨rfl, rfl, rfl, rfl, rfl, rfl, rfl, rfl, rfl, rfl, rfl, rfl, rfl⟩

/-- Assigning `b` to `a` gives `b` exactly if they agreed on the members that `swap` leaves out. -/
theorem assign_same_iff (voteHash : CGovernanceVote → Uint256) (a b : ObjectMembers) :
    SameMembers (assign voteHash a b) b ↔ SameUnswapped a b := by
  constructor
  · rintro ⟨-, h⟩
    exact ⟨h.vinMasternode, h.vchSig, h.fCachedLocalValidity, h.strLocalValidityError, h.fUnparsable, h.mapCurrentMNVotes,
      h.mapOrphanVotes, h.fileVotes⟩
  · intro h
    refine ⟨assign_swapped voteHash a b, ?_⟩
    exact ⟨h.vinMasternode, h.vchSig, h.fCachedLocalValidity, h.strLocalValidityError, h.fUnparsable, h.mapCurrentMNVotes,
      h.mapOrphanVotes, h.fileVotes⟩

/-- `CGovernanceObject()` -/
def new : ObjectMembers where
  nObjectType := 0
  nHashParent := 0
  nRevision := 0
  nTime := 0
  nDeletionTime := 0
  nCollateralHash := 0
  strData := []
  vinMasternode := ⟨.null, [], 2 ^ 32 - 1⟩
  vchSig := []
  fCachedLocalValidity := false
  strLocalValidityError := []
  fCachedFunding := false
  fCachedValid := true
  fCachedDelete := false
  fCachedEndorsed := false
  fDirtyCache := true
  fExpired := false
  fUnparsable := false
  mapCurrentMNVotes := ∅
  mapOrphanVotes := .empty 0
  fileVotes := ⟨[], ∅⟩

/-- A signed trigger is assigned to a new object. -/
theorem signature_not_assigned :
    (assign smallHash new { new with nObjectType := governanceObjectTrigger, vinMasternode := masternodeVin 1, vchSig := [1] }).vchSig = [] ∧
    ¬ ∀ (voteHash : CGovernanceVote → Uint256) (a b : ObjectMembers), SameMembers (assign voteHash a b) b := by
  refine ⟨rfl, fun h => ?_⟩
  have hsig := (h smallHash new { new with vchSig := [1] }).2.vchSig
  exact absurd hsig (by decide)

end ObjectMembers

end Zumy.Governance
