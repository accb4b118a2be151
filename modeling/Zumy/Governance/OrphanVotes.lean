/-
  Zumy.Governance.OrphanVotes — the votes that come before their object.

  When an object is accepted, `AddGovernanceObject` stores a copy of it and
  `CheckOrphanVotes` replays the orphan votes on the object it was given: the one of
  `ProcessMessage`, which ends with the message. A vote that passes there is erased from
  the orphans, and the stored copy never sees it.
-/
import Zumy.Governance.Manager
import Zumy.Governance.VoteOrder

namespace Zumy.Governance

open Lib Container Masternode

/-- The vote is in the vote file and is the masternode's current vote on its signal. -/
def RecordedIn (s : Node) (nHash : Uint256) (vote : CGovernanceVote) : Prop :=
  ∃ o r i, s.governance.mapObjects[nHash]? = some o ∧ vote ∈ o.fileVotes.listVotes ∧
    o.mapCurrentMNVotes[s.mnodeman.indexMasternodes.getMasternodeIndex vote.vinMasternode]? = some r ∧
    r.mapInstances[vote.getSignal]? = some i ∧ i.eOutcome = vote.getOutcome ∧ i.nCreationTime = vote.nTime

section

variable (voteHash : CGovernanceVote → Uint256) (env : Env)

/-- `CGovernanceObject::ProcessVote` answers true, the rate checks off as in the replay. -/
def PassesProcessVote (s : Node) (govobj : CGovernanceObject) (vote : CGovernanceVote) : Prop :=
  (processVoteOn voteHash env (s.setRateChecks false) govobj vote).1 = .ok ()

/-- The unexpired orphan votes that pass are in the stored object, and none of them is
    removed from the orphans without being there. -/
structure Delivered (s s' : Node) (govobj : CGovernanceObject) : Prop where
  recorded : ∀ p ∈ s.governance.mapOrphanVotes.getAll govobj.hash, ¬ p.2 < env.adjustedTime →
    PassesProcessVote voteHash env s govobj p.1 → RecordedIn s' govobj.hash p.1
  removed : ∀ p ∈ s.governance.mapOrphanVotes.getAll govobj.hash, ¬ p.2 < env.adjustedTime →
    PassesProcessVote voteHash env s govobj p.1 → p ∉ s'.governance.mapOrphanVotes.getAll govobj.hash →
    RecordedIn s' govobj.hash p.1

/-- The masternode has an index, the signal is supported, and the vote is valid and not
    from before 1970. -/
structure Passable (s : Node) (vote : CGovernanceVote) : Prop where
  index : 0 ≤ s.mnodeman.indexMasternodes.getMasternodeIndex vote.vinMasternode
  signal : vote.getSignal ≠ voteSignalNone ∧ vote.getSignal ≤ maxSupportedVoteSignal
  time : 0 ≤ vote.nTime
  valid : vote.isValid env.now s.mnodeman.masternodeInfo env.verifyMessage = true

end

variable {voteHash : CGovernanceVote → Uint256} {env : Env} {s s' : Node} {govobj : CGovernanceObject} {vote : CGovernanceVote}

/-! ## A replayed vote -/

theorem useIndex_index : (useIndex s).mnodeman.indexMasternodes = s.mnodeman.indexMasternodes := by
  unfold useIndex
  split <;> rfl

theorem useIndex_masternodeInfo : (useIndex s).mnodeman.masternodeInfo = s.mnodeman.masternodeInfo := by
  unfold useIndex
  split <;> rfl

theorem useIndex_rateChecks : (useIndex s).governance.fRateChecksEnabled = s.governance.fRateChecksEnabled := by
  unfold useIndex
  split <;> rfl

/-- Without votes an object refuses no vote as obsolete, whatever its time from 1970 on. -/
theorem processVote_received (hempty : govobj.mapCurrentMNVotes = ∅) :
    PassesProcessVote voteHash env s govobj vote ↔ Passable env s vote := by
  have hinstance (i : Int) (sig : Nat) : govobj.voteInstance i sig = .none := by
    simp [CGovernanceObject.voteInstance, CGovernanceObject.recVote, hempty]
  simp only [PassesProcessVote, processVoteOn, getMasternodeIndex, CGovernanceObject.processVote, useIndex_index, hinstance,
    voteContext, useIndex_masternodeInfo, useIndex_rateChecks, Node.setRateChecks, VoteInstance.none, Bool.false_and]
  constructor
  · intro h
    repeat' split at h
    all_goals try cases h
    rename_i hidx hsig hmax htime _ hvalid
    exact ⟨by omega, ⟨hsig, by omega⟩, by omega, by simpa using hvalid⟩
  · intro hboth
    obtain ⟨hidx, ⟨hsig, hmax⟩, htime, hvalid⟩ := hboth
    rw [if_neg (by omega), if_neg hsig, if_neg (by omega), if_neg (by omega), if_neg (by simp), if_neg (by simp [hvalid])]

/-! ## What the stored object keeps -/

def NoVotesAt (s : Node) (nHash : Uint256) : Prop :=
  ∀ o, s.governance.mapObjects[nHash]? = some o → o.fileVotes.listVotes = []

theorem noVotesAt_useIndex {nHash : Uint256} (h : NoVotesAt s nHash) : NoVotesAt (useIndex s) nHash := by
  unfold useIndex
  split
  · intro o ho
    simp only [rebuildVoteMaps, Std.TreeMap.getElem?_map, Option.map_eq_some_iff] at ho
    obtain ⟨o, ho, rfl⟩ := ho
    exact h o ho
  · exact h

theorem noteVote_mapObjects (answer : Except VoteError Unit) :
    (noteVote voteHash s vote answer).governance.mapObjects = s.governance.mapObjects := by
  unfold noteVote
  split <;> rfl

theorem noVotesAt_processVoteOn {nHash : Uint256} (h : NoVotesAt s nHash) :
    NoVotesAt (processVoteOn voteHash env s govobj vote).2.1 nHash := by
  intro o ho
  simp only [processVoteOn, getMasternodeIndex] at ho
  rw [noteVote_mapObjects] at ho
  exact noVotesAt_useIndex h o ho

theorem noVotesAt_checkOrphanVote {nHash nHash' : Uint256} (h : NoVotesAt s nHash) (p : VoteTimePair) :
    NoVotesAt (checkOrphanVote voteHash env nHash' (s, govobj) p).1 nHash := by
  have hp : NoVotesAt (processVoteOn voteHash env s govobj p.1).2.1 nHash := noVotesAt_processVoteOn h
  simp only [checkOrphanVote]
  split
  · exact h
  · split
    · rename_i he
      rw [he] at hp
      exact hp
    · rename_i he
      rw [he] at hp
      exact hp

theorem noVotesAt_checkOrphanVotes {nHash : Uint256} (h : NoVotesAt s nHash) :
    NoVotesAt (checkOrphanVotes voteHash env s govobj) nHash := by
  have hstart : NoVotesAt (s.setRateChecks false, govobj).1 nHash := h
  exact List.foldlRecOn (motive := fun r : Node × CGovernanceObject => NoVotesAt r.1 nHash) _ _ hstart
    fun r hr p _ => noVotesAt_checkOrphanVote hr p

theorem noVotesAt_storeObject (hempty : govobj.fileVotes.listVotes = []) (hnone : s.governance.mapObjects[govobj.hash]? = none) :
    NoVotesAt (storeObject s govobj) govobj.hash := by
  intro o ho
  simp only [storeObject, lookup_insertIfNew, hnone, and_self, if_true, Option.some.injEq] at ho
  rw [← ho, hempty]

theorem noVotesAt_addGovernanceObject (hempty : govobj.fileVotes.listVotes = [])
    (h : (addGovernanceObject env s govobj).1 = true) : NoVotesAt (addGovernanceObject env s govobj).2.2 govobj.hash := by
  rcases addGovernanceObject_cases env s govobj with ⟨hno, -⟩ | ⟨-, hnone, hs | hs⟩
  · rw [hno] at h
    cases h
  · rw [hs]
    exact noVotesAt_storeObject hempty hnone
  · rw [hs]
    apply noVotesAt_storeObject hempty
    simp only [updateCurrentWatchdog]
    split
    · simp only [Node.withGovernance, lookup_modify]
      split
      · rename_i hcur
        rw [← hcur, hnone]
        rfl
      · exact hnone
    · exact hnone

/-! ## Delivery -/

/-- An accepted object message ends with the replay on the object of the message. -/
theorem processObjectMessage_true {nVersion : Int} (h : processObjectMessage voteHash env s nVersion govobj = (true, s')) :
    ∃ t o', o' = govobj.updateSentinelVariables env.nGovernanceMinQuorum env.countEnabled env.adjustedTime ∧
      (addGovernanceObject env t o').1 = true ∧
      (s' = checkOrphanVotes voteHash env (addGovernanceObject env t o').2.2 o' ∨
        s' = checkOrphanVotes voteHash env (markSeen (addGovernanceObject env t o').2.2 govobj.hash seenObjectIsValid) o') := by
  have hnew (t : Node) (h : processNewObject voteHash env t govobj = (true, s')) : ∃ t o',
      o' = govobj.updateSentinelVariables env.nGovernanceMinQuorum env.countEnabled env.adjustedTime ∧
      (addGovernanceObject env t o').1 = true ∧
      (s' = checkOrphanVotes voteHash env (addGovernanceObject env t o').2.2 o' ∨
        s' = checkOrphanVotes voteHash env (markSeen (addGovernanceObject env t o').2.2 govobj.hash seenObjectIsValid) o') := by
    unfold processNewObject at h
    dsimp only at h
    generalize (if (govobj.isValidLocally (validityContext env t) true).2 = true then keepOrphanObject env t govobj else t) = u at h
    generalize ho : govobj.updateSentinelVariables env.nGovernanceMinQuorum env.countEnabled env.adjustedTime = o' at h
    split at h
    · cases h
    split at h
    · cases h
    split at h
    · cases h
    · obtain ⟨hadded, rfl⟩ := Prod.mk.inj h
      refine ⟨u, o', rfl, hadded, ?_⟩
      split
      · exact .inr rfl
      · exact .inl rfl
  unfold processObjectMessage at h
  split at h
  · cases h
  split at h
  · cases h
  split at h
  · cases h
  · exact hnew _ h

theorem accepted_noVotesAt {nVersion : Int} (hempty : govobj.fileVotes.listVotes = [])
    (h : processObjectMessage voteHash env s nVersion govobj = (true, s')) : NoVotesAt s' govobj.hash := by
  obtain ⟨t, o', ho', hadded, hs'⟩ := processObjectMessage_true h
  obtain ⟨hhash, hfile, -⟩ := govobj.updateSentinelVariables_votes env.nGovernanceMinQuorum env.countEnabled env.adjustedTime
  rw [← ho'] at hhash hfile
  have hstored := noVotesAt_addGovernanceObject (by rw [hfile]; exact hempty) hadded
  rw [← hhash]
  rcases hs' with rfl | rfl
  · exact noVotesAt_checkOrphanVotes hstored
  · exact noVotesAt_checkOrphanVotes (s := markSeen _ _ _) hstored

/-- The orphan votes of an accepted object are delivered exactly when none of them passes. -/
theorem orphan_votes_delivered_iff {nVersion nObjectType nTime : Int} {hash : Uint256} {vin : CTxIn} {vchSig : List UInt8}
    {fUnparsable : Bool}
    (h : processObjectMessage voteHash env s nVersion (.received hash nObjectType nTime vin vchSig fUnparsable) = (true, s')) :
    Delivered voteHash env s s' (.received hash nObjectType nTime vin vchSig fUnparsable) ↔
      ∀ p ∈ s.governance.mapOrphanVotes.getAll hash, p.2 < env.adjustedTime ∨ ¬ Passable env s p.1 := by
  have hpasses (v : CGovernanceVote) : PassesProcessVote voteHash env s (.received hash nObjectType nTime vin vchSig fUnparsable) v ↔
      Passable env s v := processVote_received rfl
  constructor
  · intro hd p hp
    by_contra hno
    obtain ⟨hunexpired, hpass⟩ := not_or.1 hno
    obtain ⟨o, -, -, ho, hfile, -⟩ := hd.recorded p hp hunexpired ((hpasses p.1).2 (not_not.1 hpass))
    rw [accepted_noVotesAt rfl h o ho] at hfile
    cases hfile
  · intro hno
    have hvacuous (p) (hp : p ∈ s.governance.mapOrphanVotes.getAll hash) (hunexpired : ¬ p.2 < env.adjustedTime)
        (hpass : PassesProcessVote voteHash env s (.received hash nObjectType nTime vin vchSig fUnparsable) p.1) :
        RecordedIn s' hash p.1 := absurd ((hpasses p.1).1 hpass) ((hno p hp).resolve_left hunexpired)
    exact ⟨hvacuous, fun p hp hunexpired hpass _ => hvacuous p hp hunexpired hpass⟩

/-! ## A vote before its object -/

def earlyVote : List (Env × Event) :=
  [(network, .updatedBlockTip 100), (network, .addMasternode ⟨masternodeVin 1, [1], ∅⟩),
   (network, .confirmInventoryRequest true 1), (network, .governanceObjectVote 70000 (fundingVote 1 9)),
   (network, .confirmInventoryRequest false 9)]

def trigger9 : CGovernanceObject := .received 9 governanceObjectTrigger 99000 (masternodeVin 1) [] false

def beforeTrigger9 : Node := earlyVote.foldl (next smallHash) .init

theorem trigger9_accepted : processObjectMessage smallHash network beforeTrigger9 70000 trigger9 =
    (true, (processObjectMessage smallHash network beforeTrigger9 70000 trigger9).2) :=
  Prod.ext (by decide) rfl

theorem orphan_votes_delivered_trigger9 :
    Delivered smallHash network beforeTrigger9 (processObjectMessage smallHash network beforeTrigger9 70000 trigger9).2 trigger9 ↔
      ∀ p ∈ beforeTrigger9.governance.mapOrphanVotes.getAll 9, p.2 < network.adjustedTime ∨
        ¬ Passable network beforeTrigger9 p.1 :=
  orphan_votes_delivered_iff trigger9_accepted

/-- The vote passes, leaves the orphans, and is not in the stored trigger. -/
theorem orphan_vote_lost :
    run (step smallHash) .init earlyVote = some beforeTrigger9 ∧
    (processObjectMessage smallHash network beforeTrigger9 70000 trigger9).1 = true ∧
    (processObjectMessage smallHash network beforeTrigger9 70000 trigger9).2.governance.mapOrphanVotes.getAll 9 = [] ∧
    ¬ Delivered smallHash network beforeTrigger9 (processObjectMessage smallHash network beforeTrigger9 70000 trigger9).2 trigger9 := by
  refine ⟨rfl, by decide, by decide, fun hd => ?_⟩
  have hheld : (fundingVote 1 9, 100300) ∈ beforeTrigger9.governance.mapOrphanVotes.getAll 9 := by decide
  have hpass : PassesProcessVote smallHash network beforeTrigger9 trigger9 (fundingVote 1 9) :=
    (processVote_received rfl).2 ⟨by decide, by decide, by decide, by decide⟩
  obtain ⟨o, -, -, ho, hfile, -⟩ := hd.recorded _ hheld (by decide) hpass
  rw [accepted_noVotesAt rfl trigger9_accepted o ho] at hfile
  cases hfile

end Zumy.Governance
