/-
  Zumy.Governance.Records — what the operations of an object do to its vote records.

  - `processVote_other`, `processVote_accepted`, `processVote_refused`: a vote touches the
    record of its masternode's number only; taken, it replaces the instance of its signal;
    refused, it leaves every instance, and may add an empty one.
  - `clearMasternodeVotes_lookup`: which records `ClearMasternodeVotes` keeps.
  - `rebuildVoteMap_lookup`: where `RebuildVoteMap` puts a record.
-/
import Zumy.Governance.Object

namespace Zumy.Governance

open Lib Masternode

def CGovernanceObject.instanceAt (o : CGovernanceObject) (nMNIndex : Int) (eSignal : Nat) : Option VoteInstance :=
  o.mapCurrentMNVotes[nMNIndex]?.bind fun r => r.mapInstances[eSignal]?

namespace CGovernanceObject

variable {voteHash : CGovernanceVote → Uint256} {cx : VoteContext} {o : CGovernanceObject} {vote : CGovernanceVote} {i j : Int}
variable {mnodeman : CMasternodeMan}

theorem instanceAt_congr {o' : CGovernanceObject} (h : o'.mapCurrentMNVotes[i]? = o.mapCurrentMNVotes[i]?) (sig : Nat) :
    o'.instanceAt i sig = o.instanceAt i sig := by
  unfold instanceAt
  rw [h]

theorem instanceAt_eq_none (h : o.mapCurrentMNVotes[i]? = none) (sig : Nat) : o.instanceAt i sig = none := by
  unfold instanceAt
  rw [h]
  rfl

/-! ## A vote -/

theorem recVote_lookup (sig : Nat) : (o.recVote i).mapInstances[sig]? = o.instanceAt i sig := by
  unfold recVote instanceAt
  cases o.mapCurrentMNVotes[i]? <;> simp

theorem putRec_lookup {r : VoteRec} : (o.putRec i r).mapCurrentMNVotes[j]? = if j = i then some r else o.mapCurrentMNVotes[j]? :=
  lookup_insert

theorem putRec_instanceAt {r : VoteRec} (sig : Nat) :
    (o.putRec i r).instanceAt j sig = if j = i then r.mapInstances[sig]? else o.instanceAt j sig := by
  unfold instanceAt
  rw [putRec_lookup]
  split <;> rfl

theorem putInstance_instanceAt {e sig : Nat} {w : VoteInstance} :
    (o.putInstance i e w).instanceAt i sig = if sig = e then some w else o.instanceAt i sig := by
  unfold putInstance
  rw [putRec_instanceAt, if_pos rfl, lookup_insert, recVote_lookup]

theorem processVote_cases (voteHash : CGovernanceVote → Uint256) (cx : VoteContext) (o : CGovernanceObject) (i : Int)
    (vote : CGovernanceVote) :
    let r := o.processVote voteHash cx i vote
    (i < 0 ∧ r.1 ≠ .ok () ∧ r.2.mapCurrentMNVotes = o.mapCurrentMNVotes) ∨
    (0 ≤ i ∧ r.1 ≠ .ok () ∧ r.2.mapCurrentMNVotes = (o.putRec i (o.recVote i)).mapCurrentMNVotes) ∨
    (0 ≤ i ∧ r.1 ≠ .ok () ∧ r.2.mapCurrentMNVotes =
      (o.putInstance i vote.getSignal (o.voteInstance i vote.getSignal)).mapCurrentMNVotes) ∨
    (0 ≤ i ∧ r.1 = .ok () ∧ r.2.mapCurrentMNVotes = (o.putInstance i vote.getSignal
      ⟨vote.getOutcome, (o.voteInstance i vote.getSignal).nTime, vote.nTime⟩).mapCurrentMNVotes) := by
  simp only [processVote]
  split
  · exact .inl ⟨by assumption, by simp, rfl⟩
  rename_i hi
  split
  · exact .inr (.inl ⟨by omega, by simp, rfl⟩)
  split
  · exact .inr (.inl ⟨by omega, by simp, rfl⟩)
  split
  · exact .inr (.inr (.inl ⟨by omega, by simp, rfl⟩))
  split
  · exact .inr (.inr (.inl ⟨by omega, by simp, rfl⟩))
  split
  · exact .inr (.inr (.inl ⟨by omega, by simp, rfl⟩))
  · exact .inr (.inr (.inr ⟨by omega, rfl, rfl⟩))

theorem processVote_taken (hi : 0 ≤ i) (hfree : o.mapCurrentMNVotes[i]? = none) (hnone : vote.getSignal ≠ voteSignalNone)
    (hsupported : vote.getSignal ≤ maxSupportedVoteSignal) (htime : 0 ≤ vote.nTime)
    (hrate : (cx.fRateChecksEnabled && decide (cx.now < governanceUpdateMin)) = false) (hvalid : cx.isValid vote = true) :
    o.processVote voteHash cx i vote = (.ok (), { o.putInstance i vote.getSignal ⟨vote.getOutcome, 0, vote.nTime⟩ with
      fileVotes := o.fileVotes.addVote voteHash vote
      fDirtyCache := true }) := by
  have hinst : o.voteInstance i vote.getSignal = .none := by simp [voteInstance, recVote, hfree]
  simp only [processVote, hinst]
  rw [if_neg (by omega), if_neg hnone, if_neg (by omega), if_neg (by simp only [VoteInstance.none]; omega), if_neg, if_neg (by simp [hvalid])]
  · rfl
  · simpa [VoteInstance.none] using hrate

theorem processVote_other (hj : j ≠ i) :
    (o.processVote voteHash cx i vote).2.mapCurrentMNVotes[j]? = o.mapCurrentMNVotes[j]? := by
  rcases processVote_cases voteHash cx o i vote with ⟨-, -, h⟩ | ⟨-, -, h⟩ | ⟨-, -, h⟩ | ⟨-, -, h⟩
  · rw [h]
  · rw [h, putRec_lookup, if_neg hj]
  · rw [h, putInstance, putRec_lookup, if_neg hj]
  · rw [h, putInstance, putRec_lookup, if_neg hj]

theorem processVote_negative (hi : i < 0) : (o.processVote voteHash cx i vote).1 ≠ .ok () ∧
    (o.processVote voteHash cx i vote).2.mapCurrentMNVotes = o.mapCurrentMNVotes := by
  rcases processVote_cases voteHash cx o i vote with h | h | h | h
  · exact h.2
  all_goals exact absurd h.1 (by omega)

theorem processVote_accepted (h : (o.processVote voteHash cx i vote).1 = .ok ()) :
    0 ≤ i ∧ ∃ nTime, ∀ sig, (o.processVote voteHash cx i vote).2.instanceAt i sig =
      if sig = vote.getSignal then some ⟨vote.getOutcome, nTime, vote.nTime⟩ else o.instanceAt i sig := by
  rcases processVote_cases voteHash cx o i vote with ⟨-, hno, -⟩ | ⟨-, hno, -⟩ | ⟨-, hno, -⟩ | ⟨hi, -, hmap⟩
  · exact absurd h hno
  · exact absurd h hno
  · exact absurd h hno
  · refine ⟨hi, (o.voteInstance i vote.getSignal).nTime, fun sig => ?_⟩
    exact (instanceAt_congr (by rw [hmap]) sig).trans putInstance_instanceAt

theorem processVote_refused (h : (o.processVote voteHash cx i vote).1 ≠ .ok ()) (sig : Nat) :
    (o.processVote voteHash cx i vote).2.instanceAt i sig = o.instanceAt i sig ∨
      (o.instanceAt i sig = none ∧ (o.processVote voteHash cx i vote).2.instanceAt i sig = some .none) := by
  rcases processVote_cases voteHash cx o i vote with ⟨-, -, hmap⟩ | ⟨-, -, hmap⟩ | ⟨-, -, hmap⟩ | ⟨-, hok, -⟩
  · exact .inl (instanceAt_congr (by rw [hmap]) sig)
  · have hput : (o.processVote voteHash cx i vote).2.instanceAt i sig = (o.putRec i (o.recVote i)).instanceAt i sig :=
      instanceAt_congr (by rw [hmap]) sig
    rw [hput, putRec_instanceAt, if_pos rfl, recVote_lookup]
    exact .inl rfl
  · have hput : (o.processVote voteHash cx i vote).2.instanceAt i sig =
        (o.putInstance i vote.getSignal (o.voteInstance i vote.getSignal)).instanceAt i sig :=
      instanceAt_congr (by rw [hmap]) sig
    rw [hput, putInstance_instanceAt]
    split
    · rename_i hsig
      rw [hsig, voteInstance, recVote_lookup]
      cases o.instanceAt i vote.getSignal with
      | none => exact .inr ⟨rfl, rfl⟩
      | some w => exact .inl rfl
    · exact .inl rfl
  · exact absurd hok h

/-! ## Clearing -/

def listedAt (mnodeman : CMasternodeMan) (i : Int) : Bool := (mnodeman.indexMasternodes.get i).any mnodeman.has

theorem clearRec_lookup (it : Int × VoteRec) : (o.clearRec voteHash mnodeman it).mapCurrentMNVotes[j]? =
    if it.1 = j ∧ listedAt mnodeman j = false then none else o.mapCurrentMNVotes[j]? := by
  have herase : (o.mapCurrentMNVotes.erase it.1)[j]? = if it.1 = j then none else o.mapCurrentMNVotes[j]? := by
    simp [lookup_erase, eq_comm]
  unfold clearRec listedAt
  by_cases hj : it.1 = j
  · subst hj
    cases hget : mnodeman.indexMasternodes.get it.1 with
    | none => simp
    | some vin => cases hhas : mnodeman.has vin <;> simp [hhas]
  · rw [if_neg fun h => hj h.1]
    rw [if_neg hj] at herase
    split
    · split
      · rfl
      · exact herase
    · exact herase

theorem clearMasternodeVotes_lookup : (o.clearMasternodeVotes voteHash mnodeman).mapCurrentMNVotes[j]? =
    if listedAt mnodeman j then o.mapCurrentMNVotes[j]? else none := by
  have hfold (l : List (Int × VoteRec)) (p : CGovernanceObject) :
      (l.foldl (clearRec voteHash mnodeman) p).mapCurrentMNVotes[j]? =
        if (∃ it ∈ l, it.1 = j) ∧ listedAt mnodeman j = false then none else p.mapCurrentMNVotes[j]? := by
    induction l generalizing p with
    | nil => simp
    | cons it l ih =>
      have hmem : (∃ x ∈ it :: l, x.1 = j) ↔ it.1 = j ∨ ∃ x ∈ l, x.1 = j := List.exists_mem_cons_iff ..
      rw [List.foldl_cons, ih, clearRec_lookup]
      by_cases hj : it.1 = j <;> by_cases hin : ∃ x ∈ l, x.1 = j <;>
        cases hl : listedAt mnodeman j <;> simp only [hmem, hj, hin] <;> rfl
  unfold clearMasternodeVotes
  rw [hfold]
  cases hj : o.mapCurrentMNVotes[j]? with
  | none => simp
  | some r =>
    have hin : ∃ it ∈ o.mapCurrentMNVotes.toList, it.1 = j :=
      ⟨(j, r), Std.TreeMap.mem_toList_iff_getElem?_eq_some.2 hj, rfl⟩
    cases hl : listedAt mnodeman j <;> simp [hin]

theorem clearMasternodeVotes_live : (o.clearMasternodeVotes voteHash mnodeman).fCachedDelete = o.fCachedDelete ∧
    (o.clearMasternodeVotes voteHash mnodeman).fExpired = o.fExpired := by
  have hturn (p : CGovernanceObject) (it : Int × VoteRec) :
      (p.clearRec voteHash mnodeman it).fCachedDelete = p.fCachedDelete ∧
        (p.clearRec voteHash mnodeman it).fExpired = p.fExpired := by
    unfold clearRec
    split
    · split <;> exact ⟨rfl, rfl⟩
    · exact ⟨rfl, rfl⟩
  refine List.foldlRecOn (motive := fun p : CGovernanceObject => p.fCachedDelete = o.fCachedDelete ∧ p.fExpired = o.fExpired)
    _ _ ⟨rfl, rfl⟩ ?_
  intro p hp it _
  exact ⟨(hturn p it).1.trans hp.1, (hturn p it).2.trans hp.2⟩

/-! ## Moving -/

/-- The number in the new index of the masternode that the old index has for a number. -/
def movesTo (mnodeman : CMasternodeMan) (i : Int) : Option Int :=
  (mnodeman.indexMasternodesOld.get i).bind fun vin => mnodeman.indexMasternodes.mapIndex[vin]?

theorem movesTo_injective (hold : mnodeman.indexMasternodesOld.Valid) (hnew : mnodeman.indexMasternodes.Valid) {i' : Int}
    (h : movesTo mnodeman i = some j) (h' : movesTo mnodeman i' = some j) : i = i' := by
  obtain ⟨vin, hvin, hj⟩ := Option.bind_eq_some_iff.1 h
  obtain ⟨vin', hvin', hj'⟩ := Option.bind_eq_some_iff.1 h'
  have hsame := (hnew.mapIndex_iff hj).1 hj'
  have heq := hold.indexed i vin hvin
  rw [CMasternodeIndex.mapIndex_congr hsame.symm, hold.indexed i' vin' hvin'] at heq
  exact (Option.some.inj heq).symm

theorem rebuildVoteMap_lookup (hold : mnodeman.indexMasternodesOld.Valid) (hnew : mnodeman.indexMasternodes.Valid) {r : VoteRec} :
    (o.rebuildVoteMap mnodeman).mapCurrentMNVotes[j]? = some r ↔
      ∃ i, movesTo mnodeman i = some j ∧ o.mapCurrentMNVotes[i]? = some r := by
  have hmove (acc : Map Int VoteRec) (it : Int × VoteRec) :
      moveRec mnodeman acc it = (movesTo mnodeman it.1).elim acc fun k => acc.insert k it.2 := by
    unfold moveRec movesTo
    cases hget : mnodeman.indexMasternodesOld.get it.1 with
    | none => rfl
    | some vin =>
      rcases Option.eq_none_or_eq_some (mnodeman.indexMasternodes.mapIndex[vin]?) with hi | ⟨k, hi⟩
      · simp [CMasternodeIndex.getMasternodeIndex, hi]
      · simp [CMasternodeIndex.getMasternodeIndex, hi, (hnew.bounded vin k hi).1]
  have hrekey : (rekey (movesTo mnodeman) o.mapCurrentMNVotes : Map Int VoteRec)[j]? = some r ↔ _ :=
    lookup_rekey (fun _ _ _ h h' => movesTo_injective hold hnew h h') o.mapCurrentMNVotes j r
  refine Iff.trans ?_ hrekey
  unfold rebuildVoteMap rekey
  rw [show moveRec mnodeman = fun acc it => (movesTo mnodeman it.1).elim acc fun k => acc.insert k it.2 from
    funext fun acc => funext fun it => hmove acc it]

end CGovernanceObject

end Zumy.Governance
