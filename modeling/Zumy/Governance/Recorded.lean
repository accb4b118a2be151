/-
  Zumy.Governance.Recorded — an object's records against an index and the log.

  `lastVote` reads a masternode's last vote off the log: a vote counts until the
  masternode, no longer listed, is cleared from the object or left out of a migration.
  `Recorded` says that the records are these votes, each at its masternode's number; it
  has one lemma for each move. A clearing and a rebuild keep it under the condition their
  move carries.
-/
import Zumy.Governance.Moves

namespace Zumy.Governance

open Lib Masternode Relation

/-- The last vote of a masternode on a stored object, the newest entry of the log first. -/
def lastVote (nHash : Uint256) (vin : CTxIn) (eSignal : Nat) : List VoteLog → Option CGovernanceVote
  | [] => none
  | .inserted n :: log => if n = nHash then none else lastVote nHash vin eSignal log
  | .accepted n vote :: log =>
    if n = nHash ∧ vote.vinMasternode.prevout = vin.prevout ∧ vote.getSignal = eSignal then some vote
    else lastVote nHash vin eSignal log
  | .cleared n listed :: log => if n = nHash ∧ vin.prevout ∉ listed then none else lastVote nHash vin eSignal log
  | .migrated index :: log => if index.mapIndex[vin]?.isNone then none else lastVote nHash vin eSignal log

/-- The instance is the vote; without a vote it is absent, or the empty one a refused vote leaves. -/
def Records (i : Option VoteInstance) : Option CGovernanceVote → Prop
  | some vote => ∃ nTime, i = some ⟨vote.getOutcome, nTime, vote.nTime⟩
  | none => i = none ∨ i = some .none

/-! ## An object's records against an index -/

structure Recorded (x : CMasternodeIndex) (log : List VoteLog) (nHash : Uint256) (o : CGovernanceObject) : Prop where
  numbered : ∀ i : Int, o.mapCurrentMNVotes[i]?.isSome → (x.get i).isSome
  voted : ∀ (vin : CTxIn) (i : Int) (sig : Nat), x.mapIndex[vin]? = some i →
    Records (o.instanceAt i sig) (lastVote nHash vin sig log)
  unlisted : ∀ (vin : CTxIn) (sig : Nat), x.mapIndex[vin]? = none → lastVote nHash vin sig log = none

variable {voteHash : CGovernanceVote → Uint256} {x : CMasternodeIndex} {log : List VoteLog} {nHash : Uint256}
variable {o o' : CGovernanceObject} {m : CMasternodeMan}

theorem records_none_left {vote : Option CGovernanceVote} (h : Records none vote) : vote = none := by
  cases vote with
  | none => rfl
  | some v => obtain ⟨t, ht⟩ := h; cases ht

theorem Recorded.of_records (h : o'.mapCurrentMNVotes = o.mapCurrentMNVotes) (ho : Recorded x log nHash o) :
    Recorded x log nHash o' where
  numbered i hi := ho.numbered i (by rwa [h] at hi)
  voted vin i sig hi := by
    have hinst : o'.instanceAt i sig = o.instanceAt i sig := CGovernanceObject.instanceAt_congr (by rw [h]) sig
    rw [hinst]
    exact ho.voted vin i sig hi
  unlisted := ho.unlisted

theorem Recorded.of_log {log' : List VoteLog} (h : ∀ vin sig, lastVote nHash vin sig log' = lastVote nHash vin sig log)
    (ho : Recorded x log nHash o) : Recorded x log' nHash o where
  numbered := ho.numbered
  voted vin i sig hi := by
    rw [h]
    exact ho.voted vin i sig hi
  unlisted vin sig hnone := by
    rw [h]
    exact ho.unlisted vin sig hnone

theorem Recorded.inserted (h : o.mapCurrentMNVotes = ∅) : Recorded x (.inserted nHash :: log) nHash o where
  numbered i hi := by simp [h] at hi
  voted vin i sig _ := by
    have hnone : o.instanceAt i sig = none := CGovernanceObject.instanceAt_eq_none (by simp [h]) sig
    simp [lastVote, Records, hnone]
  unlisted vin sig _ := by simp [lastVote]

theorem Recorded.vote (hx : x.Valid) (ho : Recorded x log nHash o) (cx : VoteContext) (vote : CGovernanceVote) :
    let r := o.processVote voteHash cx (x.getMasternodeIndex vote.vinMasternode) vote
    Recorded x (match r.1 with | .ok () => .accepted nHash vote :: log | .error _ => log) nHash r.2 := by
  intro r
  cases hnum : x.mapIndex[vote.vinMasternode]? with
  | none =>
    have hneg : x.getMasternodeIndex vote.vinMasternode = -1 := by simp [CMasternodeIndex.getMasternodeIndex, hnum]
    obtain ⟨hno, hmap⟩ : r.1 ≠ .ok () ∧ r.2.mapCurrentMNVotes = o.mapCurrentMNVotes :=
      CGovernanceObject.processVote_negative (by omega)
    have hlog : (match r.1 with | .ok () => .accepted nHash vote :: log | .error _ => log) = log := by
      split
      · rename_i hok; exact absurd hok hno
      · rfl
    rw [hlog]
    exact ho.of_records hmap
  | some k =>
    have hk : x.getMasternodeIndex vote.vinMasternode = k := by simp [CMasternodeIndex.getMasternodeIndex, hnum]
    have hother (i : Int) (hi : i ≠ k) : r.2.mapCurrentMNVotes[i]? = o.mapCurrentMNVotes[i]? :=
      CGovernanceObject.processVote_other (by rw [hk]; exact hi)
    have hnumbered (i : Int) (hi : r.2.mapCurrentMNVotes[i]?.isSome) : (x.get i).isSome := by
      by_cases hik : i = k
      · obtain ⟨w, hw, -⟩ := hx.reversed _ k hnum
        rw [hik, hw]
        rfl
      · exact ho.numbered i (by rwa [hother i hik] at hi)
    cases hans : r.1 with
    | ok u =>
      obtain ⟨-, nTime, htaken⟩ := CGovernanceObject.processVote_accepted hans
      refine ⟨hnumbered, fun vin i sig hi => ?_, fun vin sig hnone => ?_⟩
      · by_cases hik : i = k
        · subst hik
          have hp : vin.prevout = vote.vinMasternode.prevout := (hx.mapIndex_iff hnum).1 hi
          rw [← hk, htaken, lastVote]
          by_cases hsig : sig = vote.getSignal
          · rw [if_pos hsig, if_pos ⟨rfl, hp.symm, hsig.symm⟩]
            exact ⟨nTime, rfl⟩
          · rw [if_neg hsig, if_neg fun h => hsig h.2.2.symm, hk]
            exact ho.voted vin i sig hi
        · have hp : vote.vinMasternode.prevout ≠ vin.prevout := by
            intro hp
            rw [CMasternodeIndex.mapIndex_congr hp, hi] at hnum
            exact hik (Option.some.inj hnum)
          rw [CGovernanceObject.instanceAt_congr (hother i hik), lastVote, if_neg fun h => hp h.2.1]
          exact ho.voted vin i sig hi
      · have hp : vote.vinMasternode.prevout ≠ vin.prevout := by
          intro hp
          rw [CMasternodeIndex.mapIndex_congr hp, hnone] at hnum
          cases hnum
        rw [lastVote, if_neg fun h => hp h.2.1]
        exact ho.unlisted vin sig hnone
    | error e =>
      refine ⟨hnumbered, fun vin i sig hi => ?_, ho.unlisted⟩
      by_cases hik : i = k
      · subst hik
        have hno : r.1 ≠ .ok () := by rw [hans]; simp
        have hbefore := ho.voted vin i sig hi
        rw [← hk] at hbefore ⊢
        rcases CGovernanceObject.processVote_refused hno sig with hsame | ⟨hnone, hempty⟩
        · rwa [hsame]
        · rw [hnone] at hbefore
          rw [hempty, records_none_left hbefore]
          exact .inr rfl
      · rw [CGovernanceObject.instanceAt_congr (hother i hik)]
        exact ho.voted vin i sig hi

/-- The records move with their masternodes; those of masternodes that are not in the new index go. -/
theorem Recorded.migrated (hold : m.indexMasternodesOld.Valid) (hnew : m.indexMasternodes.Valid)
    (ho : Recorded m.indexMasternodesOld log nHash o) :
    Recorded m.indexMasternodes (.migrated m.indexMasternodes :: log) nHash (o.rebuildVoteMap m) := by
  have hmove (j : Int) (r : VoteRec) := CGovernanceObject.rebuildVoteMap_lookup (o := o) (j := j) hold hnew (r := r)
  refine ⟨fun j hj => ?_, fun vin j sig hj => ?_, fun vin sig hnone => ?_⟩
  · obtain ⟨r, hr⟩ := Option.isSome_iff_exists.1 hj
    obtain ⟨i, hi, -⟩ := (hmove j r).1 hr
    obtain ⟨w, -, hw⟩ := Option.bind_eq_some_iff.1 hi
    obtain ⟨w', hw', -⟩ := hnew.reversed w j hw
    rw [hw']
    rfl
  · have hlast : lastVote nHash vin sig (.migrated m.indexMasternodes :: log) = lastVote nHash vin sig log := by
      simp [lastVote, hj]
    rw [hlast]
    cases hi : m.indexMasternodesOld.mapIndex[vin]? with
    | some i =>
      -- the record at `j` is the one that was at the masternode's old number
      obtain ⟨w, hw, hwp⟩ := hold.reversed vin i hi
      have hto : CGovernanceObject.movesTo m i = some j := by
        simp [CGovernanceObject.movesTo, hw, CMasternodeIndex.mapIndex_congr hwp, hj]
      have hsame : (o.rebuildVoteMap m).mapCurrentMNVotes[j]? = o.mapCurrentMNVotes[i]? := by
        refine Option.ext fun r => (hmove j r).trans ⟨fun ⟨i', hto', hr⟩ => ?_, fun hr => ⟨i, hto, hr⟩⟩
        rwa [CGovernanceObject.movesTo_injective hold hnew hto hto']
      have hinst : (o.rebuildVoteMap m).instanceAt j sig = o.instanceAt i sig := by
        unfold CGovernanceObject.instanceAt
        rw [hsame]
      rw [hinst]
      exact ho.voted vin i sig hi
    | none =>
      rw [ho.unlisted vin sig hi]
      refine .inl (CGovernanceObject.instanceAt_eq_none ?_ sig)
      apply Option.eq_none_iff_forall_not_mem.2
      intro r hr
      obtain ⟨i, hto, -⟩ := (hmove j r).1 hr
      obtain ⟨w, hw, hwj⟩ := Option.bind_eq_some_iff.1 hto
      have hp : vin.prevout = w.prevout := (hnew.mapIndex_iff hwj).1 hj
      rw [CMasternodeIndex.mapIndex_congr hp, hold.indexed i w hw] at hi
      cases hi
  · simp [lastVote, hnone]

theorem Recorded.cleared (hx : (recordIndex m).Valid) (hclear : ClearsRight m o) (ho : Recorded (recordIndex m) log nHash o) :
    Recorded (recordIndex m) (.cleared nHash m.outpoints :: log) nHash (o.clearMasternodeVotes voteHash m) := by
  refine ⟨fun i hi => ?_, fun vin i sig hi => ?_, fun vin sig hnone => ?_⟩
  · rw [CGovernanceObject.clearMasternodeVotes_lookup] at hi
    split at hi
    · exact ho.numbered i hi
    · cases hi
  · have hbefore := ho.voted vin i sig hi
    obtain ⟨w, hw, hwp⟩ := hx.reversed vin i hi
    have hlist : lastVote nHash vin sig (.cleared nHash m.outpoints :: log) =
        if m.has vin then lastVote nHash vin sig log else none := by
      have hhas : m.has vin = true ↔ vin.prevout ∈ m.outpoints := CMasternodeMan.has_iff
      cases hb : m.has vin <;> simp_all [lastVote]
    rw [hlist]
    by_cases hrec : o.mapCurrentMNVotes[i]?.isSome
    · -- the number is looked up in the new index and stands for a masternode as listed as this one
      have hat : CGovernanceObject.listedAt m i = m.has vin := by
        rw [hclear i hrec, hw, Option.any_some, Bool.eq_iff_iff, CMasternodeMan.has_iff, CMasternodeMan.has_iff, hwp]
      have hlookup : (o.clearMasternodeVotes voteHash m).mapCurrentMNVotes[i]? =
          if CGovernanceObject.listedAt m i then o.mapCurrentMNVotes[i]? else none :=
            CGovernanceObject.clearMasternodeVotes_lookup
      rw [hat] at hlookup
      cases hb : m.has vin with
      | true =>
        rw [hb, if_pos rfl] at hlookup
        rw [if_pos rfl, CGovernanceObject.instanceAt_congr hlookup]
        exact hbefore
      | false =>
        rw [hb] at hlookup
        rw [if_neg (by simp)]
        exact .inl (CGovernanceObject.instanceAt_eq_none hlookup sig)
    · have hnone : o.mapCurrentMNVotes[i]? = none := by simpa using hrec
      have hafter : (o.clearMasternodeVotes voteHash m).mapCurrentMNVotes[i]? = none := by
        rw [CGovernanceObject.clearMasternodeVotes_lookup, hnone, ite_self]
      rw [CGovernanceObject.instanceAt_eq_none hnone] at hbefore
      rw [CGovernanceObject.instanceAt_eq_none hafter, records_none_left hbefore, ite_self]
      exact .inl rfl
  · rw [lastVote, ho.unlisted vin sig hnone, ite_self]

/-- The replaced index takes the place of the one the records are numbered by. -/
theorem Recorded.rebuilt (hx : (recordIndex m).Valid) (hnew : m.indexMasternodes.Valid) (hagree : NumbersAgree m o)
    (ho : Recorded (recordIndex m) log nHash o) : Recorded m.indexMasternodes log nHash o := by
  -- a masternode whose number has a record has the same number in both
  have hsame (vin : CTxIn) (i : Int) (hi : (recordIndex m).mapIndex[vin]? = some i) (hrec : o.mapCurrentMNVotes[i]?.isSome) :
      m.indexMasternodes.mapIndex[vin]? = some i := by
    obtain ⟨w, hw, hwp⟩ := hx.reversed vin i hi
    have h := hagree i hrec
    rw [hw, Option.map_some] at h
    obtain ⟨w', hw', hwp'⟩ := Option.map_eq_some_iff.1 h
    rw [← CMasternodeIndex.mapIndex_congr (hwp'.trans hwp)]
    exact hnew.indexed i w' hw'
  have hnovote (vin : CTxIn) (sig : Nat) (hno : ∀ i : Int, (recordIndex m).mapIndex[vin]? = some i →
    o.mapCurrentMNVotes[i]? = none) :
      lastVote nHash vin sig log = none := by
    cases hi : (recordIndex m).mapIndex[vin]? with
    | none => exact ho.unlisted vin sig hi
    | some i =>
      have hbefore := ho.voted vin i sig hi
      rw [CGovernanceObject.instanceAt_eq_none (hno i hi)] at hbefore
      exact records_none_left hbefore
  refine ⟨fun i hi => ?_, fun vin j sig hj => ?_, fun vin sig hnone => hnovote vin sig fun i hi => ?_⟩
  · have h := hagree i hi
    obtain ⟨w, hw⟩ := Option.isSome_iff_exists.1 (ho.numbered i hi)
    rw [hw, Option.map_some] at h
    obtain ⟨w', hw', -⟩ := Option.map_eq_some_iff.1 h
    rw [hw']
    rfl
  · cases hrec : o.mapCurrentMNVotes[j]? with
    | some r =>
      obtain ⟨w', hw', hwp'⟩ := hnew.reversed vin j hj
      have h := hagree j (by rw [hrec]; rfl)
      rw [hw', Option.map_some] at h
      obtain ⟨w, hw, hwp⟩ := Option.map_eq_some_iff.1 h.symm
      have hi : (recordIndex m).mapIndex[vin]? = some j := by
        rw [← CMasternodeIndex.mapIndex_congr (hwp.trans hwp')]
        exact hx.indexed j w hw
      exact ho.voted vin j sig hi
    | none =>
      rw [hnovote vin sig fun i hi => ?_]
      · exact .inl (CGovernanceObject.instanceAt_eq_none hrec sig)
      · by_contra hsome
        rw [← ne_eq, Option.ne_none_iff_isSome] at hsome
        have h := hsame vin i hi hsome
        rw [hj] at h
        cases h
        rw [hrec] at hsome
        cases hsome
  · by_contra hsome
    rw [← ne_eq, Option.ne_none_iff_isSome] at hsome
    rw [hsame vin i hi hsome] at hnone
    cases hnone

theorem Recorded.added (hx : x.Valid) (vin : CTxIn) (ho : Recorded x log nHash o) :
    Recorded (x.addMasternodeVIN vin) log nHash o := by
  refine ⟨fun i hi => CMasternodeIndex.get_add_isSome hx (ho.numbered i hi), fun vin' i sig hi => ?_, fun vin' sig hnone => ?_⟩
  · rcases CMasternodeIndex.mapIndex_add_eq_some hi with h | ⟨hnone, -, rfl⟩
    · exact ho.voted vin' i sig h
    · -- the new number is above all numbers that have records
      have hfree : o.mapCurrentMNVotes[x.nSize]? = none := by
        by_contra hsome
        obtain ⟨w, hw⟩ := Option.isSome_iff_exists.1 (ho.numbered x.nSize (Option.ne_none_iff_isSome.1 hsome))
        have hlt := (hx.bounded w x.nSize (hx.indexed _ w hw)).2
        omega
      rw [ho.unlisted vin' sig hnone, CGovernanceObject.instanceAt_eq_none hfree]
      exact .inl rfl
  · refine ho.unlisted vin' sig (Option.eq_none_iff_forall_not_mem.2 fun i hi => ?_)
    rw [CMasternodeIndex.mapIndex_add_of_some hi] at hnone
    cases hnone

end Zumy.Governance
