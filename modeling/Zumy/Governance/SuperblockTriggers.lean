/-
  Zumy.Governance.SuperblockTriggers — `IsSuperblockTriggered` and `GetBestSuperblock`.

  The first looks for an active trigger whose cached funding flag is set once
  `UpdateSentinelVariables` ran on it, the second for the active trigger with the most yes
  votes. With no masternode enabled `UpdateSentinelVariables` returns at once, so the first
  goes by the flag of an earlier count.

  - `triggered_has_best_iff`: on each network, the states in which a triggered height has
    a best superblock, with the most votes and with the funding quorum.
  - `stale_flag_triggers`: the flag outlives the votes of the only masternode.
-/
import Zumy.Governance.SuperblockPayments
import Zumy.Lib.Best

namespace Zumy.Governance

open Lib CSuperblock CSuperblockManager

variable {cs : ConsensusParams} {cx : SentinelContext} {mapTrigger : Triggers} {mapObjects mapObjects' : Objects}
variable {nBlockHeight : Int} {sb : CSuperblock} {o : CGovernanceObject}

namespace CSuperblockManager

def yesCount (mapObjects : Objects) (sb : CSuperblock) : Option Int :=
  (mapObjects[sb.nGovObjHash]?).map fun o => o.getAbsoluteYesCount voteSignalFunding

def funded (cx : SentinelContext) (mapObjects : Objects) (sb : CSuperblock) : Bool :=
  (mapObjects[sb.nGovObjHash]?).any fun o => (cx.update o).fCachedFunding

/-! ## The update changes no votes -/

theorem yesCount_update (cx : SentinelContext) (o : CGovernanceObject) (eSignal : Nat) :
    (cx.update o).getAbsoluteYesCount eSignal = o.getAbsoluteYesCount eSignal := by
  simp only [CGovernanceObject.getAbsoluteYesCount, CGovernanceObject.countMatchingVotes, SentinelContext.update,
    (CGovernanceObject.updateSentinelVariables_votes o _ _ _).2.2]

theorem update_fCachedFunding (cx : SentinelContext) (o : CGovernanceObject) : (cx.update o).fCachedFunding =
    if cx.countEnabled = 0 then o.fCachedFunding
    else decide (cx.fundingQuorum ≤ o.getAbsoluteYesCount voteSignalFunding) := by
  unfold SentinelContext.update CGovernanceObject.updateSentinelVariables SentinelContext.fundingQuorum
  by_cases hzero : cx.countEnabled = 0
  · simp [hzero]
  · simp [hzero]

theorem update_update_fCachedFunding (cx : SentinelContext) (o : CGovernanceObject) :
    (cx.update (cx.update o)).fCachedFunding = (cx.update o).fCachedFunding := by
  simp only [update_fCachedFunding, yesCount_update]
  by_cases hzero : cx.countEnabled = 0 <;> simp [hzero]

/-- The same objects are stored, with the same votes and the same funding flag after an update. -/
structure SameCount (cx : SentinelContext) (mapObjects mapObjects' : Objects) : Prop where
  contains : ∀ k, mapObjects'.contains k = mapObjects.contains k
  yes : ∀ sb, yesCount mapObjects' sb = yesCount mapObjects sb
  funded : ∀ sb, funded cx mapObjects' sb = funded cx mapObjects sb

theorem SameCount.refl (cx : SentinelContext) (mapObjects : Objects) : SameCount cx mapObjects mapObjects :=
  ⟨fun _ => rfl, fun _ => rfl, fun _ => rfl⟩

theorem SameCount.trans {mapObjects'' : Objects} (h : SameCount cx mapObjects mapObjects')
    (h' : SameCount cx mapObjects' mapObjects'') : SameCount cx mapObjects mapObjects'' :=
  ⟨fun k => (h'.contains k).trans (h.contains k), fun sb => (h'.yes sb).trans (h.yes sb),
   fun sb => (h'.funded sb).trans (h.funded sb)⟩

theorem sameCount_insert {k : Uint256} (ho : mapObjects[k]? = some o) :
    SameCount cx mapObjects (mapObjects.insert k (cx.update o)) := by
  refine ⟨fun k' => ?_, fun sb => ?_, fun sb => ?_⟩
  · rw [← Std.TreeMap.isSome_getElem?_eq_contains, ← Std.TreeMap.isSome_getElem?_eq_contains, lookup_insert]
    by_cases hk : k' = k
    · simp [hk, ho]
    · simp [hk]
  · unfold yesCount
    rw [lookup_insert]
    by_cases hk : sb.nGovObjHash = k
    · simp [hk, ho, yesCount_update]
    · simp [hk]
  · unfold CSuperblockManager.funded
    rw [lookup_insert]
    by_cases hk : sb.nGovObjHash = k
    · simp [hk, ho, update_update_fCachedFunding]
    · simp [hk]

/-- The induction is on the triggers; each visited object counts the same after its update. -/
theorem anyTriggered_spec (cs : ConsensusParams) (cx : SentinelContext) (nBlockHeight : Int) (mapObjects : Objects)
    (l : List CSuperblock) :
    ((anyTriggered cs cx nBlockHeight mapObjects l).1 = true ↔
      nBlockHeight = cs.nSuperblockCycle ∧ ∃ sb ∈ l, funded cx mapObjects sb = true) ∧
    SameCount cx mapObjects (anyTriggered cs cx nBlockHeight mapObjects l).2 := by
  induction l generalizing mapObjects with
  | nil => simp [anyTriggered, SameCount.refl]
  | cons sb l ih =>
    unfold anyTriggered
    cases ho : mapObjects[sb.nGovObjHash]? with
    | none =>
      have hnot : funded cx mapObjects sb = false := by simp [funded, ho]
      refine ⟨?_, (ih mapObjects).2⟩
      simp only [(ih mapObjects).1, List.mem_cons, exists_eq_or_imp, hnot, Bool.false_eq_true, false_or]
    | some o =>
      have hfund : funded cx mapObjects sb = (cx.update o).fCachedFunding := by simp [funded, ho]
      by_cases hheight : nBlockHeight = cs.nSuperblockCycle
      · have hsame : SameCount cx mapObjects (mapObjects.insert sb.nGovObjHash (cx.update o)) := sameCount_insert ho
        simp only [hheight, ne_eq, not_true_eq_false, if_false, true_and, List.mem_cons, exists_eq_or_imp, hfund]
        by_cases hset : (cx.update o).fCachedFunding = true
        · simpa [hset] using hsame
        · have hih := ih (mapObjects.insert sb.nGovObjHash (cx.update o))
          rw [hheight] at hih
          rw [Bool.not_eq_true] at hset
          simp only [hset, Bool.false_eq_true, if_false, false_or]
          refine ⟨?_, hsame.trans hih.2⟩
          simp only [hih.1, true_and, hsame.funded]
      · simp only [ne_eq, hheight, not_false_eq_true, if_true]
        refine ⟨?_, (ih mapObjects).2⟩
        simp only [(ih mapObjects).1, hheight, false_and]

theorem isSuperblockTriggered_iff : (isSuperblockTriggered cs cx mapTrigger mapObjects nBlockHeight).1 = true ↔
    isValidBlockHeight cs nBlockHeight = true ∧ nBlockHeight = cs.nSuperblockCycle ∧
    ∃ sb ∈ getActiveTriggers mapTrigger mapObjects, funded cx mapObjects sb = true := by
  unfold isSuperblockTriggered
  by_cases hheight : isValidBlockHeight cs nBlockHeight = true
  · simp [hheight, (anyTriggered_spec cs cx nBlockHeight mapObjects _).1]
  · simp [hheight]

theorem isSuperblockTriggered_sameCount :
    SameCount cx mapObjects (isSuperblockTriggered cs cx mapTrigger mapObjects nBlockHeight).2 := by
  unfold isSuperblockTriggered
  by_cases hheight : isValidBlockHeight cs nBlockHeight = true
  · simpa [hheight] using (anyTriggered_spec cs cx nBlockHeight mapObjects _).2
  · simpa [hheight] using SameCount.refl cx mapObjects

theorem getActiveTriggers_congr (h : SameCount cx mapObjects mapObjects') :
    getActiveTriggers mapTrigger mapObjects' = getActiveTriggers mapTrigger mapObjects := by
  simp only [getActiveTriggers, h.contains]

theorem isSuperblockTriggered_congr (h : SameCount cx mapObjects mapObjects') :
    (isSuperblockTriggered cs cx mapTrigger mapObjects' nBlockHeight).1 =
      (isSuperblockTriggered cs cx mapTrigger mapObjects nBlockHeight).1 := by
  rw [Bool.eq_iff_iff, isSuperblockTriggered_iff, isSuperblockTriggered_iff, getActiveTriggers_congr h]
  simp only [h.funded]

/-! ## The best superblock -/

theorem better_eq_keepBetter (hheight : nBlockHeight = cs.nSuperblockCycle) :
    better cs mapObjects nBlockHeight = keepBetter (yesCount mapObjects) := by
  funext best sb
  unfold better keepBetter yesCount
  cases mapObjects[sb.nGovObjHash]? with
  | none => rfl
  | some o => simp [hheight]

theorem getBestSuperblock_congr (h : SameCount cx mapObjects mapObjects') :
    getBestSuperblock cs mapTrigger mapObjects' nBlockHeight = getBestSuperblock cs mapTrigger mapObjects nBlockHeight := by
  have hactive : getActiveTriggers mapTrigger mapObjects' = getActiveTriggers mapTrigger mapObjects := getActiveTriggers_congr h
  have hbetter : better cs mapObjects' nBlockHeight = better cs mapObjects nBlockHeight := by
    by_cases hheight : nBlockHeight = cs.nSuperblockCycle
    · rw [better_eq_keepBetter hheight, better_eq_keepBetter hheight, funext h.yes]
    · funext best sb
      unfold better
      cases mapObjects'[sb.nGovObjHash]? <;> cases mapObjects[sb.nGovObjHash]? <;> simp [hheight]
  simp only [getBestSuperblock, hactive, hbetter]

def IsTrigger (mapTrigger : Triggers) (mapObjects : Objects) (sb : CSuperblock) (o : CGovernanceObject) : Prop :=
  sb ∈ getActiveTriggers mapTrigger mapObjects ∧ mapObjects[sb.nGovObjHash]? = some o

def IsBest (mapTrigger : Triggers) (mapObjects : Objects) (o : CGovernanceObject) : Prop :=
  ∀ sb' o', IsTrigger mapTrigger mapObjects sb' o' →
    o'.getAbsoluteYesCount voteSignalFunding ≤ o.getAbsoluteYesCount voteSignalFunding

theorem getBestSuperblock_spec (hvalid : isValidBlockHeight cs nBlockHeight = true) (hheight : nBlockHeight = cs.nSuperblockCycle)
    (htrigger : IsTrigger mapTrigger mapObjects sb o) (hpos : 0 < o.getAbsoluteYesCount voteSignalFunding) :
    ∃ sb' o', getBestSuperblock cs mapTrigger mapObjects nBlockHeight = some sb' ∧ IsTrigger mapTrigger mapObjects sb' o' ∧
      IsBest mapTrigger mapObjects o' := by
  have hyes {sb o} (h : IsTrigger mapTrigger mapObjects sb o) :
      yesCount mapObjects sb = some (o.getAbsoluteYesCount voteSignalFunding) := by simp [yesCount, h.2]
  unfold getBestSuperblock
  rw [better_eq_keepBetter hheight]
  have hle {sb o} (h : IsTrigger mapTrigger mapObjects sb o) := foldl_keepBetter_le (none, 0) h.1 (hyes h)
  rcases foldl_keepBetter_cases (yesCount mapObjects) (none, 0) (getActiveTriggers mapTrigger mapObjects) with
    hstart | ⟨sb', hsb', n, hn, heq⟩
  · have hbad := hle htrigger
    rw [hstart] at hbad
    exact absurd hbad (not_le.2 hpos)
  · obtain ⟨o', ho', hcount⟩ := Option.map_eq_some_iff.1 hn
    have hn_pos : 0 < n := by
      have h := hle htrigger
      rw [heq] at h
      exact hpos.trans_le h
    refine ⟨sb', o', ?_, ⟨hsb', ho'⟩, fun sb'' o'' h'' => ?_⟩
    · simp [hvalid, heq, hn_pos]
    · have h := hle h''
      rw [heq] at h
      exact hcount ▸ h

/-! ## A triggered height has a best superblock -/

/-- What `UpdateSentinelVariables` reads on a network. -/
def sentinelContext (net : Network) (countEnabled : Nat) (adjustedTime : Int) : SentinelContext :=
  ⟨net.params.nGovernanceMinQuorum, countEnabled, adjustedTime⟩

theorem fundingQuorum_pos (net : Network) (countEnabled : Nat) (adjustedTime : Int) :
    0 < (sentinelContext net countEnabled adjustedTime).fundingQuorum :=
  lt_max_of_lt_left net.nGovernanceMinQuorum_pos

/-- Where the height is triggered, the best superblock of the state left behind is a trigger
of the height with the most yes votes, and with the funding quorum. -/
def TriggeredHasBest (cs : ConsensusParams) (cx : SentinelContext) (mapTrigger : Triggers) (mapObjects : Objects)
    (nBlockHeight : Int) : Prop :=
  (isSuperblockTriggered cs cx mapTrigger mapObjects nBlockHeight).1 = true →
    ∃ sb o, getBestSuperblock cs mapTrigger (isSuperblockTriggered cs cx mapTrigger mapObjects nBlockHeight).2 nBlockHeight = some sb ∧
      IsTrigger mapTrigger mapObjects sb o ∧ IsBest mapTrigger mapObjects o ∧
      cx.fundingQuorum ≤ o.getAbsoluteYesCount voteSignalFunding

/-- Some masternode is enabled, or nothing is triggered by a flag, or the votes still are there. -/
def FlagsCurrent (cs : ConsensusParams) (cx : SentinelContext) (mapTrigger : Triggers) (mapObjects : Objects)
    (nBlockHeight : Int) : Prop :=
  cx.countEnabled ≠ 0 ∨ ¬ (isValidBlockHeight cs nBlockHeight = true ∧ nBlockHeight = cs.nSuperblockCycle) ∨
  (∀ sb o, IsTrigger mapTrigger mapObjects sb o → o.fCachedFunding = false) ∨
  ∃ sb o, IsTrigger mapTrigger mapObjects sb o ∧ cx.fundingQuorum ≤ o.getAbsoluteYesCount voteSignalFunding

theorem funded_iff : funded cx mapObjects sb = true ↔ ∃ o, mapObjects[sb.nGovObjHash]? = some o ∧
    (cx.update o).fCachedFunding = true := by
  simp [funded, Option.any_eq_true]

/-- A trigger with the quorum is enough: the best one has at least its votes. -/
theorem hasBest_of_quorum (hvalid : isValidBlockHeight cs nBlockHeight = true) (hheight : nBlockHeight = cs.nSuperblockCycle)
    (hquorum : 0 < cx.fundingQuorum) (htrigger : IsTrigger mapTrigger mapObjects sb o)
    (hyes : cx.fundingQuorum ≤ o.getAbsoluteYesCount voteSignalFunding) :
    TriggeredHasBest cs cx mapTrigger mapObjects nBlockHeight := by
  intro _
  obtain ⟨sb', o', hbest, htrigger', hmost⟩ := getBestSuperblock_spec hvalid hheight htrigger (hquorum.trans_le hyes)
  refine ⟨sb', o', ?_, htrigger', hmost, hyes.trans (hmost sb o htrigger)⟩
  have hsame : SameCount cx mapObjects (isSuperblockTriggered cs cx mapTrigger mapObjects nBlockHeight).2 :=
    isSuperblockTriggered_sameCount
  rw [getBestSuperblock_congr hsame, hbest]

end CSuperblockManager

theorem triggered_has_best_iff (net : Network) (countEnabled : Nat) (adjustedTime : Int) (mapTrigger : Triggers)
    (mapObjects : Objects) (nBlockHeight : Int) :
    TriggeredHasBest net.params (sentinelContext net countEnabled adjustedTime) mapTrigger mapObjects nBlockHeight ↔
      FlagsCurrent net.params (sentinelContext net countEnabled adjustedTime) mapTrigger mapObjects nBlockHeight := by
  have hquorum := fundingQuorum_pos net countEnabled adjustedTime
  generalize hcx : sentinelContext net countEnabled adjustedTime = cx at hquorum ⊢
  by_cases htrig : (isSuperblockTriggered net.params cx mapTrigger mapObjects nBlockHeight).1 = true
  · obtain ⟨hvalid, hheight, sb, hactive, hfund⟩ := isSuperblockTriggered_iff.1 htrig
    obtain ⟨o, ho, hflag⟩ := funded_iff.1 hfund
    rw [update_fCachedFunding] at hflag
    constructor
    · intro h
      obtain ⟨sb', o', -, htrigger, -, hyes⟩ := h htrig
      exact .inr (.inr (.inr ⟨sb', o', htrigger, hyes⟩))
    · intro hboth
      rcases hboth with hcount | hnot | hclear | ⟨sb', o', htrigger, hyes⟩
      · rw [if_neg hcount, decide_eq_true_eq] at hflag
        exact hasBest_of_quorum hvalid hheight hquorum ⟨hactive, ho⟩ hflag
      · exact absurd ⟨hvalid, hheight⟩ hnot
      · by_cases hcount : cx.countEnabled = 0
        · rw [if_pos hcount, hclear sb o ⟨hactive, ho⟩] at hflag
          cases hflag
        · rw [if_neg hcount, decide_eq_true_eq] at hflag
          exact hasBest_of_quorum hvalid hheight hquorum ⟨hactive, ho⟩ hflag
      · exact hasBest_of_quorum hvalid hheight hquorum htrigger hyes
  · refine ⟨fun _ => ?_, fun _ h => absurd h htrig⟩
    by_cases hcount : cx.countEnabled = 0
    · by_cases hheight : isValidBlockHeight net.params nBlockHeight = true ∧ nBlockHeight = net.params.nSuperblockCycle
      · refine .inr (.inr (.inl fun sb o htrigger => ?_))
        -- a flag that is set would have triggered the height
        by_contra hflag
        rw [Bool.not_eq_false] at hflag
        have hfund : (cx.update o).fCachedFunding = true := by rw [update_fCachedFunding, if_pos hcount, hflag]
        exact htrig (isSuperblockTriggered_iff.2 ⟨hheight.1, hheight.2, sb, htrigger.1, funded_iff.2 ⟨o, htrigger.2, hfund⟩⟩)
      · exact .inr (.inl hheight)
    · exact .inl hcount

/-! ## A flag that is left behind -/

/-- The only masternode's vote funds trigger 9; then its outpoint is spent and its votes are cleared. -/
def loseTrigger9 : List (Env × Event) :=
  fundTrigger9 ++ [({ network with nGovernanceMinQuorum := 1, countEnabled := 1 }, .doMaintenance),
    ({ network with isOutpointSpent := fun o => o == ⟨7, 1⟩ }, .removeSpent),
    ({ network with nGovernanceMinQuorum := 1, countEnabled := 0 }, .notifyMasternodeUpdates)]

def unfundedObjects : Objects := (loseTrigger9.foldl (next smallHash) .init).governance.mapObjects

theorem stale_flag_triggers :
    run (step smallHash) .init loseTrigger9 = some (loseTrigger9.foldl (next smallHash) .init) ∧
    (isSuperblockTriggered Network.test.params (sentinelContext .test 0 100000) (trigger9Map 0 rfl) unfundedObjects 24).1 = true ∧
    getBestSuperblock Network.test.params (trigger9Map 0 rfl) unfundedObjects 24 = none ∧
    ¬ TriggeredHasBest Network.test.params (sentinelContext .test 0 100000) (trigger9Map 0 rfl) unfundedObjects 24 := by
  have htrig : (isSuperblockTriggered Network.test.params (sentinelContext .test 0 100000) (trigger9Map 0 rfl)
      unfundedObjects 24).1 = true := by decide
  have hbest : getBestSuperblock Network.test.params (trigger9Map 0 rfl) unfundedObjects 24 = none := by decide
  refine ⟨rfl, htrig, hbest, fun h => ?_⟩
  obtain ⟨sb, o, hsome, -⟩ := h htrig
  rw [getBestSuperblock_congr isSuperblockTriggered_sameCount, hbest] at hsome
  cases hsome

end Zumy.Governance
