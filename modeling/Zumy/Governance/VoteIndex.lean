/-
  Zumy.Governance.VoteIndex — a masternode's number leads to its last votes.

  `VotesRecorded`: the record at the number that `GetMasternodeIndex` answers is the
  masternode's last vote.

  - `last_vote_recorded`: in a run whose events are `RecordsSafe` the votes are recorded,
    and a migration forgets no vote of a listed masternode.
  - `clearing_drops_listed_vote`: as built, a clearing while the migration is due looks
    the numbers of the old index up in the new one, which is shorter; the masternode that
    was numbered last loses its vote because another one has left.
-/
import Zumy.Governance.Recorded

namespace Zumy.Governance

open Lib Container Masternode Relation

/-- What `GetMasternodeIndex` answers for a masternode is the number of its last votes. -/
def VotesRecorded (s : Node) : Prop :=
  ∀ (vin : CTxIn) (nHash : Uint256) (o : CGovernanceObject) (eSignal : Nat),
    (getMasternodeIndex s vin).2.governance.mapObjects[nHash]? = some o →
      Records (o.instanceAt (getMasternodeIndex s vin).1 eSignal) (lastVote nHash vin eSignal (getMasternodeIndex s vin).2.log)

/-- Asking for a number, migration included, forgets no vote of a listed masternode. -/
def ListedVotesKept (s : Node) : Prop :=
  ∀ vin, s.mnodeman.has vin = true → ∀ (nHash : Uint256) (eSignal : Nat),
    lastVote nHash vin eSignal (getMasternodeIndex s vin).2.log = lastVote nHash vin eSignal s.log

variable {voteHash : CGovernanceVote → Uint256} {s s' : Node}

/-! ## The invariant -/

structure Inv (s : Node) : Prop where
  index : s.mnodeman.indexMasternodes.Valid
  old : s.mnodeman.indexMasternodesOld.Valid
  listed : ∀ vin, s.mnodeman.has vin = true → s.mnodeman.indexMasternodes.mapIndex[vin]?.isSome
  orphans : OrphansEmpty s
  recorded : ∀ (nHash : Uint256) o, s.governance.mapObjects[nHash]? = some o → Recorded (recordIndex s.mnodeman) s.log nHash o

theorem init_inv : Inv .init where
  index := CMasternodeIndex.empty_valid
  old := CMasternodeIndex.empty_valid
  listed vin h := by cases h
  orphans nHash it h := by simp [Node.init, CGovernanceManager.init] at h
  recorded nHash o h := by simp [Node.init, CGovernanceManager.init] at h

theorem Inv.recordIndex_valid (hs : Inv s) : (recordIndex s.mnodeman).Valid := by
  unfold recordIndex
  split
  · exact hs.old
  · exact hs.index

theorem Same.inv (h : Same s s') (hs : Inv s) : Inv s' where
  index := by rw [h.index]; exact hs.index
  old := by rw [h.old]; exact hs.old
  listed vin hvin := by rw [h.index]; exact hs.listed vin (h.listed vin hvin)
  orphans nHash it hit := by
    rcases h.orphans nHash it hit with hit | hnew
    · exact hs.orphans nHash it hit
    · exact hnew
  recorded nHash o' ho' := by
    obtain ⟨o, ho, hrec⟩ := h.stored nHash o' ho'
    have hx : recordIndex s'.mnodeman = recordIndex s.mnodeman := by unfold recordIndex; rw [h.index, h.old, h.rebuilt]
    rw [hx, h.log]
    exact (hs.recorded nHash o ho).of_records hrec

/-- One step of the argument: each move keeps the votes where their masternode's number is. -/
theorem move_inv (hs : Inv s) (h : Move voteHash s s') : Inv s' := by
  cases h with
  | same h => exact h.inv hs
  | store govobj hnew hnone =>
    refine ⟨hs.index, hs.old, hs.listed, hs.orphans, fun n o ho => ?_⟩
    have ho : (s.governance.mapObjects.insertIfNew govobj.hash govobj)[n]? = some o := ho
    rcases of_lookup_insertIfNew ho with ⟨rfl, rfl⟩ | ho
    · exact .inserted hnew
    · apply (hs.recorded n o ho).of_log
      intro vin sig
      have hn : govobj.hash ≠ n := by
        rintro rfl
        rw [hnone] at ho
        cases ho
      exact if_neg hn
  | vote cx nHash o vote hflag ho =>
    have hx : recordIndex s.mnodeman = s.mnodeman.indexMasternodes := by simp [recordIndex, hflag]
    refine ⟨hs.index, hs.old, hs.listed, hs.orphans, fun n o' ho' => ?_⟩
    simp only [putVoted, Node.putObjects, lookup_insert] at ho' ⊢
    split at ho'
    · rename_i hn
      cases ho'
      rw [hn, hx]
      exact (hx ▸ hs.recorded nHash o ho).vote hs.index cx vote
    · rename_i hn
      apply (hs.recorded n o' ho').of_log
      intro vin sig
      split
      · rw [lastVote, if_neg fun h => hn h.1.symm]
      · rfl
  | migrate hflag =>
    have hx : recordIndex s.mnodeman = s.mnodeman.indexMasternodesOld := by simp [recordIndex, hflag]
    refine ⟨hs.index, CMasternodeIndex.empty_valid, hs.listed, hs.orphans, fun n o' ho' => ?_⟩
    have ho' : (s.governance.mapObjects.map fun _ o => o.rebuildVoteMap s.mnodeman)[n]? = some o' := ho'
    rw [Std.TreeMap.getElem?_map] at ho'
    obtain ⟨o, ho, rfl⟩ := Option.map_eq_some_iff.1 ho'
    exact (hx ▸ hs.recorded n o ho).migrated hs.old hs.index
  | clear nHash hclear =>
    unfold clearDirtyObject
    split
    · exact hs
    rename_i o ho
    refine ⟨hs.index, hs.old, hs.listed, hs.orphans, fun n o' ho' => ?_⟩
    simp only [Node.putObjects, lookup_insert] at ho' ⊢
    split at ho'
    · rename_i hn
      cases ho'
      rw [hn]
      have hcleared : Recorded (recordIndex s.mnodeman) (.cleared nHash s.mnodeman.outpoints :: s.log) nHash
          (o.clearMasternodeVotes voteHash s.mnodeman) :=
        (hs.recorded nHash o ho).cleared hs.recordIndex_valid (hclear o ho)
      exact .of_records (o := o.clearMasternodeVotes voteHash s.mnodeman) rfl hcleared
    · rename_i hn
      apply (hs.recorded n o' ho').of_log
      intro vin sig
      rw [lastVote, if_neg fun h => hn h.1.symm]
  | rebuild now hneeds hagree =>
    have heq : s.mnodeman.checkAndRebuildMasternodeIndex now = { s.mnodeman with
        indexMasternodesOld := s.mnodeman.indexMasternodes
        indexMasternodes := CMasternodeMan.indexOf s.mnodeman.vMasternodes
        fIndexRebuilt := true
        nLastIndexRebuildTime := now } := by
      simp [CMasternodeMan.checkAndRebuildMasternodeIndex, hneeds]
    rw [heq]
    refine ⟨CMasternodeMan.indexOf_valid _, hs.index, fun vin hvin => ?_, hs.orphans, fun n o ho => ?_⟩
    · obtain ⟨mn, hmn, hp⟩ := List.mem_map.1 (CMasternodeMan.has_iff.1 hvin)
      rw [← CMasternodeIndex.mapIndex_congr hp]
      exact CMasternodeMan.indexOf_isSome hmn
    · exact (hs.recorded n o ho).rebuilt hs.recordIndex_valid hs.index (hagree n o ho)
  | add mn fReallocates =>
    unfold CMasternodeMan.add
    split
    · exact hs
    refine ⟨CMasternodeIndex.add_valid hs.index, hs.old, fun vin hvin => ?_, hs.orphans, fun n o ho => ?_⟩
    · have hin := CMasternodeMan.has_iff.1 hvin
      have hcases : vin.prevout ∈ s.mnodeman.outpoints ∨ mn.vin.prevout = vin.prevout := by
        cases fReallocates <;> simpa [CMasternodeMan.outpoints, CMasternode.copy, eq_comm] using hin
      rcases hcases with hbefore | hnew
      · exact CMasternodeIndex.mapIndex_add_isSome (hs.listed vin (CMasternodeMan.has_iff.2 hbefore))
      · rw [← CMasternodeIndex.mapIndex_congr hnew]
        exact CMasternodeIndex.mapIndex_add
    · cases hflag : s.mnodeman.fIndexRebuilt with
      | true =>
        have hrec := hs.recorded n o ho
        simpa [recordIndex, hflag] using hrec
      | false =>
        have hrec := hs.recorded n o ho
        simp only [recordIndex, hflag, Bool.false_eq_true, if_false] at hrec ⊢
        exact hrec.added hs.index _

theorem step_inv (ev : Env × Event) (hs : Inv s) (hok : RecordsSafe voteHash s ev) (h : step voteHash s ev = some s') : Inv s' :=
  chain_inv Inv (fun _ _ => move_inv) (step_moves ev hs.orphans hok h) hs

theorem Inv.votesRecorded (hs : Inv s) : VotesRecorded s := by
  have ht : Inv (useIndex s) := chain_inv Inv (fun _ _ => move_inv) (useIndex_moves fun _ => 0) hs
  have hx : recordIndex (useIndex s).mnodeman = (useIndex s).mnodeman.indexMasternodes := by
    simp [recordIndex, useIndex_migrated]
  intro vin nHash o sig ho
  have hrec := hx ▸ ht.recorded nHash o ho
  simp only [getMasternodeIndex, CMasternodeIndex.getMasternodeIndex]
  cases hi : (useIndex s).mnodeman.indexMasternodes.mapIndex[vin]? with
  | some i => exact hrec.voted vin i sig hi
  | none =>
    -- without a number the answer is -1, which no record has
    have hfree : o.mapCurrentMNVotes[(-1 : Int)]? = none := by
      by_contra hsome
      obtain ⟨w, hw⟩ := Option.isSome_iff_exists.1 (hrec.numbered (-1) (Option.ne_none_iff_isSome.1 hsome))
      have hge := (ht.index.bounded w (-1) (ht.index.indexed _ w hw)).1
      omega
    rw [hrec.unlisted vin sig hi, Option.getD_none, CGovernanceObject.instanceAt_eq_none hfree]
    exact .inl rfl

theorem Inv.listedVotesKept (hs : Inv s) : ListedVotesKept s := by
  intro vin hvin nHash sig
  simp only [getMasternodeIndex, useIndex]
  split
  · have hnum : s.mnodeman.indexMasternodes.mapIndex[vin]?.isNone = false := by
      simpa [Option.isSome_iff_ne_none] using hs.listed vin hvin
    simp [rebuildVoteMaps, lastVote, hnum]
  · rfl

theorem last_vote_recorded (voteHash : CGovernanceVote → Uint256) (es : List (Env × Event)) (s : Node)
    (hok : Meets (step voteHash) (RecordsSafe voteHash) .init es) (h : run (step voteHash) .init es = some s) :
    VotesRecorded s ∧ ListedVotesKept s := by
  have hs : Inv s := run_inv_of_meets Inv (fun t e t' ht he hstep => step_inv e ht he hstep) hok init_inv h
  exact ⟨hs.votesRecorded, hs.listedVotesKept⟩

def firstVoter : CMasternode := (CMasternode.mk (masternodeVin 0) [] ∅).addGovernanceVote 9

def firstVote : List (Env × Event) :=
  [(network, .updatedBlockTip 100), (network, .confirmInventoryRequest false 9),
   (network, .governanceObject 70000 9 governanceObjectProposal 99000 (masternodeVin 0) [] false),
   (network, .addMasternode ⟨masternodeVin 0, [], ∅⟩), (network, .ownVote (fundingVote 0 9))]

def firstVoted : Node := firstVote.foldl (next smallHash) .init

def firstSpent : Env := { network with countEnabled := 0, isOutpointSpent := fun outpoint => outpoint == (masternodeVin 0).prevout }

theorem run_step (s : Node) (es : List (Env × Event)) : run (step voteHash) s es = some (es.foldl (next voteHash) s) :=
  run_total (fun _ _ => rfl) s es

theorem meets_step_cons {ok : Node → Env × Event → Prop} {e : Env × Event} {es : List (Env × Event)} :
    Meets (step voteHash) ok s (e :: es) ↔ ok s e ∧ Meets (step voteHash) ok (next voteHash s e) es :=
  meets_cons_total fun _ _ => rfl

def firstLeaves : List (Env × Event) := firstVote ++ [(firstSpent, .removeSpent), (firstSpent, .notifyMasternodeUpdates)]

theorem last_vote_recorded_firstLeaves :
    VotesRecorded (firstLeaves.foldl (next smallHash) .init) ∧ ListedVotesKept (firstLeaves.foldl (next smallHash) .init) := by
  refine last_vote_recorded smallHash firstLeaves _ ?_ (run_step .init firstLeaves)
  simp only [firstLeaves, firstVote, List.cons_append, List.nil_append, meets_step_cons]
  exact ⟨trivial, trivial, trivial, trivial, trivial, trivial, fun _ _ _ o _ => clearsRight_of_migrated rfl o, trivial⟩

/-! ## A clearing while the migration is due -/

variable {nHash : Uint256} {o : CGovernanceObject}

theorem not_votesRecorded (hold : s.mnodeman.indexMasternodesOld.Valid) (hnew : s.mnodeman.indexMasternodes.Valid)
    (hflag : s.mnodeman.fIndexRebuilt = true) (ho : s.governance.mapObjects[nHash]? = some o)
    {vin : CTxIn} {i j : Int} (hi : s.mnodeman.indexMasternodesOld.mapIndex[vin]? = some i)
    (hj : s.mnodeman.indexMasternodes.mapIndex[vin]? = some j) (hgone : o.mapCurrentMNVotes[i]? = none) {sig : Nat}
    (hvote : (lastVote nHash vin sig s.log).isSome) : ¬ VotesRecorded s := by
  intro h
  have hstored : (getMasternodeIndex s vin).2.governance.mapObjects[nHash]? = some (o.rebuildVoteMap s.mnodeman) := by
    simp [getMasternodeIndex, useIndex, hflag, rebuildVoteMaps, ho]
  have hnum : (getMasternodeIndex s vin).1 = j := by
    simp [getMasternodeIndex, useIndex, hflag, rebuildVoteMaps, CMasternodeMan.clearOldMasternodeIndex,
      CMasternodeIndex.getMasternodeIndex, hj]
  have hlog : lastVote nHash vin sig (getMasternodeIndex s vin).2.log = lastVote nHash vin sig s.log := by
    simp [getMasternodeIndex, useIndex, hflag, rebuildVoteMaps, lastVote, hj]
  -- only the record at the old number could have moved to the new one
  have hnone : (o.rebuildVoteMap s.mnodeman).mapCurrentMNVotes[j]? = none := by
    obtain ⟨w, hw, hwp⟩ := hold.reversed vin i hi
    have hto : CGovernanceObject.movesTo s.mnodeman i = some j := by
      simp [CGovernanceObject.movesTo, hw, CMasternodeIndex.mapIndex_congr hwp, hj]
    apply Option.eq_none_iff_forall_not_mem.2
    intro r hr
    obtain ⟨i', hto', hr'⟩ := (CGovernanceObject.rebuildVoteMap_lookup hold hnew).1 hr
    rw [CGovernanceObject.movesTo_injective hold hnew hto' hto, hgone] at hr'
    cases hr'
  have hrec := h vin nHash _ sig hstored
  rw [hnum, CGovernanceObject.instanceAt_eq_none hnone, hlog] at hrec
  rw [records_none_left hrec] at hvote
  cases hvote

theorem setRateChecks_restored (hrate : s.governance.fRateChecksEnabled = true) :
    (s.setRateChecks false).setRateChecks true = s := by
  obtain ⟨g, m, log⟩ := s
  simp only [Node.setRateChecks]
  congr
  cases g
  simp_all

theorem checkMasternodeOrphanVotes_eq (hnone : ∀ (k : Uint256) o, s.governance.mapObjects[k]? = some o →
    o.mapOrphanVotes.listItems = [])
    (hrate : s.governance.fRateChecksEnabled = true) (env : Env) : checkMasternodeOrphanVotes voteHash env s = s := by
  have hturn (k : Uint256) : checkObjectOrphanVotes voteHash env (s.setRateChecks false) k = s.setRateChecks false := by
    unfold checkObjectOrphanVotes
    split
    · rfl
    · rename_i o ho
      rw [hnone k o ho]
      rfl
  unfold checkMasternodeOrphanVotes
  rw [List.foldl_fixed' hturn, setRateChecks_restored hrate]

theorem notifyAdded_eq (hobjects : s.governance.mapMasternodeOrphanObjects = ∅)
    (hnone : ∀ (k : Uint256) o, s.governance.mapObjects[k]? = some o → o.mapOrphanVotes.listItems = [])
    (hrate : s.governance.fRateChecksEnabled = true) (env : Env) : notifyAdded voteHash env s = s := by
  have hkept : checkMasternodeOrphanObjects env s = s := by
    unfold checkMasternodeOrphanObjects
    rw [hobjects]
    exact setRateChecks_restored hrate
  unfold notifyAdded
  rw [hkept, checkMasternodeOrphanVotes_eq hnone hrate, ite_self]

structure Kept (nHash : Uint256) (o : CGovernanceObject) (s t : Node) : Prop where
  stored : t.governance.mapObjects[nHash]? = some o
  old : t.mnodeman.indexMasternodesOld = s.mnodeman.indexMasternodesOld
  index : t.mnodeman.indexMasternodes = s.mnodeman.indexMasternodes
  flag : t.mnodeman.fIndexRebuilt = s.mnodeman.fIndexRebuilt
  log : t.log = s.log

theorem cleanObject_kept {env : Env} (hcount : env.countEnabled = 0) (hlive : (o.fCachedDelete || o.fExpired) = false) {t : Node}
    (h : Kept nHash o s t) (k : Uint256) : Kept nHash o s (cleanObject env t k) := by
  have hsame (p : CGovernanceObject) : (if p.fDirtyCache = true then
      p.updateSentinelVariables env.nGovernanceMinQuorum env.countEnabled env.adjustedTime else p) = p := by
    simp [CGovernanceObject.updateSentinelVariables, hcount]
  simp only [cleanObject]
  split
  · exact h
  rename_i p hp
  rw [hsame]
  by_cases hk : nHash = k
  · subst hk
    have hpo : p = o := Option.some.inj (hp.symm.trans h.stored)
    subst hpo
    rw [hlive, Bool.false_and, if_neg (by simp)]
    exact ⟨by simp [Node.withGovernance], h.old, h.index, h.flag, h.log⟩
  · have hput : (t.governance.mapObjects.insert k p)[nHash]? = some o := by rw [lookup_insert, if_neg hk, h.stored]
    split
    · exact ⟨by simp [eraseObject, Node.withGovernance, lookup_erase, hk, hput], h.old, h.index, h.flag, h.log⟩
    · exact ⟨hput, h.old, h.index, h.flag, h.log⟩

theorem updateCachesAndClean_kept {env : Env} (hcount : env.countEnabled = 0) (htriggers : env.outdatedTriggers = [])
    (hstored : (clearDirtyObjects voteHash env s).governance.mapObjects[nHash]? = some o)
    (hlive : (o.fCachedDelete || o.fExpired) = false) :
    Kept nHash o (clearDirtyObjects voteHash env s) (updateCachesAndClean voteHash env s) := by
  simp only [updateCachesAndClean, htriggers, List.foldl_nil]
  split
  · exact ⟨hstored, rfl, rfl, rfl, rfl⟩
  · have hstart : Kept nHash o (clearDirtyObjects voteHash env s) ((clearDirtyObjects voteHash env s).setRateChecks false) :=
      ⟨hstored, rfl, rfl, rfl, rfl⟩
    obtain ⟨h1, h2, h3, h4, h5⟩ := List.foldlRecOn (clearDirtyObjects voteHash env s).governance.mapObjects.keys (cleanObject env)
      hstart fun t ht k _ => cleanObject_kept hcount hlive ht k
    exact ⟨h1, h2, h3, h4, h5⟩

theorem clearDirtyObjects_eq (env : Env) (hwatch : s.governance.mapWatchdogObjects.size ≤ 1)
    (hdirty : s.mnodeman.vecDirtyGovernanceObjectHashes = [nHash]) : clearDirtyObjects voteHash env s =
      clearDirtyObject voteHash { s with mnodeman := { s.mnodeman with vecDirtyGovernanceObjectHashes := [] } } nHash := by
  have hexpire (m : CMasternodeMan) : expireWatchdogs env { s with mnodeman := m } = { s with mnodeman := m } := by
    unfold expireWatchdogs
    exact if_neg (by simpa using hwatch)
  simp only [clearDirtyObjects, hdirty, hexpire, List.foldl_cons, List.foldl_nil]

/-- A notification while the migration is due, where a number of a voter is another's in the
    new index, or nobody's. -/
theorem notification_drops {env : Env} (hcount : env.countEnabled = 0) (htriggers : env.outdatedTriggers = [])
    (hobjects : s.governance.mapMasternodeOrphanObjects = ∅)
    (hnone : ∀ (k : Uint256) o, s.governance.mapObjects[k]? = some o → o.mapOrphanVotes.listItems = [])
    (hrate : s.governance.fRateChecksEnabled = true) (hwatch : s.governance.mapWatchdogObjects.size ≤ 1)
    (hdirty : s.mnodeman.vecDirtyGovernanceObjectHashes = [nHash]) (hremoved : s.mnodeman.fMasternodesRemoved = true)
    (hold : s.mnodeman.indexMasternodesOld.Valid) (hnew : s.mnodeman.indexMasternodes.Valid)
    (hflag : s.mnodeman.fIndexRebuilt = true)
    (ho : s.governance.mapObjects[nHash]? = some o) (hlive : (o.fCachedDelete || o.fExpired) = false) {vin : CTxIn} {i j : Int}
    (hi : s.mnodeman.indexMasternodesOld.mapIndex[vin]? = some i) (hj : s.mnodeman.indexMasternodes.mapIndex[vin]? = some j)
    (hat : CGovernanceObject.listedAt s.mnodeman i = false) (hhas : s.mnodeman.has vin = true) {sig : Nat}
    (hvote : (lastVote nHash vin sig s.log).isSome) : ¬ VotesRecorded (notifyMasternodeUpdates voteHash env s) := by
  let m : CMasternodeMan := { s.mnodeman with vecDirtyGovernanceObjectHashes := [] }
  let p : CGovernanceObject := { o.clearMasternodeVotes voteHash m with fDirtyCache := true }
  have hclear : clearDirtyObjects voteHash env s =
      ⟨{ s.governance with mapObjects := s.governance.mapObjects.insert nHash p }, m, .cleared nHash m.outpoints :: s.log⟩ := by
    rw [clearDirtyObjects_eq env hwatch hdirty]
    simp [clearDirtyObject, ho, Node.putObjects, p, m]
  have hp : (p.fCachedDelete || p.fExpired) = false := by
    obtain ⟨hdelete, hexpired⟩ : p.fCachedDelete = o.fCachedDelete ∧ p.fExpired = o.fExpired :=
      CGovernanceObject.clearMasternodeVotes_live
    rwa [hdelete, hexpired]
  have hkept : Kept nHash p (clearDirtyObjects voteHash env s) (updateCachesAndClean voteHash env s) :=
    updateCachesAndClean_kept hcount htriggers (by rw [hclear]; simp) hp
  rw [hclear] at hkept
  have hgone : p.mapCurrentMNVotes[i]? = none := by
    have hlookup : p.mapCurrentMNVotes[i]? = if CGovernanceObject.listedAt s.mnodeman i then o.mapCurrentMNVotes[i]? else none :=
      CGovernanceObject.clearMasternodeVotes_lookup
    rw [hlookup, hat]
    rfl
  have hlast : (lastVote nHash vin sig (.cleared nHash m.outpoints :: s.log)).isSome := by
    have hin : vin.prevout ∈ m.outpoints := CMasternodeMan.has_iff.1 hhas
    simpa [lastVote, hin] using hvote
  simp only [notifyMasternodeUpdates, hremoved, if_true, notifyAdded_eq hobjects hnone hrate]
  refine not_votesRecorded (o := p) (i := i) (j := j) ?_ ?_ ?_ hkept.stored ?_ ?_ hgone (by rw [hkept.log]; exact hlast)
  · rw [hkept.old]; exact hold
  · rw [hkept.index]; exact hnew
  · rw [hkept.flag]; exact hflag
  · rw [hkept.old]; exact hi
  · rw [hkept.index]; exact hj

/-! ## A vote dropped -/

/-- Masternodes 1 to `n`. -/
def crowd (n : Nat) : List CMasternode := (List.range n).map fun k => ⟨masternodeVin (k + 1), [], ∅⟩

/-- They join, the last of them votes, and masternode 0 is spent: the events of one `CheckAndRemove`. -/
def lastVoteDropped (n : Nat) : List (Env × Event) :=
  firstVote ++ (crowd n).map (fun mn => (network, .addMasternode mn)) ++
    [(network, .ownVote (fundingVote n 9)), (firstSpent, .removeSpent), (firstSpent, .checkAndRebuildMasternodeIndex),
     (firstSpent, .notifyMasternodeUpdates)]

theorem crowd_joins (n : Nat) : ∃ x : CMasternodeIndex,
    ((crowd n).map fun mn => (network, Event.addMasternode mn)).foldl (next smallHash) firstVoted =
      { firstVoted with mnodeman := ⟨firstVoter :: crowd n, 0, x, .empty, false, true, false, []⟩ } ∧
    x.Valid ∧ x.nSize = n + 1 ∧ x.mapIndex[masternodeVin n]? = some (n : Int) ∧
      ∀ vin : CTxIn, x.mapIndex[vin]?.isSome → vin.prevout.n ≤ n := by
  induction n with
  | zero =>
    refine ⟨CMasternodeIndex.empty.addMasternodeVIN (masternodeVin 0), rfl,
      CMasternodeIndex.add_valid CMasternodeIndex.empty_valid,
      rfl, rfl, fun vin hvin => ?_⟩
    obtain ⟨i, hi⟩ := Option.isSome_iff_exists.1 hvin
    rcases CMasternodeIndex.mapIndex_add_eq_some hi with h | ⟨-, hp, -⟩
    · simp [CMasternodeIndex.empty] at h
    · rw [hp]; rfl
  | succ n ih =>
    obtain ⟨x, hrun, hx, hsize, -, hbelow⟩ := ih
    have hfree : x.mapIndex[masternodeVin (n + 1)]? = none := by
      by_contra hsome
      have hle : n + 1 ≤ n := hbelow _ (Option.ne_none_iff_isSome.1 hsome)
      omega
    have hadd : x.addMasternodeVIN (masternodeVin (n + 1)) = ⟨x.nSize + 1, x.mapIndex.insert (masternodeVin (n + 1)) x.nSize,
        x.mapReverseIndex.insert x.nSize (masternodeVin (n + 1))⟩ := by
      simp [CMasternodeIndex.addMasternodeVIN, hfree]
    have hfind : (firstVoter :: crowd n).find? (CMasternodeMan.isAt (masternodeVin (n + 1))) = none := by
      simp [CMasternodeMan.isAt, crowd, firstVoter, masternodeVin, CMasternode.addGovernanceVote]
      omega
    refine ⟨x.addMasternodeVIN (masternodeVin (n + 1)), ?_, CMasternodeIndex.add_valid hx, by rw [hadd]; push_cast; omega, ?_, fun vin hvin => ?_⟩
    · have hcrowd : crowd (n + 1) = crowd n ++ [⟨masternodeVin (n + 1), [], ∅⟩] := by simp [crowd, List.range_succ]
      rw [hcrowd, List.map_append, List.foldl_append, hrun]
      simp [next, CMasternodeMan.add, CMasternodeMan.find, hfind, network, CMasternode.copy]
    · rw [hadd]
      simp [hsize]
    · obtain ⟨i, hi⟩ := Option.isSome_iff_exists.1 hvin
      rcases CMasternodeIndex.mapIndex_add_eq_some hi with h | ⟨-, hp, -⟩
      · exact (hbelow vin (by rw [h]; rfl)).trans (by omega)
      · rw [hp]; rfl

theorem processVote_of_taken {env : Env} {vote : CGovernanceVote} {o' : CGovernanceObject}
    (hinvalid : s.governance.mapInvalidVotes.hasKey (voteHash vote) = false)
    (ho : s.governance.mapObjects[vote.nParentHash]? = some o) (hlive : (o.fCachedDelete || o.fExpired) = false)
    (hflag : s.mnodeman.fIndexRebuilt = false)
    (htaken : o.processVote voteHash (voteContext env s) (s.mnodeman.indexMasternodes.getMasternodeIndex vote.vinMasternode) vote =
      (.ok (), o')) :
    (processVote voteHash env s vote).2 =
      ⟨{ s.governance with
          mapObjects := s.governance.mapObjects.insert vote.nParentHash o'
          mapVoteToObject := s.governance.mapVoteToObject.insert (voteHash vote) vote.nParentHash },
       s.mnodeman.addGovernanceVote vote.vinMasternode vote.nParentHash, .accepted vote.nParentHash vote :: s.log⟩ := by
  have huse : useIndex s = s := by simp [useIndex, hflag]
  simp [processVote, processStoredVote, getMasternodeIndex, huse, hinvalid, ho, hlive, htaken, noteVote, Node.putObjects,
    Node.withGovernance]

theorem firstVoted_object : ∃ o, firstVoted.governance.mapObjects[9]? = some o ∧ o.mapCurrentMNVotes.keys = [0] ∧
    o.mapOrphanVotes.listItems = [] ∧ o.fCachedDelete = false ∧ o.fExpired = false :=
  ⟨(firstVoted.governance.mapObjects[9]?).get rfl, rfl, rfl, rfl, rfl, rfl⟩

theorem last_vote_taken (n : Nat) (hn : 0 < n) (x : CMasternodeIndex) (hnum : x.mapIndex[masternodeVin n]? = some (n : Int)) :
    ∃ (o : CGovernanceObject) (mapVoteToObject : CacheMap Uint256 Uint256) (rest : List CMasternode),
      next smallHash { firstVoted with mnodeman := ⟨firstVoter :: crowd n, 0, x, .empty, false, true, false, []⟩ }
        (network, .ownVote (fundingVote n 9)) =
        ⟨{ firstVoted.governance with
            mapObjects := firstVoted.governance.mapObjects.insert 9 o
            mapVoteToObject := mapVoteToObject },
         ⟨firstVoter :: rest, 0, x, .empty, false, true, false, []⟩, .accepted 9 (fundingVote n 9) :: firstVoted.log⟩ ∧
      o.mapOrphanVotes.listItems = [] ∧ o.fCachedDelete = false ∧ o.fExpired = false ∧
      rest.map (·.vin.prevout) = (crowd n).map (·.vin.prevout) := by
  obtain ⟨o, ho, hkeys, horph, hdelete, hexpired⟩ := firstVoted_object
  have hfree : o.mapCurrentMNVotes[(n : Int)]? = none := by
    rw [← contains_eq_false_iff, Bool.eq_false_iff, ne_eq, ← Std.TreeMap.mem_iff_contains, ← Std.TreeMap.mem_keys, hkeys]
    simp
    omega
  let m : CMasternodeMan := ⟨firstVoter :: crowd n, 0, x, .empty, false, true, false, []⟩
  have hhas : m.has (masternodeVin n) = true := by
    rw [CMasternodeMan.has_iff]
    refine List.mem_cons_of_mem _ (List.mem_map.2 ⟨⟨masternodeVin n, [], ∅⟩, List.mem_map.2 ⟨n - 1, ?_, ?_⟩, rfl⟩)
    · simp; omega
    · rw [Nat.sub_add_cancel hn]
  obtain ⟨mn, hmn⟩ := Option.isSome_iff_exists.1 hhas
  have hvalid : CGovernanceVote.isValid network.now m.masternodeInfo network.verifyMessage (fundingVote n 9) = true := by
    simp [CGovernanceVote.isValid, CMasternodeMan.masternodeInfo, fundingVote, hmn, network, maxSupportedVoteSignal,
      voteSignalEndorsed]
  have hnumber : m.indexMasternodes.getMasternodeIndex (masternodeVin n) = n := by
    simp [m, CMasternodeIndex.getMasternodeIndex, hnum]
  have hat : CMasternodeMan.isAt (masternodeVin n) firstVoter = false := by
    simp [CMasternodeMan.isAt, firstVoter, masternodeVin, CMasternode.addGovernanceVote]
    omega
  obtain ⟨rest, hfound, hrest⟩ := CMasternodeMan.modifyFound_cons (m := m) rfl hat (·.addGovernanceVote 9)
  obtain ⟨o', htaken, horph', hdelete', hexpired'⟩ : ∃ o', o.processVote smallHash (voteContext network { firstVoted with mnodeman := m })
      (m.indexMasternodes.getMasternodeIndex (masternodeVin n)) (fundingVote n 9) = (.ok (), o') ∧
      o'.mapOrphanVotes.listItems = [] ∧ o'.fCachedDelete = false ∧ o'.fExpired = false := by
    rw [hnumber]
    exact ⟨_, CGovernanceObject.processVote_taken (Int.natCast_nonneg n) hfree (show voteSignalFunding ≠ voteSignalNone by decide)
      (show voteSignalFunding ≤ maxSupportedVoteSignal by decide) (show (0 : Int) ≤ 99000 by decide) rfl hvalid,
      horph, hdelete, hexpired⟩
  have hlive : (o.fCachedDelete || o.fExpired) = false := by rw [hdelete, hexpired]; rfl
  have hadd : m.addGovernanceVote (masternodeVin n) 9 = _ := hfound
  have hnext : (processVote smallHash network { firstVoted with mnodeman := m } (fundingVote n 9)).2 = _ :=
    processVote_of_taken rfl ho hlive rfl htaken
  rw [show (fundingVote n 9).vinMasternode = masternodeVin n from rfl, show (fundingVote n 9).nParentHash = 9 from rfl,
    hadd] at hnext
  exact ⟨o', _, rest, hnext, horph', hdelete', hexpired', hrest fun mn => by unfold CMasternode.addGovernanceVote; split <;> rfl⟩

/-- The three parts of `CheckAndRemove` as the state is then: the list loses its first
    masternode and the new index has no number `n`. -/
theorem spent_and_rebuilt (n : Nat) (hn : 30000 ≤ n) (s : Node) (x : CMasternodeIndex) (hsize : x.nSize = n + 1)
    (rest : List CMasternode)
    (hrest : rest.map (·.vin.prevout) = (crowd n).map (·.vin.prevout))
    (hm : s.mnodeman = ⟨firstVoter :: rest, 0, x, .empty, false, true, false, []⟩) : ∃ left : List CMasternode,
      [(firstSpent, Event.removeSpent), (firstSpent, .checkAndRebuildMasternodeIndex)].foldl (next smallHash) s =
        { s with mnodeman := ⟨left, 100000, CMasternodeMan.indexOf left, x, true, true, true, [9]⟩ } ∧
      left.map (·.vin.prevout) = (crowd n).map (·.vin.prevout) := by
  have hunspent : ∀ outpoint ∈ (crowd n).map (·.vin.prevout), firstSpent.isOutpointSpent outpoint = false := by
    simp [crowd, firstSpent, masternodeVin]
  let left := (CMasternodeMan.eraseSpent firstSpent.isOutpointSpent true rest).1
  have hleft : left.map (·.vin.prevout) = (crowd n).map (·.vin.prevout) := by
    rw [CMasternodeMan.eraseSpent_outpoints, hrest, List.filter_eq_self]
    intro outpoint hin
    rw [hunspent outpoint hin]
    rfl
  have hlength : left.length = n := by
    have h := congrArg List.length hleft
    simpa [crowd] using h
  have hspent : s.mnodeman.removeSpent firstSpent.isOutpointSpent = ⟨left, 0, x, .empty, false, true, true, [9]⟩ := by
    have hdirty : (CMasternodeMan.eraseSpent firstSpent.isOutpointSpent true rest).2 = [] :=
      CMasternodeMan.eraseSpent_unspent (by rw [hrest]; exact hunspent) true
    have hfirst : firstSpent.isOutpointSpent firstVoter.vin.prevout = true := rfl
    have hkeys : firstVoter.mapGovernanceObjectsVotedOn.keys = [9] := rfl
    simp [hm, CMasternodeMan.removeSpent, CMasternodeMan.eraseSpent, hfirst, hdirty, hkeys, left]
  have hneeds : CMasternodeMan.needsRebuild ⟨left, 0, x, .empty, false, true, true, [9]⟩ firstSpent.now = true := by
    simp only [CMasternodeMan.needsRebuild, CMasternodeIndex.getSize, hsize, hlength]
    rw [if_neg (by decide), if_neg (by simp only [maxExpectedIndexSize]; omega), if_neg (by omega)]
  refine ⟨left, ?_, hleft⟩
  simp only [List.foldl_cons, List.foldl_nil, next, hspent, if_true, CMasternodeMan.checkAndRebuildMasternodeIndex, hneeds]
  rfl

/-- Of any `n + 1 > 30000` masternodes the last one stays in the list and loses its vote. -/
theorem last_vote_dropped (n : Nat) (hn : 30000 ≤ n) : ∃ s, run (step smallHash) .init (lastVoteDropped n) = some s ∧
    ¬ VotesRecorded s := by
  obtain ⟨x, hjoined, hx, hsize, hnum, -⟩ := crowd_joins n
  obtain ⟨o, mapVoteToObject, rest, hvoted, horph, hdelete, hexpired, hrest⟩ := last_vote_taken n (by omega) x hnum
  let g : CGovernanceManager := { firstVoted.governance with
    mapObjects := firstVoted.governance.mapObjects.insert 9 o
    mapVoteToObject := mapVoteToObject }
  let log : List VoteLog := .accepted 9 (fundingVote n 9) :: firstVoted.log
  obtain ⟨left, hrebuilt, hleft⟩ := spent_and_rebuilt n hn ⟨g,
    ⟨firstVoter :: rest, 0, x, .empty, false, true, false, []⟩, log⟩ x hsize
    rest hrest rfl
  let m : CMasternodeMan := ⟨left, 100000, CMasternodeMan.indexOf left, x, true, true, true, [9]⟩
  obtain ⟨mn, hmn, hmnvin⟩ : ∃ mn ∈ left, mn.vin.prevout = (masternodeVin n).prevout := by
    apply List.mem_map.1
    rw [hleft]
    exact List.mem_map.2 ⟨⟨masternodeVin n, [], ∅⟩, List.mem_map.2 ⟨n - 1, by simp; omega, by rw [Nat.sub_add_cancel (by omega)]⟩, rfl⟩
  obtain ⟨j, hj⟩ := Option.isSome_iff_exists.1 (CMasternodeMan.indexOf_isSome hmn)
  rw [CMasternodeIndex.mapIndex_congr hmnvin] at hj
  have hat : CGovernanceObject.listedAt m n = false := by
    have hget : m.indexMasternodes.get n = none := by
      by_contra hsome
      obtain ⟨w, hw⟩ := Option.ne_none_iff_exists'.1 hsome
      have hvalid := CMasternodeMan.indexOf_valid left
      have hlt := (hvalid.bounded w n (hvalid.indexed n w hw)).2
      have hle := CMasternodeMan.nSize_indexOf_le left
      have hlength := congrArg List.length hleft
      simp only [List.length_map, crowd, List.length_range] at hlength
      omega
    simp [CGovernanceObject.listedAt, hget]
  refine ⟨notifyMasternodeUpdates smallHash firstSpent ⟨g, m, log⟩, ?_, ?_⟩
  · have hall : lastVoteDropped n = firstVote ++ (((crowd n).map fun mn => (network, Event.addMasternode mn)) ++
        ([(network, .ownVote (fundingVote n 9))] ++ ([(firstSpent, .removeSpent), (firstSpent, .checkAndRebuildMasternodeIndex)] ++
          [(firstSpent, .notifyMasternodeUpdates)]))) := by simp [lastVoteDropped]
    rw [run_step, hall, List.foldl_append, List.foldl_append, List.foldl_append, List.foldl_append]
    have hlast : [(network, Event.ownVote (fundingVote n 9))].foldl (next smallHash) _ = _ := hvoted
    rw [show firstVote.foldl (next smallHash) .init = firstVoted from rfl, hjoined, hlast, hrebuilt]
    rfl
  · have hvote : (lastVote 9 (masternodeVin n) voteSignalFunding log).isSome := by
      simp [log, lastVote, fundingVote, CGovernanceVote.getSignal, voteSignalFunding]
    refine notification_drops (o := o) rfl rfl rfl (fun k p hp => ?_) rfl
      (show firstVoted.governance.mapWatchdogObjects.size ≤ 1 by decide) rfl rfl hx (CMasternodeMan.indexOf_valid left) rfl ?_
      (by rw [hdelete, hexpired]; rfl) hnum hj hat (CMasternodeMan.has_iff.2 (List.mem_map.2 ⟨mn, hmn, hmnvin⟩)) hvote
    · have hp : (firstVoted.governance.mapObjects.insert 9 o)[k]? = some p := hp
      rw [lookup_insert] at hp
      split at hp
      · cases hp
        exact horph
      · rename_i hk
        have hkey : k ∈ firstVoted.governance.mapObjects.keys :=
          Std.TreeMap.mem_keys.2 (Std.TreeMap.mem_iff_contains.2 (contains_iff.2 ⟨p, hp⟩))
        rw [show firstVoted.governance.mapObjects.keys = [9] from rfl, List.mem_singleton] at hkey
        exact absurd hkey hk
    · simp [g]

theorem clearing_drops_listed_vote : ∃ es s, run (step smallHash) .init es = some s ∧ ¬ VotesRecorded s :=
  ⟨lastVoteDropped 30000, last_vote_dropped 30000 le_rfl⟩

end Zumy.Governance
