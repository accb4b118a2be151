/-
  Zumy.Governance.Moves — the elementary changes of the vote records, and that every
  event is a chain of them.

  The records of an object are numbered by `recordIndex`: the masternode list's index, or
  the old one while the migration to a rebuilt index is due. `Move` says once what can
  happen to the records, the indexes and the log. Two of the moves carry a condition:

  - `ClearsRight`: `ClearMasternodeVotes` looks the numbers up in the new index; the
    masternodes it finds there are listed where those of the records are.
  - `NumbersAgree`: a rebuild makes the index it replaces the old one; the records'
    numbers mean in it what they meant.

  `step_moves`: an event that meets `RecordsSafe` is a chain of moves.
-/
import Zumy.Governance.Manager
import Zumy.Governance.Records

namespace Zumy.Governance

open Lib Container Masternode Relation

def recordIndex (m : CMasternodeMan) : CMasternodeIndex := if m.fIndexRebuilt then m.indexMasternodesOld else m.indexMasternodes

def ClearsRight (m : CMasternodeMan) (o : CGovernanceObject) : Prop :=
  ∀ i : Int, o.mapCurrentMNVotes[i]?.isSome → CGovernanceObject.listedAt m i = ((recordIndex m).get i).any m.has

def NumbersAgree (m : CMasternodeMan) (o : CGovernanceObject) : Prop :=
  ∀ i : Int, o.mapCurrentMNVotes[i]?.isSome → (m.indexMasternodes.get i).map (·.prevout) = ((recordIndex m).get i).map (·.prevout)

theorem clearsRight_of_migrated {m : CMasternodeMan} (h : m.fIndexRebuilt = false) (o : CGovernanceObject) : ClearsRight m o := by
  intro i _
  simp [recordIndex, h, CGovernanceObject.listedAt]

/-- The records, the indexes and the log are as they were; objects and masternodes may have left. -/
structure Same (s s' : Node) : Prop where
  stored : ∀ (nHash : Uint256) o', s'.governance.mapObjects[nHash]? = some o' →
    ∃ o, s.governance.mapObjects[nHash]? = some o ∧ o'.mapCurrentMNVotes = o.mapCurrentMNVotes
  orphans : ∀ (nHash : Uint256) it, s'.governance.mapMasternodeOrphanObjects[nHash]? = some it →
    s.governance.mapMasternodeOrphanObjects[nHash]? = some it ∨ it.1.mapCurrentMNVotes = ∅
  index : s'.mnodeman.indexMasternodes = s.mnodeman.indexMasternodes
  old : s'.mnodeman.indexMasternodesOld = s.mnodeman.indexMasternodesOld
  rebuilt : s'.mnodeman.fIndexRebuilt = s.mnodeman.fIndexRebuilt
  listed : ∀ vin, s'.mnodeman.has vin = true → s.mnodeman.has vin = true
  log : s'.log = s.log

/-- The object a vote was processed on goes back, and a vote taken into the log. -/
def putVoted (s : Node) (nHash : Uint256) (vote : CGovernanceVote) (r : Except VoteError Unit × CGovernanceObject) : Node :=
  { s.putObjects (s.governance.mapObjects.insert nHash r.2) with
    log := match r.1 with
      | .ok () => .accepted nHash vote :: s.log
      | .error _ => s.log }

inductive Move (voteHash : CGovernanceVote → Uint256) : Node → Node → Prop
  | same {s s' : Node} : Same s s' → Move voteHash s s'
  | store (s : Node) (govobj : CGovernanceObject) : govobj.mapCurrentMNVotes = ∅ → s.governance.mapObjects[govobj.hash]? = none →
      Move voteHash s (storeObject s govobj)
  | vote (s : Node) (cx : VoteContext) (nHash : Uint256) (o : CGovernanceObject) (vote : CGovernanceVote) :
      s.mnodeman.fIndexRebuilt = false → s.governance.mapObjects[nHash]? = some o →
      Move voteHash s (putVoted s nHash vote
        (o.processVote voteHash cx (s.mnodeman.indexMasternodes.getMasternodeIndex vote.vinMasternode) vote))
  | migrate (s : Node) : s.mnodeman.fIndexRebuilt = true → Move voteHash s (rebuildVoteMaps s)
  | clear (s : Node) (nHash : Uint256) :
      (∀ o, s.governance.mapObjects[nHash]? = some o → ClearsRight s.mnodeman o) →
        Move voteHash s (clearDirtyObject voteHash s nHash)
  | rebuild (s : Node) (now : Int) : s.mnodeman.needsRebuild now = true →
      (∀ (nHash : Uint256) o, s.governance.mapObjects[nHash]? = some o → NumbersAgree s.mnodeman o) →
      Move voteHash s { s with mnodeman := s.mnodeman.checkAndRebuildMasternodeIndex now }
  | add (s : Node) (mn : CMasternode) (fReallocates : Bool) : Move voteHash s { s with mnodeman := s.mnodeman.add mn fReallocates }

abbrev Chain (voteHash : CGovernanceVote → Uint256) : Node → Node → Prop := ReflTransGen (Move voteHash)

variable {voteHash : CGovernanceVote → Uint256} {env : Env} {s s' : Node} {nHash : Uint256}

/-! ## Changes that touch no record -/

theorem Same.of_objects (hobj : ∀ (nHash : Uint256) o', s'.governance.mapObjects[nHash]? = some o' →
      ∃ o, s.governance.mapObjects[nHash]? = some o ∧ o'.mapCurrentMNVotes = o.mapCurrentMNVotes)
    (horph : s'.governance.mapMasternodeOrphanObjects = s.governance.mapMasternodeOrphanObjects)
    (hm : s'.mnodeman = s.mnodeman) (hlog : s'.log = s.log) : Same s s' where
  stored := hobj
  orphans _ _ h := .inl (by rw [← horph]; exact h)
  index := by rw [hm]
  old := by rw [hm]
  rebuilt := by rw [hm]
  listed _ h := by rwa [hm] at h
  log := hlog

theorem Same.of_fields (hobj : s'.governance.mapObjects = s.governance.mapObjects)
    (horph : s'.governance.mapMasternodeOrphanObjects = s.governance.mapMasternodeOrphanObjects)
    (hm : s'.mnodeman = s.mnodeman) (hlog : s'.log = s.log) : Same s s' :=
  .of_objects (fun nHash o h => ⟨o, by rw [← hobj]; exact h, rfl⟩) horph hm hlog

theorem Same.refl : Same s s := .of_fields rfl rfl rfl rfl

theorem Same.of_mnodeman {m : CMasternodeMan} (hx : m.indexMasternodes = s.mnodeman.indexMasternodes)
    (hold : m.indexMasternodesOld = s.mnodeman.indexMasternodesOld) (hflag : m.fIndexRebuilt = s.mnodeman.fIndexRebuilt)
    (hout : ∀ outpoint ∈ m.outpoints, outpoint ∈ s.mnodeman.outpoints) : Same s { s with mnodeman := m } where
  stored _ o h := ⟨o, h, rfl⟩
  orphans _ _ h := .inl h
  index := hx
  old := hold
  rebuilt := hflag
  listed _ h := CMasternodeMan.has_iff.2 (hout _ (CMasternodeMan.has_iff.1 h))
  log := rfl

theorem Same.modify (nHash : Uint256) (f : CGovernanceObject → CGovernanceObject)
    (hf : ∀ o, (f o).mapCurrentMNVotes = o.mapCurrentMNVotes)
    (hobj : s'.governance.mapObjects = s.governance.mapObjects.modify nHash f)
    (horph : s'.governance.mapMasternodeOrphanObjects = s.governance.mapMasternodeOrphanObjects)
    (hm : s'.mnodeman = s.mnodeman) (hlog : s'.log = s.log) : Same s s' := by
  refine .of_objects (fun n o' h => ?_) horph hm hlog
  rw [hobj, lookup_modify] at h
  split at h
  · rename_i hn
    obtain ⟨o, ho, rfl⟩ := Option.map_eq_some_iff.1 h
    exact ⟨o, hn ▸ ho, hf o⟩
  · exact ⟨o', h, rfl⟩

theorem Chain.same (h : Same s s') : Chain voteHash s s' := .single (.same h)

theorem Chain.setRateChecks (b : Bool) : Chain voteHash s (s.setRateChecks b) := .same (.of_fields rfl rfl rfl rfl)

theorem Chain.foldl {α : Type*} {f : Node → α → Node} (hf : ∀ s a, Chain voteHash s (f s a)) (l : List α) (s : Node) :
    Chain voteHash s (l.foldl f s) :=
  List.foldlRecOn l f .refl fun t ht a _ => ht.trans (hf t a)

/-! ## Votes -/

variable (voteHash) in
theorem useIndex_moves : Chain voteHash s (useIndex s) := by
  unfold useIndex
  split
  · exact .single (.migrate s (by assumption))
  · exact .refl

theorem useIndex_migrated (s : Node) : (useIndex s).mnodeman.fIndexRebuilt = false := by
  unfold useIndex
  split
  · rfl
  · exact Bool.eq_false_iff.2 (by assumption)

theorem noteVote_same (voteHash : CGovernanceVote → Uint256) (s : Node) (vote : CGovernanceVote)
    (answer : Except VoteError Unit) : Same s (noteVote voteHash s vote answer) := by
  unfold noteVote
  split
  · have hfound : ∀ m : CMasternodeMan, (m.addGovernanceVote vote.vinMasternode vote.nParentHash).indexMasternodes =
      m.indexMasternodes ∧
        (m.addGovernanceVote vote.vinMasternode vote.nParentHash).indexMasternodesOld = m.indexMasternodesOld ∧
        (m.addGovernanceVote vote.vinMasternode vote.nParentHash).fIndexRebuilt = m.fIndexRebuilt := by
      intro m
      unfold CMasternodeMan.addGovernanceVote CMasternodeMan.modifyFound
      split <;> exact ⟨rfl, rfl, rfl⟩
    obtain ⟨hx, hold, hflag⟩ := hfound s.mnodeman
    refine .of_mnodeman hx hold hflag fun outpoint h => ?_
    rwa [CMasternodeMan.outpoints_addGovernanceVote] at h
  · exact .of_fields rfl rfl rfl rfl
  · exact .refl

theorem processVoteOn_moves (o : CGovernanceObject) (vote : CGovernanceVote) :
    Chain voteHash s (processVoteOn voteHash env s o vote).2.1 :=
  (useIndex_moves voteHash).trans (Chain.same (noteVote_same _ _ _ _))

theorem processStoredVote_moves (vote : CGovernanceVote) : Chain voteHash s (processStoredVote voteHash env s nHash vote).2 := by
  simp only [processStoredVote, getMasternodeIndex]
  split
  · exact useIndex_moves voteHash
  · rename_i o ho
    have hvote : Move voteHash (useIndex s) _ :=
      .vote (useIndex s) (voteContext env (useIndex s)) nHash o vote (useIndex_migrated s) ho
    generalize o.processVote voteHash (voteContext env (useIndex s)) _ vote = r at hvote ⊢
    have hvoted : Chain voteHash s _ := (useIndex_moves voteHash).tail hvote
    obtain ⟨e | ⟨⟨⟩⟩, o'⟩ := r
    · exact hvoted.trans (Chain.same (noteVote_same voteHash _ vote (.error e)))
    · exact hvoted.trans (Chain.same (noteVote_same voteHash _ vote (.ok ())))

theorem processVote_moves (vote : CGovernanceVote) : Chain voteHash s (processVote voteHash env s vote).2 := by
  simp only [processVote]
  split
  · exact .refl
  split
  · exact .same (.of_fields rfl rfl rfl rfl)
  split
  · exact .refl
  have hstored : Chain voteHash s (processStoredVote voteHash env s vote.nParentHash vote).2 := processStoredVote_moves vote
  split <;> rename_i heq <;> rw [heq] at hstored
  · exact hstored.trans (Chain.same (.of_fields rfl rfl rfl rfl))
  · exact hstored

theorem checkOrphanVotes_moves (govobj : CGovernanceObject) : Chain voteHash s (checkOrphanVotes voteHash env s govobj) := by
  have hturn (r : Node × CGovernanceObject) (p : VoteTimePair) :
      Chain voteHash r.1 (checkOrphanVote voteHash env govobj.hash r p).1 := by
    obtain ⟨t, o⟩ := r
    simp only [checkOrphanVote]
    split
    · exact .same (.of_fields rfl rfl rfl rfl)
    have hon : Chain voteHash t (processVoteOn voteHash env t o p.1).2.1 := processVoteOn_moves o p.1
    split <;> rename_i heq <;> rw [heq] at hon
    · exact hon.trans (Chain.same (.of_fields rfl rfl rfl rfl))
    · exact hon
  refine ReflTransGen.trans ?_ (Chain.setRateChecks true)
  exact List.foldlRecOn (motive := fun r : Node × CGovernanceObject => Chain voteHash s r.1) _ _ (Chain.setRateChecks false)
    fun r hr p _ => hr.trans (hturn r p)

/-! ## Objects -/

theorem updateCurrentWatchdog_same (govobj : CGovernanceObject) : Same s (updateCurrentWatchdog env s govobj).2 := by
  simp only [updateCurrentWatchdog]
  split
  · exact .modify s.governance.nHashWatchdogCurrent (expireObject env.now) (fun _ => rfl) rfl rfl rfl rfl
  · exact .refl

theorem addGovernanceObject_moves {govobj : CGovernanceObject} (hnew : govobj.mapCurrentMNVotes = ∅) :
    Chain voteHash s (addGovernanceObject env s govobj).2.2 := by
  rcases addGovernanceObject_cases env s govobj with ⟨-, hs⟩ | ⟨-, hnone, hs | hs⟩
  · rw [hs]
  · rw [hs]
    exact .single (.store s govobj hnew hnone)
  · rw [hs]
    have hsame : Same s (updateCurrentWatchdog env s govobj).2 := updateCurrentWatchdog_same govobj
    refine (Chain.same hsame).tail (.store _ govobj hnew ?_)
    cases h : (updateCurrentWatchdog env s govobj).2.governance.mapObjects[govobj.hash]? with
    | none => rfl
    | some o' =>
      obtain ⟨o, ho, -⟩ := hsame.stored _ _ h
      rw [hnone] at ho
      cases ho

theorem markSeen_same (status : Nat) : Same s (markSeen s nHash status) := .of_fields rfl rfl rfl rfl

theorem keepOrphanObject_same {govobj : CGovernanceObject} (hnew : govobj.mapCurrentMNVotes = ∅) :
    Same s (keepOrphanObject env s govobj) where
  stored _ o h := ⟨o, h, rfl⟩
  orphans nHash it h := by
    have h : (s.governance.mapMasternodeOrphanObjects.insertIfNew govobj.hash _)[nHash]? = some it := h
    rcases of_lookup_insertIfNew h with ⟨-, rfl⟩ | h
    · exact .inr hnew
    · exact .inl h
  index := rfl
  old := rfl
  rebuilt := rfl
  listed _ h := h
  log := rfl

theorem processNewObject_moves {govobj : CGovernanceObject} (hnew : govobj.mapCurrentMNVotes = ∅) :
    Chain voteHash s (processNewObject voteHash env s govobj).2 := by
  simp only [processNewObject]
  split
  · exact .refl
  have hkeep (b : Bool) : Chain voteHash s (if b = true then keepOrphanObject env s govobj else s) := by
    split
    · exact .same (keepOrphanObject_same hnew)
    · exact .refl
  have hmark (b : Bool) (t : Node) (h : Uint256) : Chain voteHash t (if b = true then markSeen t h seenObjectIsValid else t) := by
    split
    · exact .same (markSeen_same _)
    · exact .refl
  split
  · exact (hkeep _).trans (Chain.same (markSeen_same _))
  split
  · exact hkeep _
  · have hnew' : (govobj.updateSentinelVariables env.nGovernanceMinQuorum env.countEnabled env.adjustedTime).mapCurrentMNVotes = ∅ := by
      rw [(govobj.updateSentinelVariables_votes _ _ _).2.2, hnew]
    exact (((hkeep _).trans (addGovernanceObject_moves hnew')).trans (hmark _ _ _)).trans (checkOrphanVotes_moves _)

theorem processObjectMessage_moves (nVersion : Int) {govobj : CGovernanceObject} (hnew : govobj.mapCurrentMNVotes = ∅) :
    Chain voteHash s (processObjectMessage voteHash env s nVersion govobj).2 := by
  have htake : Chain voteHash s (takeObjectRequest s govobj.hash) := .same (.of_fields rfl rfl rfl rfl)
  unfold processObjectMessage
  split
  · exact .refl
  split
  · exact .refl
  split
  · exact htake
  · exact htake.trans (processNewObject_moves hnew)

theorem processVoteMessage_moves (nVersion : Int) (vote : CGovernanceVote) :
    Chain voteHash s (processVoteMessage voteHash env s nVersion vote) := by
  unfold processVoteMessage
  split
  · exact .refl
  split
  · exact .refl
  · have htake : Chain voteHash s (takeVoteRequest s (voteHash vote)) := .same (.of_fields rfl rfl rfl rfl)
    exact htake.trans (processVote_moves vote)

theorem confirmInventoryRequest_moves (fVote : Bool) : Chain voteHash s (confirmInventoryRequest s fVote nHash) := by
  simp only [confirmInventoryRequest]
  split
  · split
    · exact .refl
    · exact .same (.of_fields rfl rfl rfl rfl)
  · split
    · exact .refl
    · exact .same (.of_fields rfl rfl rfl rfl)

/-! ## Orphans of masternodes -/

theorem checkObjectOrphanVote_moves (nHash : Uint256) (s : Node) (it : ListNode CTxIn VoteTimePair) :
    Chain voteHash s (checkObjectOrphanVote voteHash env nHash s it) := by
  have hstored : Chain voteHash s (processStoredVote voteHash env s nHash it.item.value.1).2 := processStoredVote_moves _
  simp only [checkObjectOrphanVote]
  split
  · exact .refl
  split
  · exact hstored
  · refine hstored.trans (Chain.same ?_)
    exact .modify nHash (fun o => { o with mapOrphanVotes := o.mapOrphanVotes.erase it.item.key it.item.value })
      (fun _ => rfl) rfl rfl rfl rfl

theorem checkObjectOrphanVotes_moves (s : Node) (nHash : Uint256) :
    Chain voteHash s (checkObjectOrphanVotes voteHash env s nHash) := by
  unfold checkObjectOrphanVotes
  split
  · exact .refl
  · exact Chain.foldl (checkObjectOrphanVote_moves nHash) _ s

theorem checkMasternodeOrphanVotes_moves : Chain voteHash s (checkMasternodeOrphanVotes voteHash env s) :=
  (Chain.setRateChecks false).trans ((Chain.foldl checkObjectOrphanVotes_moves _ _).trans (Chain.setRateChecks true))

def OrphansEmpty (s : Node) : Prop :=
  ∀ (nHash : Uint256) it, s.governance.mapMasternodeOrphanObjects[nHash]? = some it → it.1.mapCurrentMNVotes = ∅

theorem eraseOrphanObject_same : Same s (eraseOrphanObject s nHash) where
  stored _ o h := ⟨o, h, rfl⟩
  orphans n it h := by
    have h : (s.governance.mapMasternodeOrphanObjects.erase nHash)[n]? = some it := h
    exact .inl (of_lookup_erase h)
  index := rfl
  old := rfl
  rebuilt := rfl
  listed _ h := h
  log := rfl

theorem checkMasternodeOrphanObject_moves (s : Node) {it : Uint256 × CGovernanceObject × Int}
    (hnew : it.2.1.mapCurrentMNVotes = ∅) :
    Chain voteHash s (checkMasternodeOrphanObject env s it) := by
  simp only [checkMasternodeOrphanObject]
  split
  · exact .same eraseOrphanObject_same
  split
  · split
    · exact .same eraseOrphanObject_same
    · exact .refl
  split
  · exact (addGovernanceObject_moves hnew).trans (Chain.same eraseOrphanObject_same)
  · exact addGovernanceObject_moves hnew

theorem checkMasternodeOrphanObjects_moves (hs : OrphansEmpty s) : Chain voteHash s (checkMasternodeOrphanObjects env s) := by
  refine ReflTransGen.trans ?_ (Chain.setRateChecks true)
  apply List.foldlRecOn (motive := Chain voteHash s) _ _ (Chain.setRateChecks false)
  intro t ht it hit
  have hempty : it.2.1.mapCurrentMNVotes = ∅ := hs it.1 it.2 (Std.TreeMap.mem_toList_iff_getElem?_eq_some.1 hit)
  exact ht.trans (checkMasternodeOrphanObject_moves t hempty)

/-! ## Cleaning -/

theorem putObject_same {o o' : CGovernanceObject} (ho : s.governance.mapObjects[nHash]? = some o)
    (hrec : o'.mapCurrentMNVotes = o.mapCurrentMNVotes)
    (hobj : s'.governance.mapObjects = s.governance.mapObjects.insert nHash o')
    (horph : s'.governance.mapMasternodeOrphanObjects = s.governance.mapMasternodeOrphanObjects)
    (hm : s'.mnodeman = s.mnodeman) (hlog : s'.log = s.log) : Same s s' := by
  refine .of_objects (fun n p h => ?_) horph hm hlog
  rw [hobj, lookup_insert] at h
  split at h
  · rename_i hn
    cases h
    exact ⟨o, hn ▸ ho, hrec⟩
  · exact ⟨p, h, rfl⟩

theorem eraseObject_same (o : CGovernanceObject) : Same s (eraseObject s nHash o) where
  stored n p h := by
    have h : (s.governance.mapObjects.erase nHash)[n]? = some p := h
    exact ⟨p, of_lookup_erase h, rfl⟩
  orphans _ _ h := .inl h
  index := rfl
  old := rfl
  rebuilt := rfl
  listed vin h := by
    have hout := CMasternodeMan.outpoints_removeGovernanceObject (m := s.mnodeman) o.hash
    rw [← CMasternodeMan.has_congr hout]
    exact h
  log := rfl

theorem cleanObject_moves (s : Node) (nHash : Uint256) : Chain voteHash s (cleanObject env s nHash) := by
  have hrec (o : CGovernanceObject) : (if o.fDirtyCache = true then
      o.updateSentinelVariables env.nGovernanceMinQuorum env.countEnabled env.adjustedTime else o).mapCurrentMNVotes =
        o.mapCurrentMNVotes := by
    split
    · exact (o.updateSentinelVariables_votes _ _ _).2.2
    · rfl
  simp only [cleanObject]
  split
  · exact .refl
  rename_i o ho
  have hp := hrec o
  generalize (if o.fDirtyCache = true then _ else o) = p at hp ⊢
  have hput : Same s (s.withGovernance { s.governance with
      mapObjects := s.governance.mapObjects.insert nHash p
      nHashWatchdogCurrent :=
        if p.fCachedDelete ∧ nHash = s.governance.nHashWatchdogCurrent then 0 else s.governance.nHashWatchdogCurrent }) :=
    putObject_same ho hp rfl rfl rfl rfl
  split
  · exact (Chain.same hput).trans (Chain.same (eraseObject_same _))
  · exact .same hput

def AllClearRight (s : Node) (hashes : List Uint256) : Prop :=
  ∀ nHash ∈ hashes, ∀ o, s.governance.mapObjects[nHash]? = some o → ClearsRight s.mnodeman o

theorem AllClearRight.of_records {hashes : List Uint256} (hm : s'.mnodeman = s.mnodeman)
    (hobj : ∀ (nHash : Uint256) o', s'.governance.mapObjects[nHash]? = some o' → ∃ o, s.governance.mapObjects[nHash]? = some o ∧
      ∀ i : Int, o'.mapCurrentMNVotes[i]?.isSome → o.mapCurrentMNVotes[i]?.isSome)
    (h : AllClearRight s hashes) : AllClearRight s' hashes := by
  intro nHash hin o' ho' i hi
  obtain ⟨o, ho, hrec⟩ := hobj nHash o' ho'
  rw [hm]
  exact h nHash hin o ho i (hrec i hi)

theorem clearDirtyObject_records (s : Node) (k nHash : Uint256) {o' : CGovernanceObject}
    (h : (clearDirtyObject voteHash s k).governance.mapObjects[nHash]? = some o') :
    ∃ o, s.governance.mapObjects[nHash]? = some o ∧
      ∀ i : Int, o'.mapCurrentMNVotes[i]?.isSome → o.mapCurrentMNVotes[i]?.isSome := by
  unfold clearDirtyObject at h
  split at h
  · exact ⟨o', h, fun _ => id⟩
  rename_i o ho
  simp only [Node.putObjects, lookup_insert] at h
  split at h
  · rename_i hn
    cases h
    refine ⟨o, hn ▸ ho, fun i hi => ?_⟩
    rw [CGovernanceObject.clearMasternodeVotes_lookup] at hi
    split at hi
    · exact hi
    · cases hi
  · exact ⟨o', h, fun _ => id⟩

theorem clearDirtyObject_mnodeman (s : Node) (k : Uint256) : (clearDirtyObject voteHash s k).mnodeman = s.mnodeman := by
  unfold clearDirtyObject
  split <;> rfl

theorem foldl_clearDirtyObject_moves (hashes : List Uint256) (hs : AllClearRight s hashes) :
    Chain voteHash s (hashes.foldl (clearDirtyObject voteHash) s) := by
  induction hashes generalizing s with
  | nil => exact .refl
  | cons k hashes ih =>
    have hrest : AllClearRight s hashes := fun n hn => hs n (by simp [hn])
    exact (ReflTransGen.single (.clear s k (hs k (by simp)))).trans
      (ih (hrest.of_records (clearDirtyObject_mnodeman s k) fun n _ => clearDirtyObject_records s k n))

theorem expireWatchdog_same (env : Env) (s : Node) (it : Uint256 × Int) :
    Same s (expireWatchdog env s it) ∧ (expireWatchdog env s it).mnodeman = s.mnodeman := by
  unfold expireWatchdog
  split
  · exact ⟨.modify it.1 (expireObject env.adjustedTime) (fun _ => rfl) rfl rfl rfl rfl, rfl⟩
  · exact ⟨.refl, rfl⟩

theorem Same.clearsRight {hashes : List Uint256} (h : Same s s') (hm : s'.mnodeman = s.mnodeman) (hs : AllClearRight s hashes) :
    AllClearRight s' hashes := by
  apply hs.of_records hm
  intro n o' ho'
  obtain ⟨o, ho, hrec⟩ := h.stored n o' ho'
  exact ⟨o, ho, fun i hi => by rwa [hrec] at hi⟩

theorem expireWatchdogs_moves (voteHash : CGovernanceVote → Uint256) (env : Env) {hashes : List Uint256}
    (hs : AllClearRight s hashes) :
    Chain voteHash s (expireWatchdogs env s) ∧ AllClearRight (expireWatchdogs env s) hashes := by
  unfold expireWatchdogs
  split
  · apply List.foldlRecOn (motive := fun t => Chain voteHash s t ∧ AllClearRight t hashes) _ _ ⟨.refl, hs⟩
    intro t ⟨hchain, hclear⟩ it _
    obtain ⟨hsame, hm⟩ := expireWatchdog_same env t it
    exact ⟨hchain.trans (Chain.same hsame), hsame.clearsRight hm hclear⟩
  · exact ⟨.refl, hs⟩

theorem clearDirtyObjects_moves (hs : AllClearRight s s.mnodeman.vecDirtyGovernanceObjectHashes) :
    Chain voteHash s (clearDirtyObjects voteHash env s) := by
  have hforget : Same s { s with mnodeman := { s.mnodeman with vecDirtyGovernanceObjectHashes := [] } } :=
    .of_mnodeman rfl rfl rfl fun _ h => h
  obtain ⟨hexpire, hclear⟩ := expireWatchdogs_moves voteHash env
    (s := { s with mnodeman := { s.mnodeman with vecDirtyGovernanceObjectHashes := [] } }) hs
  exact (Chain.same hforget).trans (hexpire.trans (foldl_clearDirtyObject_moves _ hclear))

theorem expireOutdated_eq (adjustedTime : Int) (o : CGovernanceObject) : expireOutdated adjustedTime o =
    { o with fExpired := (expireOutdated adjustedTime o).fExpired, nDeletionTime := (expireOutdated adjustedTime o).nDeletionTime } := by
  unfold expireOutdated
  split <;> rfl

theorem expireTrigger_moves (s : Node) (nHash : Uint256) : Chain voteHash s (expireTrigger env s nHash) := by
  have hrecords (o : CGovernanceObject) : (expireOutdated env.adjustedTime o).mapCurrentMNVotes = o.mapCurrentMNVotes := by
    rw [expireOutdated_eq]
  exact .same (.modify nHash (expireOutdated env.adjustedTime) hrecords rfl rfl rfl rfl)

theorem updateCachesAndClean_moves (hs : AllClearRight s s.mnodeman.vecDirtyGovernanceObjectHashes) :
    Chain voteHash s (updateCachesAndClean voteHash env s) := by
  have hclear : Chain voteHash s (clearDirtyObjects voteHash env s) := clearDirtyObjects_moves hs
  simp only [updateCachesAndClean]
  split
  · exact hclear
  · exact (((hclear.trans (Chain.setRateChecks false)).trans (Chain.foldl expireTrigger_moves _ _)).trans
      (Chain.foldl cleanObject_moves _ _)).trans (Chain.setRateChecks true)

theorem cleanOrphanObjects_eq (env : Env) (s : Node) : ∃ mapOrphanVotes, cleanOrphanObjects env s =
    s.withGovernance { s.governance with mapOrphanVotes := mapOrphanVotes } := by
  refine List.foldlRecOn (motive := fun t => ∃ mapOrphanVotes, t =
    s.withGovernance { s.governance with mapOrphanVotes := mapOrphanVotes }) _ _ ⟨_, rfl⟩ ?_
  rintro _ ⟨mapOrphanVotes, rfl⟩ it _
  exact ⟨_, rfl⟩

theorem doMaintenance_moves (hs : (env.fLiteMode || !env.synced || s.governance.pCurrentBlockIndex.isNone) = false →
    AllClearRight s s.mnodeman.vecDirtyGovernanceObjectHashes) : Chain voteHash s (doMaintenance voteHash env s) := by
  unfold doMaintenance
  split
  · exact .refl
  · rename_i hgo
    obtain ⟨mapOrphanVotes, heq⟩ := cleanOrphanObjects_eq env s
    rw [heq]
    have hsame : Same s (s.withGovernance { s.governance with mapOrphanVotes := mapOrphanVotes }) := .of_fields rfl rfl rfl rfl
    exact (Chain.same hsame).trans (updateCachesAndClean_moves (hs (Bool.eq_false_iff.2 hgo)))

theorem notifyAdded_moves (hs : OrphansEmpty s) : Chain voteHash s (notifyAdded voteHash env s) := by
  unfold notifyAdded
  split
  · exact (checkMasternodeOrphanObjects_moves hs).trans checkMasternodeOrphanVotes_moves
  · exact .refl

theorem notifyMasternodeUpdates_moves (hs : OrphansEmpty s) (hclear : s.mnodeman.fMasternodesRemoved = true →
    AllClearRight (notifyAdded voteHash env s) (notifyAdded voteHash env s).mnodeman.vecDirtyGovernanceObjectHashes) :
    Chain voteHash s (notifyMasternodeUpdates voteHash env s) := by
  have hflags (t : Node) : Chain voteHash t
      { t with mnodeman := { t.mnodeman with fMasternodesAdded := false, fMasternodesRemoved := false } } :=
    .same (.of_mnodeman rfl rfl rfl fun _ h => h)
  have hadded : Chain voteHash s (notifyAdded voteHash env s) := notifyAdded_moves hs
  simp only [notifyMasternodeUpdates]
  split
  · exact (hadded.trans (updateCachesAndClean_moves (hclear (by assumption)))).trans (hflags _)
  · exact hadded.trans (hflags _)

/-! ## Events -/

/-- The condition on an event: a clearing finds the right masternodes for the records of the
    dirty objects, and a rebuild leaves the records' numbers their meaning. -/
def RecordsSafe (voteHash : CGovernanceVote → Uint256) (s : Node) (ev : Env × Event) : Prop :=
  match ev.2 with
  | .doMaintenance => (ev.1.fLiteMode || !ev.1.synced || s.governance.pCurrentBlockIndex.isNone) = false →
      AllClearRight s s.mnodeman.vecDirtyGovernanceObjectHashes
  | .notifyMasternodeUpdates => s.mnodeman.fMasternodesRemoved = true →
      AllClearRight (notifyAdded voteHash ev.1 s) (notifyAdded voteHash ev.1 s).mnodeman.vecDirtyGovernanceObjectHashes
  | .checkAndRebuildMasternodeIndex => s.mnodeman.fMasternodesRemoved = true → s.mnodeman.needsRebuild ev.1.now = true →
      ∀ (nHash : Uint256) o, s.governance.mapObjects[nHash]? = some o → NumbersAgree s.mnodeman o
  | _ => True

theorem checkAndRebuild_moves (now : Int) (hs : s.mnodeman.needsRebuild now = true →
    ∀ (nHash : Uint256) o, s.governance.mapObjects[nHash]? = some o → NumbersAgree s.mnodeman o) :
    Chain voteHash s { s with mnodeman := s.mnodeman.checkAndRebuildMasternodeIndex now } := by
  cases hneeds : s.mnodeman.needsRebuild now with
  | true => exact .single (.rebuild s now hneeds (hs hneeds))
  | false =>
    have heq : s.mnodeman.checkAndRebuildMasternodeIndex now = s.mnodeman := by
      simp [CMasternodeMan.checkAndRebuildMasternodeIndex, hneeds]
    rw [heq]

theorem updateFromNewBroadcast_same (vin : CTxIn) (pubKey : CPubKey) :
    Same s { s with mnodeman := s.mnodeman.updateFromNewBroadcast vin pubKey } := by
  have hout : (s.mnodeman.updateFromNewBroadcast vin pubKey).outpoints = s.mnodeman.outpoints :=
    CMasternodeMan.outpoints_modifyFound fun _ => rfl
  have hfields : (s.mnodeman.updateFromNewBroadcast vin pubKey).indexMasternodes = s.mnodeman.indexMasternodes ∧
      (s.mnodeman.updateFromNewBroadcast vin pubKey).indexMasternodesOld = s.mnodeman.indexMasternodesOld ∧
      (s.mnodeman.updateFromNewBroadcast vin pubKey).fIndexRebuilt = s.mnodeman.fIndexRebuilt := by
    unfold CMasternodeMan.updateFromNewBroadcast CMasternodeMan.modifyFound
    split <;> exact ⟨rfl, rfl, rfl⟩
  exact .of_mnodeman hfields.1 hfields.2.1 hfields.2.2 fun _ h => by rwa [hout] at h

theorem step_moves (ev : Env × Event) (hs : OrphansEmpty s) (hok : RecordsSafe voteHash s ev) (h : step voteHash s ev = some s') :
    Chain voteHash s s' := by
  cases h
  obtain ⟨env, e⟩ := ev
  cases e with
  | governanceObject => exact processObjectMessage_moves _ rfl
  | governanceObjectVote => exact processVoteMessage_moves _ _
  | ownVote => exact processVote_moves _
  | confirmInventoryRequest => exact confirmInventoryRequest_moves _
  | doMaintenance => exact doMaintenance_moves hok
  | updatedBlockTip => exact .same (.of_fields rfl rfl rfl rfl)
  | addMasternode mn => exact .single (.add s mn _)
  | updateMasternode vin pubKey => exact .same (updateFromNewBroadcast_same vin pubKey)
  | removeSpent =>
    refine .same (.of_mnodeman rfl rfl rfl fun outpoint h => ?_)
    rw [CMasternodeMan.outpoints_removeSpent] at h
    exact (List.mem_filter.1 h).1
  | checkAndRebuildMasternodeIndex =>
    simp only [next]
    split
    · exact checkAndRebuild_moves _ (hok (by assumption))
    · exact .refl
  | notifyMasternodeUpdates => exact notifyMasternodeUpdates_moves hs hok

end Zumy.Governance
