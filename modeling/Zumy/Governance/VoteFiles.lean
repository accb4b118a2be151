/-
  Zumy.Governance.VoteFiles — the votes of the stored objects over the operations of the node:
  those in their files, those that wait there, and the instances that count.

  - `Keeps`: what every operation does that takes no vote, stores no object, and changes
    neither the masternodes nor their numbers: it drops votes, and the entries of
    `mapVoteToObject` of the objects that it erases.
  - `Stable`: what such operations, a migration and a new object keep, `processObjectMessage`
    and `checkMasternodeOrphanObjects` keep.
-/
import Zumy.Governance.Moves

namespace Zumy.Governance

open Lib Container Masternode

/-! ## What keeps the votes or drops them -/

structure KeepsVotes (o o' : CGovernanceObject) : Prop where
  hash : o'.hash = o.hash
  file : o'.fileVotes.listVotes ⊆ o.fileVotes.listVotes
  waiting : o'.mapOrphanVotes.listItems ⊆ o.mapOrphanVotes.listItems
  instances : ∀ i sig w, o'.instanceAt i sig = some w → o.instanceAt i sig = some w

structure NoVotes (o : CGovernanceObject) : Prop where
  file : o.fileVotes.listVotes = []
  waiting : o.mapOrphanVotes.listItems = []
  records : o.mapCurrentMNVotes = ∅

def KeyedByHash (s : Node) : Prop := ∀ (nHash : Uint256) o, s.governance.mapObjects[nHash]? = some o → o.hash = nHash

/-- The listed masternode has the object in `mapGovernanceObjectsVotedOn`. -/
def VotedOn (m : CMasternodeMan) (vin : CTxIn) (nHash : Uint256) : Prop :=
  ∃ mn, m.find vin = some mn ∧ mn.mapGovernanceObjectsVotedOn.contains nHash = true

structure SameIndex (m m' : CMasternodeMan) : Prop where
  index : m'.indexMasternodes = m.indexMasternodes
  old : m'.indexMasternodesOld = m.indexMasternodesOld
  migrated : m'.fIndexRebuilt = m.fIndexRebuilt
  info : m'.masternodeInfo = m.masternodeInfo
  outpoints : m'.outpoints = m.outpoints
  dirty : m'.vecDirtyGovernanceObjectHashes = m.vecDirtyGovernanceObjectHashes

structure Keeps (s s' : Node) : Prop where
  stored : ∀ (nHash : Uint256) o', s'.governance.mapObjects[nHash]? = some o' →
    ∃ o, s.governance.mapObjects[nHash]? = some o ∧ KeepsVotes o o'
  orphans : ∀ (nHash : Uint256) it, s'.governance.mapMasternodeOrphanObjects[nHash]? = some it →
    s.governance.mapMasternodeOrphanObjects[nHash]? = some it ∨ NoVotes it.1
  votes : s.governance.mapVoteToObject.Valid → s'.governance.mapVoteToObject.Valid ∧ ∀ nHashVote nHash,
    s'.governance.mapVoteToObject.get nHashVote = some nHash ↔ s.governance.mapVoteToObject.get nHashVote = some nHash ∧
      (s.governance.mapObjects[nHash]?.isSome → s'.governance.mapObjects[nHash]?.isSome)
  list : SameIndex s.mnodeman s'.mnodeman
  votedOn : KeyedByHash s → ∀ vin nHash, s'.governance.mapObjects[nHash]?.isSome → VotedOn s.mnodeman vin nHash →
    VotedOn s'.mnodeman vin nHash

variable {voteHash : CGovernanceVote → Uint256} {env : Env} {s s' s'' : Node} {nHash : Uint256} {o o' : CGovernanceObject}

theorem KeepsVotes.refl : KeepsVotes o o := ⟨rfl, List.Subset.refl _, List.Subset.refl _, fun _ _ _ => id⟩

theorem KeepsVotes.trans {o'' : CGovernanceObject} (h : KeepsVotes o o') (h' : KeepsVotes o' o'') : KeepsVotes o o'' where
  hash := h'.hash.trans h.hash
  file := List.Subset.trans h'.file h.file
  waiting := List.Subset.trans h'.waiting h.waiting
  instances i sig w hw := h.instances i sig w (h'.instances i sig w hw)

theorem KeepsVotes.of_eq (hhash : o'.hash = o.hash) (hfile : o'.fileVotes = o.fileVotes)
    (hwaiting : o'.mapOrphanVotes = o.mapOrphanVotes)
    (hrecords : o'.mapCurrentMNVotes = o.mapCurrentMNVotes) : KeepsVotes o o' where
  hash := hhash
  file := by rw [hfile]; exact List.Subset.refl _
  waiting := by rw [hwaiting]; exact List.Subset.refl _
  instances i sig w hw := by
    unfold CGovernanceObject.instanceAt at hw ⊢
    rwa [hrecords] at hw

theorem SameIndex.refl (m : CMasternodeMan) : SameIndex m m := ⟨rfl, rfl, rfl, rfl, rfl, rfl⟩

theorem SameIndex.trans {m m' m'' : CMasternodeMan} (h : SameIndex m m') (h' : SameIndex m' m'') : SameIndex m m'' :=
  ⟨h'.index.trans h.index, h'.old.trans h.old, h'.migrated.trans h.migrated, h'.info.trans h.info, h'.outpoints.trans h.outpoints,
    h'.dirty.trans h.dirty⟩

theorem Keeps.of_objects (hobj : ∀ (nHash : Uint256) o', s'.governance.mapObjects[nHash]? = some o' →
      ∃ o, s.governance.mapObjects[nHash]? = some o ∧ KeepsVotes o o')
    (hkept : ∀ nHash : Uint256, s.governance.mapObjects[nHash]?.isSome → s'.governance.mapObjects[nHash]?.isSome)
    (horph : s'.governance.mapMasternodeOrphanObjects = s.governance.mapMasternodeOrphanObjects)
    (hvotes : s'.governance.mapVoteToObject = s.governance.mapVoteToObject) (hm : s'.mnodeman = s.mnodeman) : Keeps s s' where
  stored := hobj
  orphans _ _ h := .inl (by rw [← horph]; exact h)
  votes h := by
    rw [hvotes]
    exact ⟨h, fun _ nHash => (and_iff_left (hkept nHash)).symm⟩
  list := by rw [hm]; exact .refl _
  votedOn _ _ _ _ h := by rw [hm]; exact h

theorem Keeps.of_fields (hobj : s'.governance.mapObjects = s.governance.mapObjects)
    (horph : s'.governance.mapMasternodeOrphanObjects = s.governance.mapMasternodeOrphanObjects)
    (hvotes : s'.governance.mapVoteToObject = s.governance.mapVoteToObject) (hm : s'.mnodeman = s.mnodeman) : Keeps s s' := by
  refine .of_objects (fun nHash o h => ⟨o, by rw [← hobj]; exact h, .refl⟩) (fun nHash h => ?_) horph hvotes hm
  rw [hobj]
  exact h

theorem Keeps.refl : Keeps s s := .of_fields rfl rfl rfl rfl

theorem Keeps.isSome (h : Keeps s s') (hsome : s'.governance.mapObjects[nHash]?.isSome) :
    s.governance.mapObjects[nHash]?.isSome := by
  obtain ⟨o', ho'⟩ := Option.isSome_iff_exists.1 hsome
  obtain ⟨o, ho, -⟩ := h.stored nHash o' ho'
  rw [ho]
  rfl

theorem Keeps.keyedByHash (h : Keeps s s') (hs : KeyedByHash s) : KeyedByHash s' := by
  intro n o' ho'
  obtain ⟨o, ho, hkeeps⟩ := h.stored n o' ho'
  rw [hkeeps.hash]
  exact hs n o ho

theorem Keeps.trans (h : Keeps s s') (h' : Keeps s' s'') : Keeps s s'' where
  stored nHash o'' ho'' := by
    obtain ⟨o', ho', hkeeps'⟩ := h'.stored nHash o'' ho''
    obtain ⟨o, ho, hkeeps⟩ := h.stored nHash o' ho'
    exact ⟨o, ho, hkeeps.trans hkeeps'⟩
  orphans nHash it hit := by
    rcases h'.orphans nHash it hit with hit | hit
    · exact h.orphans nHash it hit
    · exact .inr hit
  votes hvalid := by
    obtain ⟨hvalid', hget⟩ := h.votes hvalid
    obtain ⟨hvalid'', hget'⟩ := h'.votes hvalid'
    refine ⟨hvalid'', fun nHashVote nHash => ?_⟩
    rw [hget', hget]
    constructor
    · intro hboth
      obtain ⟨⟨hin, hkept⟩, hkept'⟩ := hboth
      exact ⟨hin, fun hsome => hkept' (hkept hsome)⟩
    · intro hboth
      obtain ⟨hin, hkept⟩ := hboth
      exact ⟨⟨hin, fun hsome => h'.isSome (hkept hsome)⟩, fun hsome => hkept (h.isSome hsome)⟩
  list := h.list.trans h'.list
  votedOn hkeyed vin nHash hsome hvoted :=
    h'.votedOn (h.keyedByHash hkeyed) vin nHash hsome (h.votedOn hkeyed vin nHash (h'.isSome hsome) hvoted)

theorem Keeps.foldl {α : Type*} {f : Node → α → Node} (hf : ∀ s a, Keeps s (f s a)) (l : List α) (s : Node) :
    Keeps s (l.foldl f s) :=
  List.foldlRecOn l f .refl fun t ht a _ => ht.trans (hf t a)

theorem Keeps.modify (nHash : Uint256) (f : CGovernanceObject → CGovernanceObject) (hf : ∀ o, KeepsVotes o (f o))
    (hobj : s'.governance.mapObjects = s.governance.mapObjects.modify nHash f)
    (horph : s'.governance.mapMasternodeOrphanObjects = s.governance.mapMasternodeOrphanObjects)
    (hvotes : s'.governance.mapVoteToObject = s.governance.mapVoteToObject) (hm : s'.mnodeman = s.mnodeman) : Keeps s s' := by
  refine .of_objects (fun n o' h => ?_) (fun n h => ?_) horph hvotes hm
  · rw [hobj, lookup_modify] at h
    split at h
    · rename_i hn
      obtain ⟨o, ho, rfl⟩ := Option.map_eq_some_iff.1 h
      exact ⟨o, hn ▸ ho, hf o⟩
    · exact ⟨o', h, .refl⟩
  · rw [hobj, lookup_modify]
    split
    · rename_i hn
      rw [Option.isSome_map, ← hn]
      exact h
    · exact h

theorem Keeps.put (ho : s.governance.mapObjects[nHash]? = some o) (hkeeps : KeepsVotes o o')
    (hobj : s'.governance.mapObjects = s.governance.mapObjects.insert nHash o')
    (horph : s'.governance.mapMasternodeOrphanObjects = s.governance.mapMasternodeOrphanObjects)
    (hvotes : s'.governance.mapVoteToObject = s.governance.mapVoteToObject) (hm : s'.mnodeman = s.mnodeman) : Keeps s s' := by
  refine .of_objects (fun n p h => ?_) (fun n h => ?_) horph hvotes hm
  · rw [hobj, lookup_insert] at h
    split at h
    · rename_i hn
      cases h
      exact ⟨o, hn ▸ ho, hkeeps⟩
    · exact ⟨p, h, .refl⟩
  · rw [hobj, lookup_insert]
    split
    · rfl
    · exact h

/-! ### The masternode list -/

theorem addGovernanceVote_fields (mn : CMasternode) (nHash : Uint256) : (mn.addGovernanceVote nHash).vin = mn.vin ∧
    (mn.addGovernanceVote nHash).pubKeyMasternode = mn.pubKeyMasternode := by
  unfold CMasternode.addGovernanceVote
  split <;> exact ⟨rfl, rfl⟩

theorem addGovernanceVote_sameIndex (m : CMasternodeMan) (vin : CTxIn) (nHash : Uint256) :
    SameIndex m (m.addGovernanceVote vin nHash) := by
  have hinfo : (m.addGovernanceVote vin nHash).masternodeInfo = m.masternodeInfo := by
    funext v
    unfold CMasternodeMan.masternodeInfo CMasternodeMan.addGovernanceVote
    rw [CMasternodeMan.find_modifyFound fun mn => (addGovernanceVote_fields mn nHash).1]
    split
    · rw [Option.map_map]
      exact congrArg (fun f => Option.map f _) (funext fun mn => (addGovernanceVote_fields mn nHash).2)
    · rfl
  have hfields : (m.addGovernanceVote vin nHash).indexMasternodes = m.indexMasternodes ∧
      (m.addGovernanceVote vin nHash).indexMasternodesOld = m.indexMasternodesOld ∧
      (m.addGovernanceVote vin nHash).fIndexRebuilt = m.fIndexRebuilt ∧
      (m.addGovernanceVote vin nHash).vecDirtyGovernanceObjectHashes = m.vecDirtyGovernanceObjectHashes := by
    unfold CMasternodeMan.addGovernanceVote CMasternodeMan.modifyFound
    split <;> exact ⟨rfl, rfl, rfl, rfl⟩
  obtain ⟨hindex, hold, hflag, hdirty⟩ := hfields
  exact ⟨hindex, hold, hflag, hinfo, CMasternodeMan.outpoints_addGovernanceVote nHash, hdirty⟩

theorem contains_addGovernanceVote (mn : CMasternode) (nHash n : Uint256) :
    (mn.addGovernanceVote nHash).mapGovernanceObjectsVotedOn.contains n = true ↔
      n = nHash ∨ mn.mapGovernanceObjectsVotedOn.contains n = true := by
  rw [contains_iff, contains_iff]
  unfold CMasternode.addGovernanceVote
  split
  · simp only [lookup_insert]
    split <;> simp [*]
  · rename_i hnone
    simp only [lookup_insertIfNew, hnone, and_true]
    split <;> simp [*]

theorem votedOn_addGovernanceVote {m : CMasternodeMan} {vin vin' : CTxIn} {n : Uint256}
    (h : VotedOn m vin' n ∨ (vin'.prevout = vin.prevout ∧ m.has vin = true ∧ n = nHash)) :
    VotedOn (m.addGovernanceVote vin nHash) vin' n := by
  unfold VotedOn CMasternodeMan.addGovernanceVote
  rw [CMasternodeMan.find_modifyFound fun mn => (addGovernanceVote_fields mn nHash).1]
  rcases h with ⟨mn, hmn, hin⟩ | ⟨hp, hhas, rfl⟩
  · rw [hmn]
    split
    · exact ⟨_, rfl, (contains_addGovernanceVote mn nHash n).2 (.inr hin)⟩
    · exact ⟨mn, rfl, hin⟩
  · have hfind : (m.find vin').isSome := by
      rw [CMasternodeMan.has_iff, ← hp, ← CMasternodeMan.has_iff] at hhas
      exact hhas
    obtain ⟨mn, hmn⟩ := Option.isSome_iff_exists.1 hfind
    rw [if_pos hp, hmn]
    exact ⟨_, rfl, (contains_addGovernanceVote mn n n).2 (.inl rfl)⟩

theorem removeGovernanceObject_find (m : CMasternodeMan) (nHash : Uint256) (vin : CTxIn) :
    (m.removeGovernanceObject nHash).find vin = (m.find vin).map (·.removeGovernanceObject nHash) := by
  unfold CMasternodeMan.find CMasternodeMan.removeGovernanceObject
  rw [List.find?_map]
  rfl

theorem removeGovernanceObject_sameIndex (m : CMasternodeMan) (nHash : Uint256) :
    SameIndex m (m.removeGovernanceObject nHash) := by
  refine ⟨rfl, rfl, rfl, funext fun vin => ?_, CMasternodeMan.outpoints_removeGovernanceObject nHash, rfl⟩
  unfold CMasternodeMan.masternodeInfo
  rw [removeGovernanceObject_find, Option.map_map]
  rfl

theorem votedOn_removeGovernanceObject {m : CMasternodeMan} {vin : CTxIn} {n : Uint256} (hn : n ≠ nHash) (h : VotedOn m vin n) :
    VotedOn (m.removeGovernanceObject nHash) vin n := by
  obtain ⟨mn, hmn, hin⟩ := h
  refine ⟨mn.removeGovernanceObject nHash, by rw [removeGovernanceObject_find, hmn, Option.map_some], ?_⟩
  rw [contains_iff] at hin ⊢
  obtain ⟨v, hv⟩ := hin
  exact ⟨v, by rw [CMasternode.removeGovernanceObject, lookup_erase, if_neg hn, hv]⟩

/-! ### Operations -/

theorem noteVote_keeps (s : Node) (vote : CGovernanceVote) (answer : Except VoteError Unit) :
    Keeps s (noteVote voteHash s vote answer) := by
  unfold noteVote
  split
  · refine ⟨fun _ o h => ⟨o, h, .refl⟩, fun _ _ h => .inl h, fun h => ⟨h, fun _ _ => (and_iff_left id).symm⟩,
      addGovernanceVote_sameIndex _ _ _, fun _ vin n _ h => votedOn_addGovernanceVote (.inl h)⟩
  · exact .of_fields rfl rfl rfl rfl
  · exact .refl

theorem expireObject_keeps (now : Int) (o : CGovernanceObject) : KeepsVotes o (expireObject now o) := .of_eq rfl rfl rfl rfl

theorem updateCurrentWatchdog_keeps (govobj : CGovernanceObject) : Keeps s (updateCurrentWatchdog env s govobj).2 := by
  simp only [updateCurrentWatchdog]
  split
  · exact .modify s.governance.nHashWatchdogCurrent (expireObject env.now) (expireObject_keeps _) rfl rfl rfl rfl
  · exact .refl

theorem keepOrphanObject_keeps {govobj : CGovernanceObject} (hnew : NoVotes govobj) :
    Keeps s (keepOrphanObject env s govobj) where
  stored _ o h := ⟨o, h, .refl⟩
  orphans nHash it h := by
    have h : (s.governance.mapMasternodeOrphanObjects.insertIfNew govobj.hash _)[nHash]? = some it := h
    rcases of_lookup_insertIfNew h with ⟨-, rfl⟩ | h
    · exact .inr hnew
    · exact .inl h
  votes h := ⟨h, fun _ _ => (and_iff_left id).symm⟩
  list := .refl _
  votedOn _ _ _ _ h := h

theorem eraseOrphanObject_keeps : Keeps s (eraseOrphanObject s nHash) where
  stored _ o h := ⟨o, h, .refl⟩
  orphans n it h := by
    have h : (s.governance.mapMasternodeOrphanObjects.erase nHash)[n]? = some it := h
    exact .inl (of_lookup_erase h)
  votes h := ⟨h, fun _ _ => (and_iff_left id).symm⟩
  list := .refl _
  votedOn _ _ _ _ h := h

theorem confirmInventoryRequest_keeps (fVote : Bool) : Keeps s (confirmInventoryRequest s fVote nHash) := by
  simp only [confirmInventoryRequest]
  split
  · split
    · exact .refl
    · exact .of_fields rfl rfl rfl rfl
  · split
    · exact .refl
    · exact .of_fields rfl rfl rfl rfl

/-! ### Cleaning -/

theorem eraseWaiting_keeps (s : Node) (nHash : Uint256) (key : CTxIn) (p : VoteTimePair) :
    Keeps s (s.putObjects (s.governance.mapObjects.modify nHash fun o =>
      { o with mapOrphanVotes := o.mapOrphanVotes.erase key p })) := by
  refine .modify nHash (fun o => { o with mapOrphanVotes := o.mapOrphanVotes.erase key p }) (fun o => ?_) rfl rfl rfl rfl
  exact ⟨rfl, List.Subset.refl _, fun _ hin => CacheMultiMap.mem_listItems_erase hin, fun _ _ _ => id⟩

theorem removeVotes_subset (f : CGovernanceObjectVoteFile) (vin : CTxIn) :
    (f.removeVotesFromMasternode voteHash vin).listVotes ⊆ f.listVotes := List.filter_subset_self _

theorem instanceAt_erase {i : Int} {sig : Nat} {w : VoteInstance} {k : Int}
    (hrecords : o'.mapCurrentMNVotes = o.mapCurrentMNVotes.erase k)
    (h : o'.instanceAt i sig = some w) : o.instanceAt i sig = some w := by
  unfold CGovernanceObject.instanceAt at h ⊢
  rw [hrecords, lookup_erase] at h
  split at h
  · cases h
  · exact h

theorem clearMasternodeVotes_keeps (mnodeman : CMasternodeMan) (o : CGovernanceObject) :
    KeepsVotes o (o.clearMasternodeVotes voteHash mnodeman) := by
  have hturn (p : CGovernanceObject) (it : Int × VoteRec) : KeepsVotes p (p.clearRec voteHash mnodeman it) := by
    unfold CGovernanceObject.clearRec
    split
    · split
      · exact .refl
      · exact ⟨rfl, removeVotes_subset _ _, List.Subset.refl _, fun _ _ _ => instanceAt_erase rfl⟩
    · exact ⟨rfl, List.Subset.refl _, List.Subset.refl _, fun _ _ _ => instanceAt_erase rfl⟩
  exact List.foldlRecOn (motive := KeepsVotes o) _ _ .refl fun p hp it _ => hp.trans (hturn p it)

theorem expireWatchdogs_keeps (env : Env) (s : Node) : Keeps s (expireWatchdogs env s) := by
  have hturn (s : Node) (it : Uint256 × Int) : Keeps s (expireWatchdog env s it) := by
    unfold expireWatchdog
    split
    · exact .modify it.1 (expireObject env.adjustedTime) (expireObject_keeps _) rfl rfl rfl rfl
    · exact .refl
  unfold expireWatchdogs
  split
  · exact .foldl hturn _ s
  · exact .refl

theorem clearDirtyObject_keeps (s : Node) (nHash : Uint256) : Keeps s (clearDirtyObject voteHash s nHash) := by
  unfold clearDirtyObject
  split
  · exact .refl
  · rename_i o ho
    have hcleared : KeepsVotes o { o.clearMasternodeVotes voteHash s.mnodeman with fDirtyCache := true } :=
      (clearMasternodeVotes_keeps s.mnodeman o).trans (.of_eq rfl rfl rfl rfl)
    exact .put ho hcleared rfl rfl rfl rfl

theorem eraseObject_keeps (ho : s.governance.mapObjects[nHash]? = some o) {p : CGovernanceObject} (hp : p.hash = o.hash) :
    Keeps s (eraseObject s nHash p) := by
  have hgone (n : Uint256) : (eraseObject s nHash p).governance.mapObjects[n]? = if n =
    nHash then none else s.governance.mapObjects[n]? :=
    lookup_erase
  refine ⟨fun n o' h => ?_, fun _ _ h => .inl h, fun h => ?_, removeGovernanceObject_sameIndex _ _,
    fun hkeyed vin n hsome hvoted => ?_⟩
  · rw [hgone] at h
    split at h
    · cases h
    · exact ⟨o', h, .refl⟩
  · obtain ⟨hvalid, hget⟩ := CacheMap.foldl_erase_spec h
      ((s.governance.mapVoteToObject.listItems.filter (·.item.value == nHash)).map (·.item.key))
    refine ⟨hvalid, fun k n => ?_⟩
    have hin : k ∈ (s.governance.mapVoteToObject.listItems.filter (·.item.value == nHash)).map (·.item.key) ↔
        s.governance.mapVoteToObject.get k = some nHash := by
      rw [h.get_iff]
      simp only [List.mem_map, List.mem_filter, beq_iff_eq]
      constructor
      · intro hex
        obtain ⟨it, ⟨hit, rfl⟩, rfl⟩ := hex
        exact ⟨it, hit, rfl⟩
      · intro hex
        obtain ⟨it, hit, hitem⟩ := hex
        exact ⟨it, ⟨hit, by rw [hitem]⟩, by rw [hitem]⟩
    rw [show (eraseObject s nHash p).governance.mapVoteToObject.get k = _ from hget k, hgone]
    simp only [hin]
    by_cases hn : n = nHash
    · subst hn
      rw [if_pos rfl, ho]
      constructor
      · intro hk
        split at hk
        · cases hk
        · rename_i hne
          exact absurd hk hne
      · intro hboth
        obtain ⟨-, hno⟩ := hboth
        exact absurd (hno rfl) (by simp)
    · rw [if_neg hn]
      constructor
      · intro hk
        split at hk
        · cases hk
        · exact ⟨hk, id⟩
      · intro hboth
        obtain ⟨hk, -⟩ := hboth
        rw [if_neg]
        · exact hk
        · rw [hk]
          intro hsame
          exact hn (Option.some.inj hsame)
  · rw [hgone] at hsome
    refine votedOn_removeGovernanceObject (fun hn => ?_) hvoted
    rw [if_pos (by rw [hn, hp, hkeyed nHash o ho])] at hsome
    cases hsome

theorem cleanObject_keeps (s : Node) (nHash : Uint256) : Keeps s (cleanObject env s nHash) := by
  simp only [cleanObject]
  split
  · exact .refl
  rename_i o ho
  have hkeeps : KeepsVotes o (if o.fDirtyCache = true then
      o.updateSentinelVariables env.nGovernanceMinQuorum env.countEnabled env.adjustedTime else o) := by
    split
    · unfold CGovernanceObject.updateSentinelVariables
      split
      · exact .refl
      · exact .of_eq rfl rfl rfl rfl
    · exact .refl
  generalize (if o.fDirtyCache = true then _ else o) = p at hkeeps ⊢
  have hput : Keeps s (s.withGovernance { s.governance with
      mapObjects := s.governance.mapObjects.insert nHash p
      nHashWatchdogCurrent :=
        if p.fCachedDelete ∧ nHash = s.governance.nHashWatchdogCurrent then 0 else s.governance.nHashWatchdogCurrent }) :=
    .put ho hkeeps rfl rfl rfl rfl
  split
  · exact hput.trans (eraseObject_keeps (o := p) (by simp [Node.withGovernance]) rfl)
  · exact hput

/-- `GetAndClearDirtyGovernanceObjectHashes` -/
def forgetDirty (s : Node) : Node := { s with mnodeman := { s.mnodeman with vecDirtyGovernanceObjectHashes := [] } }

theorem clearDirtyObjects_keeps (env : Env) (s : Node) : Keeps (forgetDirty s) (clearDirtyObjects voteHash env s) :=
  (expireWatchdogs_keeps env (forgetDirty s)).trans (.foldl clearDirtyObject_keeps _ _)

theorem updateCachesAndClean_keeps (env : Env) (s : Node) : Keeps (clearDirtyObjects voteHash env s)
    (updateCachesAndClean voteHash env s) := by
  have htrigger (s : Node) (nHash : Uint256) : Keeps s (expireTrigger env s nHash) := by
    have hvotes (o : CGovernanceObject) : KeepsVotes o (expireOutdated env.adjustedTime o) := by
      rw [expireOutdated_eq]
      exact .of_eq rfl rfl rfl rfl
    exact .modify nHash (expireOutdated env.adjustedTime) hvotes rfl rfl rfl rfl
  have hrates (t : Node) (b : Bool) : Keeps t (t.setRateChecks b) := .of_fields rfl rfl rfl rfl
  simp only [updateCachesAndClean]
  split
  · exact .refl
  · exact (((hrates _ false).trans (.foldl htrigger _ _)).trans (.foldl cleanObject_keeps _ _)).trans (hrates _ true)

theorem cleanOrphanObjects_keeps (env : Env) (s : Node) : Keeps s (cleanOrphanObjects env s) := by
  obtain ⟨mapOrphanVotes, heq⟩ := cleanOrphanObjects_eq env s
  rw [heq]
  exact .of_fields rfl rfl rfl rfl

/-! ### What these operations, a migration and a new object keep -/

structure Stable (P : Node → Prop) : Prop where
  orphans : ∀ s, P s → ∀ (nHash : Uint256) it, s.governance.mapMasternodeOrphanObjects[nHash]? = some it → NoVotes it.1
  keeps : ∀ s s', P s → Keeps s s' → P s'
  migrate : ∀ s, P s → P (useIndex s)
  store : ∀ s govobj, P s → NoVotes govobj → s.governance.mapObjects[govobj.hash]? = none → P (storeObject s govobj)

variable {P : Node → Prop} (hP : Stable P)

include hP

theorem Stable.processVoteOn (h : P s) (o : CGovernanceObject) (vote : CGovernanceVote) :
    P (processVoteOn voteHash env s o vote).2.1 :=
  hP.keeps _ _ (hP.migrate s h) (noteVote_keeps _ _ _)

theorem Stable.checkOrphanVotes (h : P s) (govobj : CGovernanceObject) : P (checkOrphanVotes voteHash env s govobj) := by
  have hturn (r : Node × CGovernanceObject) (hr : P r.1) (p : VoteTimePair) :
      P (checkOrphanVote voteHash env govobj.hash r p).1 := by
    obtain ⟨t, o⟩ := r
    simp only [checkOrphanVote]
    split
    · exact hP.keeps _ _ hr (.of_fields rfl rfl rfl rfl)
    have hon : P (Governance.processVoteOn voteHash env t o p.1).2.1 := hP.processVoteOn hr o p.1
    split <;> rename_i heq <;> rw [heq] at hon
    · exact hP.keeps _ _ hon (.of_fields rfl rfl rfl rfl)
    · exact hon
  have hstart : P (s.setRateChecks false, govobj).1 := hP.keeps _ _ h (.of_fields rfl rfl rfl rfl)
  have hlast (l : List VoteTimePair) : P (l.foldl (checkOrphanVote voteHash env govobj.hash) (s.setRateChecks false, govobj)).1 :=
    List.foldlRecOn (motive := fun r : Node × CGovernanceObject => P r.1) l _ hstart fun r hr p _ => hturn r hr p
  exact hP.keeps _ _ (hlast _) (.of_fields rfl rfl rfl rfl)

theorem Stable.addGovernanceObject (h : P s) {govobj : CGovernanceObject} (hnew : NoVotes govobj) :
    P (addGovernanceObject env s govobj).2.2 := by
  rcases addGovernanceObject_cases env s govobj with ⟨-, hs⟩ | ⟨-, hnone, hs | hs⟩
  · rw [hs]
    exact h
  · rw [hs]
    exact hP.store s govobj h hnew hnone
  · rw [hs]
    have hkeeps : Keeps s (updateCurrentWatchdog env s govobj).2 := updateCurrentWatchdog_keeps govobj
    apply hP.store _ govobj (hP.keeps _ _ h hkeeps) hnew
    by_contra hsome
    have hbefore := hkeeps.isSome (Option.ne_none_iff_isSome.1 hsome)
    rw [hnone] at hbefore
    cases hbefore

theorem Stable.processNewObject (h : P s) {govobj : CGovernanceObject} (hnew : NoVotes govobj) :
    P (processNewObject voteHash env s govobj).2 := by
  have hkeep : P (if (govobj.isValidLocally (validityContext env s) true).2 = true then keepOrphanObject env s govobj else s) := by
    split
    · exact hP.keeps _ _ h (keepOrphanObject_keeps hnew)
    · exact h
  have hnew' : NoVotes (govobj.updateSentinelVariables env.nGovernanceMinQuorum env.countEnabled env.adjustedTime) := by
    unfold CGovernanceObject.updateSentinelVariables
    split
    · exact hnew
    · exact ⟨hnew.file, hnew.waiting, hnew.records⟩
  have hmark (t : Node) (n : Uint256) (status : Nat) : Keeps t (markSeen t n status) := .of_fields rfl rfl rfl rfl
  simp only [Governance.processNewObject]
  split
  · exact h
  split
  · exact hP.keeps _ _ hkeep (hmark _ _ _)
  split
  · exact hkeep
  · have hmarkIf (b : Bool) (t : Node) (n : Uint256) : Keeps t (if b = true then markSeen t n seenObjectIsValid else t) := by
      split
      · exact hmark t n seenObjectIsValid
      · exact .refl
    exact hP.checkOrphanVotes (hP.keeps _ _ (hP.addGovernanceObject hkeep hnew') (hmarkIf _ _ _)) _

theorem Stable.processObjectMessage (h : P s) (nVersion : Int) {govobj : CGovernanceObject} (hnew : NoVotes govobj) :
    P (processObjectMessage voteHash env s nVersion govobj).2 := by
  have htake : P (takeObjectRequest s govobj.hash) := hP.keeps _ _ h (.of_fields rfl rfl rfl rfl)
  unfold Governance.processObjectMessage
  split
  · exact h
  split
  · exact h
  split
  · exact htake
  · exact hP.processNewObject htake hnew

theorem Stable.checkMasternodeOrphanObjects (h : P s) : P (checkMasternodeOrphanObjects env s) := by
  have hturn (t : Node) (it : Uint256 × CGovernanceObject × Int) (hnew : NoVotes it.2.1) (ht : P t) :
      P (checkMasternodeOrphanObject env t it) := by
    simp only [checkMasternodeOrphanObject]
    split
    · exact hP.keeps _ _ ht eraseOrphanObject_keeps
    split
    · split
      · exact hP.keeps _ _ ht eraseOrphanObject_keeps
      · exact ht
    split
    · exact hP.keeps _ _ (hP.addGovernanceObject ht hnew) eraseOrphanObject_keeps
    · exact hP.addGovernanceObject ht hnew
  have hstart : P (s.setRateChecks false) := hP.keeps _ _ h (.of_fields rfl rfl rfl rfl)
  refine hP.keeps _ _ (List.foldlRecOn _ _ hstart fun t ht it hit => hturn t it ?_ ht) (.of_fields rfl rfl rfl rfl)
  exact hP.orphans s h it.1 it.2 (Std.TreeMap.mem_toList_iff_getElem?_eq_some.1 hit)

omit hP

/-! ## A vote -/

variable {vote : CGovernanceVote}

variable (voteHash) in
/-- `ProcessVote` of an object adds the vote it takes to the file and keeps one whose
    masternode has no index. -/
theorem processVote_votes (cx : VoteContext) (o : CGovernanceObject) (i : Int) (vote : CGovernanceVote) :
    (o.processVote voteHash cx i vote).2.fileVotes.listVotes =
      (if (o.processVote voteHash cx i vote).1 = .ok () then vote :: o.fileVotes.listVotes else o.fileVotes.listVotes) ∧
    ((o.processVote voteHash cx i vote).2.mapOrphanVotes = o.mapOrphanVotes ∨
      (i < 0 ∧ (o.processVote voteHash cx i vote).2.mapOrphanVotes =
        (o.mapOrphanVotes.insert vote.vinMasternode (vote, cx.adjustedTime + governanceOrphanExpirationTime)).2)) := by
  unfold CGovernanceObject.processVote
  split
  · exact ⟨by simp, .inr ⟨by assumption, rfl⟩⟩
  dsimp only
  split
  · exact ⟨by simp [CGovernanceObject.putRec], .inl rfl⟩
  split
  · exact ⟨by simp [CGovernanceObject.putRec], .inl rfl⟩
  split
  · exact ⟨by simp [CGovernanceObject.putInstance, CGovernanceObject.putRec], .inl rfl⟩
  split
  · exact ⟨by simp [CGovernanceObject.putInstance, CGovernanceObject.putRec], .inl rfl⟩
  split
  · exact ⟨by simp [CGovernanceObject.putInstance, CGovernanceObject.putRec], .inl rfl⟩
  · exact ⟨by simp [CGovernanceObjectVoteFile.addVote], .inl rfl⟩

/-- A vote that an object takes is numbered, supported, not obsolete and valid. -/
theorem processVote_ok {cx : VoteContext} {i : Int} (h : (o.processVote voteHash cx i vote).1 = .ok ()) :
    0 ≤ i ∧ (vote.getSignal ≠ voteSignalNone ∧ vote.getSignal ≤ maxSupportedVoteSignal) ∧
      (o.voteInstance i vote.getSignal).nCreationTime ≤ vote.nTime ∧ cx.isValid vote = true := by
  unfold CGovernanceObject.processVote at h
  split at h
  · cases h
  rename_i hidx
  dsimp only at h
  split at h
  · cases h
  rename_i hnone
  split at h
  · cases h
  rename_i hmax
  split at h
  · cases h
  rename_i htime
  split at h
  · cases h
  split at h
  · cases h
  rename_i hvalid
  exact ⟨by omega, ⟨hnone, by omega⟩, by omega, by simpa using hvalid⟩

variable (voteHash env vote) in
/-- `ProcessVote` of a stored object, as the index has been made ready for it. -/
theorem processStoredVote_eq (ho : (useIndex s).governance.mapObjects[nHash]? = some o) :
    let r := o.processVote voteHash (voteContext env (useIndex s))
      ((useIndex s).mnodeman.indexMasternodes.getMasternodeIndex vote.vinMasternode) vote
    let t := (processStoredVote voteHash env s nHash vote).2
    (processStoredVote voteHash env s nHash vote).1 = r.1 ∧
    t.governance.mapObjects = (useIndex s).governance.mapObjects.insert nHash r.2 ∧
    t.governance.mapMasternodeOrphanObjects = (useIndex s).governance.mapMasternodeOrphanObjects ∧
    t.governance.mapVoteToObject = (useIndex s).governance.mapVoteToObject ∧
    SameIndex (useIndex s).mnodeman t.mnodeman := by
  simp only [processStoredVote, getMasternodeIndex, ho]
  generalize o.processVote voteHash (voteContext env (useIndex s)) _ vote = r
  obtain ⟨e | ⟨⟨⟩⟩, p⟩ := r
  · have hnote : (noteVote voteHash ((useIndex s).putObjects ((useIndex s).governance.mapObjects.insert nHash p)) vote
        (.error e)).mnodeman = (useIndex s).mnodeman := by
      unfold noteVote
      split
      · rename_i hok
        cases hok
      · rfl
      · rfl
    refine ⟨trivial, ?_, ?_, ?_, by rw [hnote]; exact .refl _⟩
    all_goals
      unfold noteVote
      split <;> rfl
  · exact ⟨trivial, rfl, rfl, rfl, addGovernanceVote_sameIndex _ _ _⟩

variable (voteHash env vote) in
theorem processStoredVote_mnodeman (ho : (useIndex s).governance.mapObjects[nHash]? = some o) :
    (processStoredVote voteHash env s nHash vote).2.mnodeman =
      if (processStoredVote voteHash env s nHash vote).1 = .ok () then
        (useIndex s).mnodeman.addGovernanceVote vote.vinMasternode vote.nParentHash
      else (useIndex s).mnodeman := by
  simp only [processStoredVote, getMasternodeIndex, ho]
  generalize o.processVote voteHash (voteContext env (useIndex s)) _ vote = r
  obtain ⟨e | ⟨⟨⟩⟩, p⟩ := r
  · rw [if_neg (by simp)]
    unfold noteVote
    split
    · rename_i hok
      cases hok
    · rfl
    · rfl
  · rfl

theorem mem_listItems_processVote {cx : VoteContext} {i : Int} {it : ListNode CTxIn VoteTimePair}
    (h : it ∈ (o.processVote voteHash cx i vote).2.mapOrphanVotes.listItems) :
    it ∈ o.mapOrphanVotes.listItems ∨ (i < 0 ∧ it.item.value.1 = vote) := by
  rcases (processVote_votes voteHash cx o i vote).2 with hsame | ⟨hi, hinsert⟩
  · rw [hsame] at h
    exact .inl h
  · rw [hinsert] at h
    rcases CacheMultiMap.mem_listItems_insert h with hin | hitem
    · exact .inl hin
    · exact .inr ⟨hi, by rw [hitem]⟩

theorem mem_listVotes_processVote {cx : VoteContext} {i : Int} {w : CGovernanceVote}
    (h : w ∈ (o.processVote voteHash cx i vote).2.fileVotes.listVotes) :
    w ∈ o.fileVotes.listVotes ∨ (w = vote ∧ (o.processVote voteHash cx i vote).1 = .ok ()) := by
  rw [(processVote_votes voteHash cx o i vote).1] at h
  split at h
  · rename_i hok
    rcases List.mem_cons.1 h with rfl | hin
    · exact .inr ⟨rfl, hok⟩
    · exact .inl hin
  · exact .inl h

variable (voteHash env s vote) in
/-- The ways `CGovernanceManager::ProcessVote` can end: before it reaches the object, refused
    by the object, or taken and inserted. -/
theorem processVote_ends :
    (∃ e, (processVote voteHash env s vote).1 = .error e ∧ Keeps s (processVote voteHash env s vote).2) ∨
    (∃ e, (processStoredVote voteHash env s vote.nParentHash vote).1 = .error e ∧
      processVote voteHash env s vote = processStoredVote voteHash env s vote.nParentHash vote) ∨
    ((processStoredVote voteHash env s vote.nParentHash vote).1 = .ok () ∧ s.governance.mapObjects[vote.nParentHash]?.isSome ∧
      processVote voteHash env s vote = (.ok (), (processStoredVote voteHash env s vote.nParentHash vote).2.withGovernance
        { (processStoredVote voteHash env s vote.nParentHash vote).2.governance with
          mapVoteToObject := (processStoredVote voteHash env s vote.nParentHash vote).2.governance.mapVoteToObject.insert
            (voteHash vote) vote.nParentHash })) := by
  unfold processVote
  dsimp only
  split
  · exact .inl ⟨_, rfl, .refl⟩
  split
  · exact .inl ⟨_, rfl, .of_fields rfl rfl rfl rfl⟩
  rename_i o ho
  split
  · exact .inl ⟨_, rfl, .refl⟩
  obtain ⟨answer, t⟩ := processStoredVote voteHash env s vote.nParentHash vote
  cases answer with
  | error e => exact .inr (.inl ⟨e, rfl, rfl⟩)
  | ok u => exact .inr (.inr ⟨rfl, by rw [ho]; rfl, rfl⟩)

theorem useIndex_file {p : CGovernanceObject} (h : (useIndex s).governance.mapObjects[nHash]? = some p) :
    ∃ o, s.governance.mapObjects[nHash]? = some o ∧ p.fileVotes = o.fileVotes := by
  unfold useIndex at h
  split at h
  · simp only [rebuildVoteMaps, Std.TreeMap.getElem?_map, Option.map_eq_some_iff] at h
    obtain ⟨o, ho, rfl⟩ := h
    exact ⟨o, ho, rfl⟩
  · exact ⟨p, h, rfl⟩

theorem useIndex_isSome (s : Node) (nHash : Uint256) :
    (useIndex s).governance.mapObjects[nHash]?.isSome = s.governance.mapObjects[nHash]?.isSome := by
  unfold useIndex
  split
  · simp [rebuildVoteMaps]
  · rfl

end Zumy.Governance
