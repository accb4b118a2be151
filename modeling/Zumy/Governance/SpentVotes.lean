/-
  Zumy.Governance.SpentVotes — the votes of a masternode that is removed as spent.

  A masternode notes the objects it votes on in `mapGovernanceObjectsVotedOn`. Its removal
  flags them dirty, and `UpdateCachesAndClean` clears the votes of unlisted masternodes from
  dirty objects. The copy constructor leaves the map behind.
-/
import Zumy.Governance.VoteFiles
import Zumy.Governance.VoteIndex

namespace Zumy.Governance

open Lib Container Masternode

/-- The record has a vote: an instance that is not the empty one of a refused vote. -/
def HasVote (o : CGovernanceObject) (i : Int) : Prop := ∃ sig w, o.instanceAt i sig = some w ∧ w ≠ .none

def CountsFor (s : Node) (vin : CTxIn) (nHash : Uint256) : Prop :=
  ∃ o i, s.governance.mapObjects[nHash]? = some o ∧ (recordIndex s.mnodeman).mapIndex[vin]? = some i ∧ HasVote o i

/-- The event runs `UpdateCachesAndClean`. -/
def Cleans (s : Node) (ev : Env × Event) : Prop :=
  match ev.2 with
  | .doMaintenance => (ev.1.fLiteMode || !ev.1.synced || s.governance.pCurrentBlockIndex.isNone) = false
  | .notifyMasternodeUpdates => s.mnodeman.fMasternodesRemoved = true
  | _ => False

structure SpentVotesGone (s : Node) (ev : Env × Event) (s' : Node) : Prop where
  /-- A removal flags every object that the masternode's votes count on. -/
  flagged : ev.2 = .removeSpent → ∀ vin, s.mnodeman.has vin = true → ev.1.isOutpointSpent vin.prevout = true →
    ∀ nHash, CountsFor s vin nHash → nHash ∈ s'.mnodeman.vecDirtyGovernanceObjectHashes
  /-- After a clean the votes that count are those of listed masternodes. -/
  cleared : Cleans s ev → ∀ vin nHash, CountsFor s' vin nHash → s'.mnodeman.has vin = true

def UnlistedFlagged (s : Node) : Prop :=
  ∀ vin nHash, CountsFor s vin nHash → s.mnodeman.has vin = false → nHash ∈ s.mnodeman.vecDirtyGovernanceObjectHashes

/-- `ClearMasternodeVotes` finds the votes of unlisted masternodes on the dirty objects: it
    looks their numbers up in the new index, while the records may still have old ones. -/
def UnlistedFound (s : Node) : Prop :=
  ∀ nHash ∈ s.mnodeman.vecDirtyGovernanceObjectHashes, ∀ o, s.governance.mapObjects[nHash]? = some o → ∀ i, HasVote o i →
    ((recordIndex s.mnodeman).get i).any s.mnodeman.has = false → CGovernanceObject.listedAt s.mnodeman i = false

/-- The condition on an event: no masternode whose votes count is moved by a growing vector or
    stands behind an erased one, and none has votes that count when it joins; a rebuild leaves
    the numbers of the votes their meaning; a clean finds the votes it has to clear. -/
def MapsKept (voteHash : CGovernanceVote → Uint256) (s : Node) (ev : Env × Event) : Prop :=
  match ev.2 with
  | .addMasternode mn => s.mnodeman.has mn.vin = false → (∀ nHash, ¬ CountsFor s mn.vin nHash) ∧
      (ev.1.fReallocates = true → ∀ it ∈ s.mnodeman.vMasternodes, ∀ nHash, ¬ CountsFor s it.vin nHash)
  | .removeSpent => ∀ a mn b, s.mnodeman.vMasternodes = a ++ mn :: b → (∃ it ∈ a, ev.1.isOutpointSpent it.vin.prevout = true) →
      ∀ nHash, ¬ CountsFor s mn.vin nHash
  | .checkAndRebuildMasternodeIndex => s.mnodeman.fMasternodesRemoved = true → s.mnodeman.needsRebuild ev.1.now = true →
      ∀ (nHash : Uint256) o, s.governance.mapObjects[nHash]? = some o → ∀ i, HasVote o i →
        (s.mnodeman.indexMasternodes.get i).map (·.prevout) = ((recordIndex s.mnodeman).get i).map (·.prevout)
  | .doMaintenance => Cleans s ev → UnlistedFound s
  | .notifyMasternodeUpdates => Cleans s ev → UnlistedFound (notifyAdded voteHash ev.1 s)
  | _ => True

/-! ## The invariant -/

/-- The vote of a listed masternode is in its map, that of an unlisted one on a dirty object. -/
structure Tracked (m : CMasternodeMan) (vin : CTxIn) (nHash : Uint256) : Prop where
  listed : m.has vin = true → VotedOn m vin nHash
  unlisted : m.has vin = false → nHash ∈ m.vecDirtyGovernanceObjectHashes

structure VotesTracked (s : Node) : Prop where
  index : s.mnodeman.indexMasternodes.Valid
  old : s.mnodeman.indexMasternodesOld.Valid
  keyed : KeyedByHash s
  waiting : ∀ (nHash : Uint256) o, s.governance.mapObjects[nHash]? = some o →
    ∀ it ∈ o.mapOrphanVotes.listItems, it.item.value.1.nParentHash = nHash
  orphans : ∀ (nHash : Uint256) it, s.governance.mapMasternodeOrphanObjects[nHash]? = some it → NoVotes it.1
  tracked : ∀ (nHash : Uint256) o, s.governance.mapObjects[nHash]? = some o → ∀ i, HasVote o i →
    ∃ vin, (recordIndex s.mnodeman).get i = some vin ∧ Tracked s.mnodeman vin nHash

variable {voteHash : CGovernanceVote → Uint256} {env : Env} {s s' : Node} {nHash : Uint256} {o o' : CGovernanceObject}
variable {vote : CGovernanceVote} {m m' : CMasternodeMan} {vin : CTxIn} {i j : Int}

theorem init_tracked : VotesTracked .init := by
  refine ⟨CMasternodeIndex.empty_valid, CMasternodeIndex.empty_valid, fun n o h => ?_, fun n o h => ?_, fun n it h => ?_,
    fun n o h => ?_⟩
  · simp [Node.init, CGovernanceManager.init] at h
  · simp [Node.init, CGovernanceManager.init] at h
  · simp [Node.init, CGovernanceManager.init] at h
  · simp [Node.init, CGovernanceManager.init] at h

theorem HasVote.of_keeps (h : HasVote o' i) (hk : KeepsVotes o o') : HasVote o i := by
  obtain ⟨sig, w, hw, hne⟩ := h
  exact ⟨sig, w, hk.instances i sig w hw, hne⟩

theorem not_hasVote (h : o.mapCurrentMNVotes = ∅) : ¬ HasVote o i := by
  intro hex
  obtain ⟨sig, w, hw, -⟩ := hex
  rw [CGovernanceObject.instanceAt_eq_none (by simp [h]) sig] at hw
  cases hw

theorem SameIndex.recordIndex (h : SameIndex m m') : recordIndex m' = recordIndex m := by
  unfold Governance.recordIndex
  rw [h.index, h.old, h.migrated]

theorem SameIndex.has (h : SameIndex m m') (vin : CTxIn) : m'.has vin = m.has vin := CMasternodeMan.has_congr h.outpoints vin

theorem votedOn_congr {vin' : CTxIn} (h : vin'.prevout = vin.prevout) : VotedOn m vin' nHash ↔ VotedOn m vin nHash := by
  unfold VotedOn CMasternodeMan.find CMasternodeMan.isAt
  rw [h]

theorem Tracked.congr {vin' : CTxIn} (h : vin'.prevout = vin.prevout) (ht : Tracked m vin nHash) : Tracked m vin' nHash := by
  have hhas : m.has vin' = m.has vin := by rw [Bool.eq_iff_iff, CMasternodeMan.has_iff, CMasternodeMan.has_iff, h]
  refine ⟨fun hl => (votedOn_congr h).2 (ht.listed (by rwa [← hhas])), fun hu => ht.unlisted (by rwa [← hhas])⟩

theorem VotesTracked.recordIndex_valid (h : VotesTracked s) : (recordIndex s.mnodeman).Valid := by
  unfold recordIndex
  split
  · exact h.old
  · exact h.index

theorem VotesTracked.countsFor (h : VotesTracked s) (ho : s.governance.mapObjects[nHash]? = some o) (hvote : HasVote o i)
    (hi : (recordIndex s.mnodeman).get i = some vin) : CountsFor s vin nHash :=
  ⟨o, i, ho, h.recordIndex_valid.indexed i vin hi, hvote⟩

theorem VotesTracked.tracked_of_countsFor (h : VotesTracked s) (hc : CountsFor s vin nHash) : Tracked s.mnodeman vin nHash := by
  obtain ⟨o, i, ho, hi, hvote⟩ := hc
  obtain ⟨w, hw, ht⟩ := h.tracked nHash o ho i hvote
  obtain ⟨w', hw', hp⟩ := h.recordIndex_valid.reversed vin i hi
  rw [hw, Option.some.injEq] at hw'
  exact ht.congr (by rw [hw', hp])

theorem VotesTracked.keeps (h : VotesTracked s) (hk : Keeps s s') : VotesTracked s' := by
  refine ⟨by rw [hk.list.index]; exact h.index, by rw [hk.list.old]; exact h.old, hk.keyedByHash h.keyed, fun n o' ho' it hit => ?_,
    fun n it hit => ?_, fun n o' ho' i hvote => ?_⟩
  · obtain ⟨o, ho, hkeeps⟩ := hk.stored n o' ho'
    exact h.waiting n o ho it (hkeeps.waiting hit)
  · rcases hk.orphans n it hit with hit | hnew
    · exact h.orphans n it hit
    · exact hnew
  · obtain ⟨o, ho, hkeeps⟩ := hk.stored n o' ho'
    obtain ⟨vin, hvin, ht⟩ := h.tracked n o ho i (hvote.of_keeps hkeeps)
    refine ⟨vin, by rw [hk.list.recordIndex]; exact hvin, fun hl => ?_, fun hu => ?_⟩
    · exact hk.votedOn h.keyed vin n (by rw [ho']; rfl) (ht.listed (by rwa [← hk.list.has]))
    · rw [hk.list.dirty]
      exact ht.unlisted (by rwa [← hk.list.has])

theorem VotesTracked.migrate (h : VotesTracked s) : VotesTracked (useIndex s) := by
  unfold useIndex
  split
  · rename_i hflag
    have hx : recordIndex s.mnodeman = s.mnodeman.indexMasternodesOld := by simp [recordIndex, hflag]
    have hstored (n : Uint256) (o' : CGovernanceObject) (ho' : (rebuildVoteMaps s).governance.mapObjects[n]? = some o') :
        ∃ o, s.governance.mapObjects[n]? = some o ∧ o' = o.rebuildVoteMap s.mnodeman := by
      simp only [rebuildVoteMaps, Std.TreeMap.getElem?_map, Option.map_eq_some_iff] at ho'
      obtain ⟨o, ho, rfl⟩ := ho'
      exact ⟨o, ho, rfl⟩
    refine ⟨h.index, CMasternodeIndex.empty_valid, fun n o' ho' => ?_, fun n o' ho' => ?_, h.orphans, fun n o' ho' j hvote => ?_⟩
    all_goals obtain ⟨o, ho, rfl⟩ := hstored n o' ho'
    · exact h.keyed n o ho
    · exact h.waiting n o ho
    · obtain ⟨sig, w, hw, hne⟩ := hvote
      obtain ⟨r, hr, hsig⟩ := Option.bind_eq_some_iff.1 hw
      obtain ⟨i, hto, hi⟩ := (CGovernanceObject.rebuildVoteMap_lookup h.old h.index).1 hr
      have hbefore : HasVote o i := ⟨sig, w, by unfold CGovernanceObject.instanceAt; rw [hi]; exact hsig, hne⟩
      obtain ⟨vin, hvin, ht⟩ := h.tracked n o ho i hbefore
      rw [hx] at hvin
      obtain ⟨v, hv, hj⟩ := Option.bind_eq_some_iff.1 hto
      rw [hvin, Option.some.injEq] at hv
      obtain ⟨v', hv', hp⟩ := h.index.reversed v j hj
      have ht' : Tracked s.mnodeman v' n := ht.congr (by rw [hp, hv])
      exact ⟨v', hv', ht'.listed, ht'.unlisted⟩
  · exact h

theorem storeObject_tracked (h : VotesTracked s) {govobj : CGovernanceObject} (hnew : NoVotes govobj)
    (hnone : s.governance.mapObjects[govobj.hash]? = none) : VotesTracked (storeObject s govobj) := by
  have hlookup (n : Uint256) (o : CGovernanceObject) (ho : (storeObject s govobj).governance.mapObjects[n]? = some o) :
      (n = govobj.hash ∧ o = govobj) ∨ s.governance.mapObjects[n]? = some o := by
    have ho : (s.governance.mapObjects.insertIfNew govobj.hash govobj)[n]? = some o := ho
    exact of_lookup_insertIfNew ho
  refine ⟨h.index, h.old, fun n o ho => ?_, fun n o ho it hit => ?_, h.orphans, fun n o ho i hvote => ?_⟩
  all_goals rcases hlookup n o ho with ⟨hn, rfl⟩ | ho
  · exact hn.symm
  · exact h.keyed n o ho
  · rw [hnew.waiting] at hit
    cases hit
  · exact h.waiting n o ho it hit
  · exact absurd hvote (not_hasVote hnew.records)
  · exact h.tracked n o ho i hvote

theorem votesTracked_stable : Stable VotesTracked where
  orphans _ h := h.orphans
  keeps _ _ h hk := h.keeps hk
  migrate _ h := h.migrate
  store _ _ h hnew hnone := storeObject_tracked h hnew hnone

/-! ## A vote -/

theorem hasVote_processVote {cx : VoteContext} (h : HasVote (o.processVote voteHash cx i vote).2 j) :
    HasVote o j ∨ (j = i ∧ (o.processVote voteHash cx i vote).1 = .ok ()) := by
  obtain ⟨sig, w, hw, hne⟩ := h
  by_cases hj : j = i
  · subst hj
    by_cases hok : (o.processVote voteHash cx j vote).1 = .ok ()
    · exact .inr ⟨rfl, hok⟩
    · rcases CGovernanceObject.processVote_refused hok sig with heq | ⟨-, hempty⟩
      · rw [heq] at hw
        exact .inl ⟨sig, w, hw, hne⟩
      · rw [hempty] at hw
        exact absurd (Option.some.inj hw).symm hne
  · rw [CGovernanceObject.instanceAt_congr (CGovernanceObject.processVote_other hj)] at hw
    exact .inl ⟨sig, w, hw, hne⟩

theorem hash_processVote (cx : VoteContext) : (o.processVote voteHash cx i vote).2.hash = o.hash := by
  unfold CGovernanceObject.processVote
  split
  · rfl
  dsimp only
  split
  · rfl
  split
  · rfl
  split
  · rfl
  split
  · rfl
  split <;> rfl

theorem has_of_isValid {now : Int} {verifyMessage : CPubKey → List UInt8 → VoteMessage → Bool}
    (h : vote.isValid now m.masternodeInfo verifyMessage = true) : m.has vote.vinMasternode = true := by
  unfold CGovernanceVote.isValid at h
  split at h
  · cases h
  split at h
  · cases h
  split at h
  · cases h
  split at h
  · cases h
  · rename_i pubKey hinfo
    obtain ⟨mn, hmn, -⟩ := Option.map_eq_some_iff.1 hinfo
    rw [CMasternodeMan.has, hmn]
    rfl

structure Noted (m m' : CMasternodeMan) : Prop where
  index : m'.indexMasternodes = m.indexMasternodes
  old : m'.indexMasternodesOld = m.indexMasternodesOld
  migrated : m'.fIndexRebuilt = m.fIndexRebuilt
  outpoints : m'.outpoints = m.outpoints
  dirty : m'.vecDirtyGovernanceObjectHashes = m.vecDirtyGovernanceObjectHashes
  votedOn : ∀ vin nHash, VotedOn m vin nHash → VotedOn m' vin nHash

theorem Noted.refl (m : CMasternodeMan) : Noted m m := ⟨rfl, rfl, rfl, rfl, rfl, fun _ _ => id⟩

theorem SameIndex.noted (h : SameIndex m m') (hvoted : ∀ vin nHash, VotedOn m vin nHash → VotedOn m' vin nHash) : Noted m m' :=
  ⟨h.index, h.old, h.migrated, h.outpoints, h.dirty, hvoted⟩

theorem Noted.recordIndex (h : Noted m m') : recordIndex m' = recordIndex m := by
  unfold Governance.recordIndex
  rw [h.index, h.old, h.migrated]

theorem Noted.tracked (h : Noted m m') (ht : Tracked m vin nHash) : Tracked m' vin nHash := by
  have hhas : m'.has vin = m.has vin := CMasternodeMan.has_congr h.outpoints vin
  refine ⟨fun hl => h.votedOn vin nHash (ht.listed (by rwa [← hhas])), fun hu => ?_⟩
  rw [h.dirty]
  exact ht.unlisted (by rwa [← hhas])

theorem VotesTracked.noted (h : VotesTracked s) (hobj : s'.governance.mapObjects = s.governance.mapObjects)
    (horph : s'.governance.mapMasternodeOrphanObjects = s.governance.mapMasternodeOrphanObjects)
    (hm : Noted s.mnodeman s'.mnodeman) :
    VotesTracked s' := by
  refine ⟨by rw [hm.index]; exact h.index, by rw [hm.old]; exact h.old, by rw [KeyedByHash, hobj]; exact h.keyed,
    by rw [hobj]; exact h.waiting, by rw [horph]; exact h.orphans, fun n o ho i hvote => ?_⟩
  rw [hobj] at ho
  obtain ⟨vin, hvin, ht⟩ := h.tracked n o ho i hvote
  exact ⟨vin, by rw [hm.recordIndex]; exact hvin, hm.tracked ht⟩

/-- `ProcessVote` of a stored object notes the object with the masternode of a vote it takes. -/
theorem processStoredVote_tracked (h : VotesTracked s) (hparent : vote.nParentHash = nHash) :
    VotesTracked (processStoredVote voteHash env s nHash vote).2 := by
  have huse : VotesTracked (useIndex s) := h.migrate
  cases ho : (useIndex s).governance.mapObjects[nHash]? with
  | none =>
    simp only [processStoredVote, getMasternodeIndex, ho]
    exact huse
  | some o =>
    obtain ⟨hanswer, hobj, horph, -, hsame⟩ := processStoredVote_eq voteHash env vote ho
    have hmnodeman := processStoredVote_mnodeman voteHash env vote ho
    have hindex : recordIndex (useIndex s).mnodeman = (useIndex s).mnodeman.indexMasternodes := by
      simp [recordIndex, useIndex_migrated]
    have hnoted : Noted (useIndex s).mnodeman (processStoredVote voteHash env s nHash vote).2.mnodeman := by
      apply hsame.noted
      intro vin n hvoted
      rw [hmnodeman]
      split
      · exact votedOn_addGovernanceVote (.inl hvoted)
      · exact hvoted
    refine ⟨by rw [hsame.index]; exact huse.index, by rw [hsame.old]; exact huse.old, fun n o' ho' => ?_, fun n o' ho' it hit => ?_,
      fun n it hit => huse.orphans n it (by rwa [← horph]), fun n o' ho' j hvote => ?_⟩
    all_goals
      rw [hobj, lookup_insert] at ho'
      split at ho'
    · rename_i hn
      cases ho'
      rw [hash_processVote, hn]
      exact huse.keyed nHash o ho
    · exact huse.keyed n o' ho'
    · rename_i hn
      cases ho'
      rw [hn]
      rcases mem_listItems_processVote hit with hin | ⟨-, heq⟩
      · exact huse.waiting nHash o ho it hin
      · rw [heq]
        exact hparent
    · exact huse.waiting n o' ho' it hit
    · rename_i hn
      cases ho'
      rw [hsame.recordIndex]
      rcases hasVote_processVote hvote with hbefore | ⟨rfl, hok⟩
      · obtain ⟨vin, hvin, ht⟩ := huse.tracked nHash o ho j hbefore
        exact ⟨vin, hvin, hn ▸ hnoted.tracked ht⟩
      · -- the vote's masternode is listed, and gets the object
        obtain ⟨hidx, -, -, hvalid⟩ := processVote_ok hok
        have hhas : (useIndex s).mnodeman.has vote.vinMasternode = true := has_of_isValid hvalid
        obtain ⟨k, hk⟩ : ∃ k, (useIndex s).mnodeman.indexMasternodes.mapIndex[vote.vinMasternode]? = some k := by
          apply Option.ne_none_iff_exists'.1
          intro hnone
          simp [CMasternodeIndex.getMasternodeIndex, hnone] at hidx
        obtain ⟨vin, hvin, hp⟩ := huse.index.reversed vote.vinMasternode k hk
        refine ⟨vin, ?_, fun _ => ?_, fun hu => ?_⟩
        · rw [hindex, CMasternodeIndex.getMasternodeIndex, hk]
          exact hvin
        · rw [hmnodeman, if_pos (hanswer.trans hok), hparent]
          exact votedOn_addGovernanceVote (.inr ⟨hp, hhas, hn⟩)
        · rw [hsame.has, Bool.eq_false_iff, ne_eq, CMasternodeMan.has_iff, hp, ← CMasternodeMan.has_iff] at hu
          exact absurd hhas hu
    · obtain ⟨vin, hvin, ht⟩ := huse.tracked n o' ho' j hvote
      rw [hsame.recordIndex]
      exact ⟨vin, hvin, hnoted.tracked ht⟩

theorem processVote_tracked (h : VotesTracked s) : VotesTracked (processVote voteHash env s vote).2 := by
  have hstored : VotesTracked (processStoredVote voteHash env s vote.nParentHash vote).2 := processStoredVote_tracked h rfl
  rcases processVote_ends voteHash env s vote with ⟨e, -, hkeeps⟩ | ⟨e, -, heq⟩ | ⟨-, -, heq⟩
  · exact h.keeps hkeeps
  · rw [heq]
    exact hstored
  · rw [heq]
    exact hstored.noted rfl rfl (.refl _)

/-! ### The replay -/

theorem checkObjectOrphanVotes_tracked (h : VotesTracked s) (nHash : Uint256) :
    VotesTracked (checkObjectOrphanVotes voteHash env s nHash) := by
  have hturn (t : Node) (ht : VotesTracked t) (it : ListNode CTxIn VoteTimePair) (hparent : it.item.value.1.nParentHash = nHash) :
      VotesTracked (checkObjectOrphanVote voteHash env nHash t it) := by
    simp only [checkObjectOrphanVote]
    split
    · exact ht
    have hvoted : VotesTracked (processStoredVote voteHash env t nHash it.item.value.1).2 := processStoredVote_tracked ht hparent
    split
    · exact hvoted
    · exact hvoted.keeps (eraseWaiting_keeps _ nHash it.item.key it.item.value)
  unfold checkObjectOrphanVotes
  split
  · exact h
  · rename_i o ho
    exact List.foldlRecOn _ _ h fun t ht it hit => hturn t ht it (h.waiting nHash o ho it hit)

theorem checkMasternodeOrphanVotes_tracked (h : VotesTracked s) : VotesTracked (checkMasternodeOrphanVotes voteHash env s) := by
  have hstart : VotesTracked (s.setRateChecks false) := h.noted rfl rfl (.refl _)
  have hlast : VotesTracked (s.governance.mapObjects.keys.foldl (checkObjectOrphanVotes voteHash env) (s.setRateChecks false)) :=
    List.foldlRecOn _ _ hstart fun t ht n _ => checkObjectOrphanVotes_tracked ht n
  exact hlast.noted rfl rfl (.refl _)

theorem notifyAdded_tracked (h : VotesTracked s) : VotesTracked (notifyAdded voteHash env s) := by
  unfold notifyAdded
  split
  · exact checkMasternodeOrphanVotes_tracked (votesTracked_stable.checkMasternodeOrphanObjects h)
  · exact h

/-! ## Cleaning -/

/-- The votes on an object are those of numbers that `ClearMasternodeVotes` finds listed. -/
def AllListed (s : Node) (nHash : Uint256) : Prop :=
  ∀ o, s.governance.mapObjects[nHash]? = some o → ∀ i, HasVote o i → CGovernanceObject.listedAt s.mnodeman i = true

theorem SameIndex.listedAt (h : SameIndex m m') (i : Int) : CGovernanceObject.listedAt m' i = CGovernanceObject.listedAt m i := by
  have hhas : m'.has = m.has := funext h.has
  unfold CGovernanceObject.listedAt
  rw [h.index, hhas]

theorem AllListed.keeps (h : AllListed s nHash) (hk : Keeps s s') : AllListed s' nHash := by
  intro o' ho' i hvote
  obtain ⟨o, ho, hkeeps⟩ := hk.stored nHash o' ho'
  rw [hk.list.listedAt]
  exact h o ho i (hvote.of_keeps hkeeps)

theorem clearDirtyObject_allListed (s : Node) (nHash : Uint256) : AllListed (clearDirtyObject voteHash s nHash) nHash := by
  intro o' ho' i hvote
  rw [clearDirtyObject_mnodeman]
  cases ho : s.governance.mapObjects[nHash]? with
  | none =>
    simp only [clearDirtyObject, ho] at ho'
    cases ho'
  | some o =>
    simp only [clearDirtyObject, ho, Node.putObjects, lookup_insert, if_true, Option.some.injEq] at ho'
    subst ho'
    obtain ⟨sig, w, hw, -⟩ := hvote
    by_contra hgone
    rw [CGovernanceObject.instanceAt_eq_none] at hw
    · cases hw
    · show (o.clearMasternodeVotes voteHash s.mnodeman).mapCurrentMNVotes[i]? = none
      rw [CGovernanceObject.clearMasternodeVotes_lookup, if_neg hgone]

variable (voteHash env) in
theorem clearDirtyObjects_allListed (h : nHash ∈ s.mnodeman.vecDirtyGovernanceObjectHashes) :
    AllListed (clearDirtyObjects voteHash env s) nHash := by
  have hfold (l : List Uint256) (t : Node) (ht : nHash ∈ l ∨ AllListed t nHash) :
      AllListed (l.foldl (clearDirtyObject voteHash) t) nHash := by
    induction l generalizing t with
    | nil =>
      rcases ht with hin | hlisted
      · cases hin
      · exact hlisted
    | cons n l ih =>
      apply ih _
      rcases ht with hin | hlisted
      · rcases List.mem_cons.1 hin with rfl | hin
        · exact .inr (clearDirtyObject_allListed t nHash)
        · exact .inl hin
      · exact .inr (hlisted.keeps (clearDirtyObject_keeps t n))
  exact hfold _ _ (.inl h)

theorem UnlistedFound.keeps (h : UnlistedFound s) (hk : Keeps s s') : UnlistedFound s' := by
  have hhas : s'.mnodeman.has = s.mnodeman.has := funext hk.list.has
  intro n hn o' ho' i hvote hu
  rw [hk.list.dirty] at hn
  rw [hk.list.recordIndex, hhas] at hu
  obtain ⟨o, ho, hkeeps⟩ := hk.stored n o' ho'
  rw [hk.list.listedAt]
  exact h n hn o ho i (hvote.of_keeps hkeeps) hu

/-- The votes of unlisted masternodes were on dirty objects, and are found there. -/
theorem clearDirtyObjects_tracked (h : VotesTracked s) (hfound : UnlistedFound s) :
    VotesTracked (clearDirtyObjects voteHash env s) := by
  have hk : Keeps (forgetDirty s) (clearDirtyObjects voteHash env s) := clearDirtyObjects_keeps env s
  have hindex : recordIndex (clearDirtyObjects voteHash env s).mnodeman = recordIndex s.mnodeman := hk.list.recordIndex
  refine ⟨by rw [hk.list.index]; exact h.index, by rw [hk.list.old]; exact h.old, hk.keyedByHash h.keyed, fun n o' ho' it hit => ?_,
    fun n it hit => ?_, fun n o' ho' i hvote => ?_⟩
  · obtain ⟨o, ho, hkeeps⟩ := hk.stored n o' ho'
    exact h.waiting n o ho it (hkeeps.waiting hit)
  · rcases hk.orphans n it hit with hit | hnew
    · exact h.orphans n it hit
    · exact hnew
  · obtain ⟨o, ho, hkeeps⟩ := hk.stored n o' ho'
    have hbefore : HasVote o i := hvote.of_keeps hkeeps
    obtain ⟨vin, hvin, ht⟩ := h.tracked n o ho i hbefore
    have hhas : s.mnodeman.has vin = true := by
      by_contra hu
      rw [Bool.not_eq_true] at hu
      have hdirty : n ∈ s.mnodeman.vecDirtyGovernanceObjectHashes := ht.unlisted hu
      have hno : CGovernanceObject.listedAt s.mnodeman i = false := hfound n hdirty o ho i hbefore (by rw [hvin]; exact hu)
      have hlisted := clearDirtyObjects_allListed voteHash env hdirty o' ho' i hvote
      rw [hk.list.listedAt] at hlisted
      exact absurd hlisted (by rw [show CGovernanceObject.listedAt (forgetDirty s).mnodeman i = _ from hno]; simp)
    refine ⟨vin, by rw [hindex]; exact hvin, fun _ => ?_, fun hu => ?_⟩
    · exact hk.votedOn h.keyed vin n (by rw [ho']; rfl) (ht.listed hhas)
    · rw [hk.list.has, show (forgetDirty s).mnodeman.has vin = true from hhas] at hu
      cases hu

variable (voteHash env) in
theorem updateCachesAndClean_tracked (h : VotesTracked s) (hfound : UnlistedFound s) :
    VotesTracked (updateCachesAndClean voteHash env s) ∧
      (updateCachesAndClean voteHash env s).mnodeman.vecDirtyGovernanceObjectHashes = [] := by
  have hk : Keeps (clearDirtyObjects voteHash env s) (updateCachesAndClean voteHash env s) := updateCachesAndClean_keeps env s
  refine ⟨(clearDirtyObjects_tracked h hfound).keeps hk, ?_⟩
  rw [hk.list.dirty, (clearDirtyObjects_keeps env s).list.dirty]
  rfl

/-! ## The masternode list -/

theorem CountsFor.congr {vin' : CTxIn} (hp : vin'.prevout = vin.prevout) (h : CountsFor s vin nHash) :
    CountsFor s vin' nHash := by
  obtain ⟨o, i, ho, hi, hvote⟩ := h
  exact ⟨o, i, ho, by rw [CMasternodeIndex.mapIndex_congr hp]; exact hi, hvote⟩

theorem VotesTracked.of_list (h : VotesTracked s) (hindex : m.indexMasternodes.Valid) (hold : m.indexMasternodesOld.Valid)
    (hget : ∀ (n : Uint256) o, s.governance.mapObjects[n]? = some o → ∀ i, HasVote o i →
      ∀ vin, (recordIndex s.mnodeman).get i = some vin →
      ∃ vin', (recordIndex m).get i = some vin' ∧ vin'.prevout = vin.prevout)
    (htracked : ∀ vin n, CountsFor s vin n → Tracked s.mnodeman vin n → Tracked m vin n) :
    VotesTracked { s with mnodeman := m } := by
  refine ⟨hindex, hold, h.keyed, h.waiting, h.orphans, fun n o ho i hvote => ?_⟩
  obtain ⟨vin, hvin, ht⟩ := h.tracked n o ho i hvote
  obtain ⟨vin', hvin', hp⟩ := hget n o ho i hvote vin hvin
  exact ⟨vin', hvin', (htracked vin n (h.countsFor ho hvote hvin) ht).congr hp⟩

theorem add_tracked (h : VotesTracked s) {mn : CMasternode} {fReallocates : Bool} (hok : s.mnodeman.has mn.vin = false →
    (∀ nHash, ¬ CountsFor s mn.vin nHash) ∧
      (fReallocates = true → ∀ it ∈ s.mnodeman.vMasternodes, ∀ nHash, ¬ CountsFor s it.vin nHash)) :
    VotesTracked { s with mnodeman := s.mnodeman.add mn fReallocates } := by
  unfold CMasternodeMan.add
  split
  · exact h
  rename_i hfind
  obtain ⟨hjoins, hmoved⟩ := hok (by rw [CMasternodeMan.has, hfind]; rfl)
  refine h.of_list (CMasternodeIndex.add_valid h.index) h.old (fun n o _ i _ vin hvin => ?_) fun vin n hc ht => ?_
  · cases hflag : s.mnodeman.fIndexRebuilt with
    | true =>
      simp only [recordIndex, hflag, if_true] at hvin ⊢
      exact ⟨vin, hvin, rfl⟩
    | false =>
      simp only [recordIndex, hflag, Bool.false_eq_true, if_false] at hvin ⊢
      exact (CMasternodeIndex.add_valid h.index).reversed vin i (CMasternodeIndex.mapIndex_add_of_some (h.index.indexed i vin hvin))
  · have hother : ¬ mn.vin.prevout = vin.prevout := fun hp => hjoins n (hc.congr hp)
    have hnew : CMasternodeMan.isAt vin mn.copy = false := by simp [CMasternodeMan.isAt, CMasternode.copy, hother]
    cases hr : fReallocates with
    | false =>
      have hfound (k : CMasternodeIndex) (b : Bool) : CMasternodeMan.find { s.mnodeman with
          vMasternodes := s.mnodeman.vMasternodes ++ [mn.copy], indexMasternodes := k, fMasternodesAdded :=
            b } vin = s.mnodeman.find vin := by
        simp [CMasternodeMan.find, List.find?_append, hnew]
      refine ⟨fun hl => ?_, fun hu => ht.unlisted ?_⟩
      · obtain ⟨it, hit, hin⟩ := ht.listed (by rw [CMasternodeMan.has, ← hfound]; exact hl)
        exact ⟨it, (hfound _ _).trans hit, hin⟩
      · rw [CMasternodeMan.has, ← hfound]
        exact hu
    | true =>
      -- no masternode whose votes count is in the vector that moves
      have hunlisted : s.mnodeman.has vin = false := by
        rw [Bool.eq_false_iff, ne_eq, CMasternodeMan.has_iff]
        intro hin
        obtain ⟨it, hit, hp⟩ := List.mem_map.1 hin
        exact hmoved hr it hit n (hc.congr hp)
      refine ⟨fun hl => ?_, fun _ => ht.unlisted hunlisted⟩
      have hin := CMasternodeMan.has_iff.1 hl
      simp only [CMasternodeMan.outpoints, if_true, List.map_append, List.map_map, List.mem_append, List.map_cons, List.map_nil,
        List.mem_singleton] at hin
      rcases hin with hin | hp
      · rw [Bool.eq_false_iff, ne_eq, CMasternodeMan.has_iff] at hunlisted
        exact absurd hin hunlisted
      · exact absurd hp.symm hother

theorem has_removeSpent {isOutpointSpent : COutPoint → Bool} :
    (m.removeSpent isOutpointSpent).has vin = true ↔ m.has vin = true ∧ isOutpointSpent vin.prevout = false := by
  rw [CMasternodeMan.has_iff, CMasternodeMan.outpoints_removeSpent, List.mem_filter, CMasternodeMan.has_iff, Bool.not_eq_true']

theorem removeSpent_tracked (h : VotesTracked s) {isOutpointSpent : COutPoint → Bool}
    (hok : ∀ a mn b, s.mnodeman.vMasternodes = a ++ mn :: b → (∃ it ∈ a, isOutpointSpent it.vin.prevout = true) →
      ∀ nHash, ¬ CountsFor s mn.vin nHash) : VotesTracked { s with mnodeman := s.mnodeman.removeSpent isOutpointSpent } := by
  refine h.of_list h.index h.old (fun n o _ i _ vin hvin => ⟨vin, hvin, rfl⟩) fun vin n hc ht => ?_
  cases hhas : s.mnodeman.has vin with
  | false =>
    refine ⟨fun hl => ?_, fun _ => List.mem_append_left _ (ht.unlisted hhas)⟩
    rw [has_removeSpent, hhas] at hl
    cases hl.1
  | true =>
    obtain ⟨mn, hmn, hvoted⟩ := ht.listed hhas
    obtain ⟨hat, a, b, hl, hbefore⟩ := List.find?_eq_some_iff_append.1 hmn
    have hp : mn.vin.prevout = vin.prevout := by simpa [CMasternodeMan.isAt] using hat
    -- nothing in front of the masternode is spent, so its map is its own
    have hunspent : ∀ it ∈ a, isOutpointSpent it.vin.prevout = false := by
      intro it hit
      by_contra hspent
      exact hok a mn b hl ⟨it, hit, by simpa using hspent⟩ n (hc.congr hp)
    have herase := CMasternodeMan.eraseSpent_append hunspent (mn :: b)
    rw [← hl] at herase
    cases hspent : isOutpointSpent mn.vin.prevout with
    | true =>
      refine ⟨fun hl => ?_, fun _ => List.mem_append_right _ ?_⟩
      · rw [has_removeSpent, ← hp, hspent] at hl
        cases hl.2
      · rw [herase]
        simp only [CMasternodeMan.eraseSpent, hspent, if_true, Bool.false_eq_true, if_false]
        exact List.mem_append_left _ (Std.TreeMap.mem_keys.2 (Std.TreeMap.mem_iff_contains.2 hvoted))
    | false =>
      refine ⟨fun _ => ⟨mn, ?_, hvoted⟩, fun hu => ?_⟩
      · show List.find? _ (CMasternodeMan.eraseSpent isOutpointSpent false s.mnodeman.vMasternodes).1 = some mn
        rw [herase]
        simp only [CMasternodeMan.eraseSpent, hspent, Bool.false_eq_true, if_false]
        exact List.find?_eq_some_iff_append.2 ⟨hat, a, _, rfl, hbefore⟩
      · rw [Bool.eq_false_iff, ne_eq, has_removeSpent, ← hp, hspent] at hu
        exact absurd ⟨hhas, rfl⟩ hu

theorem checkAndRebuild_tracked (h : VotesTracked s) (now : Int) (hok : s.mnodeman.needsRebuild now = true →
      ∀ (nHash : Uint256) o, s.governance.mapObjects[nHash]? = some o → ∀ i, HasVote o i →
        (s.mnodeman.indexMasternodes.get i).map (·.prevout) = ((recordIndex s.mnodeman).get i).map (·.prevout)) :
    VotesTracked { s with mnodeman := s.mnodeman.checkAndRebuildMasternodeIndex now } := by
  unfold CMasternodeMan.checkAndRebuildMasternodeIndex
  split
  · exact h
  rename_i hneeds
  refine h.of_list (CMasternodeMan.indexOf_valid _) h.index (fun n o ho i hvote vin hvin => ?_) fun vin n _ ht =>
    ⟨ht.listed, ht.unlisted⟩
  have hagree := hok (by simpa using hneeds) n o ho i hvote
  rw [hvin, Option.map_some] at hagree
  exact Option.map_eq_some_iff.1 hagree

theorem updateFromNewBroadcast_noted (m : CMasternodeMan) (vin : CTxIn) (pubKey : CPubKey) :
    Noted m (m.updateFromNewBroadcast vin pubKey) := by
  have hfields : (m.updateFromNewBroadcast vin pubKey).indexMasternodes = m.indexMasternodes ∧
      (m.updateFromNewBroadcast vin pubKey).indexMasternodesOld = m.indexMasternodesOld ∧
      (m.updateFromNewBroadcast vin pubKey).fIndexRebuilt = m.fIndexRebuilt ∧
      (m.updateFromNewBroadcast vin pubKey).vecDirtyGovernanceObjectHashes = m.vecDirtyGovernanceObjectHashes := by
    unfold CMasternodeMan.updateFromNewBroadcast CMasternodeMan.modifyFound
    split <;> exact ⟨rfl, rfl, rfl, rfl⟩
  obtain ⟨hindex, hold, hflag, hdirty⟩ := hfields
  refine ⟨hindex, hold, hflag, CMasternodeMan.outpoints_modifyFound fun _ => rfl, hdirty, fun vin' n hvoted => ?_⟩
  obtain ⟨mn, hmn, hin⟩ := hvoted
  unfold VotedOn CMasternodeMan.updateFromNewBroadcast
  rw [CMasternodeMan.find_modifyFound (f := fun mn => { mn with pubKeyMasternode := pubKey }) (fun _ => rfl), hmn]
  split
  · exact ⟨_, rfl, hin⟩
  · exact ⟨mn, rfl, hin⟩

/-! ## Events -/

theorem doMaintenance_tracked (h : VotesTracked s) (hok : Cleans s (env, .doMaintenance) → UnlistedFound s) :
    VotesTracked (doMaintenance voteHash env s) ∧ (Cleans s (env, .doMaintenance) →
      (doMaintenance voteHash env s).mnodeman.vecDirtyGovernanceObjectHashes = []) := by
  unfold doMaintenance
  split
  · rename_i hignored
    refine ⟨h, fun hclean => ?_⟩
    rw [show (env.fLiteMode || !env.synced || s.governance.pCurrentBlockIndex.isNone) = false from hclean] at hignored
    cases hignored
  · rename_i hclean
    rw [Bool.not_eq_true] at hclean
    have hk : Keeps s (cleanOrphanObjects env s) := cleanOrphanObjects_keeps env s
    obtain ⟨htracked, hdirty⟩ := updateCachesAndClean_tracked voteHash env (h.keeps hk) ((hok hclean).keeps hk)
    exact ⟨htracked, fun _ => hdirty⟩

theorem notifyMasternodeUpdates_tracked (h : VotesTracked s)
    (hok : s.mnodeman.fMasternodesRemoved = true → UnlistedFound (notifyAdded voteHash env s)) :
    VotesTracked (notifyMasternodeUpdates voteHash env s) ∧ (s.mnodeman.fMasternodesRemoved = true →
      (notifyMasternodeUpdates voteHash env s).mnodeman.vecDirtyGovernanceObjectHashes = []) := by
  have hadded : VotesTracked (notifyAdded voteHash env s) := notifyAdded_tracked h
  have hflags (t : Node) : Noted t.mnodeman { t.mnodeman with fMasternodesAdded := false, fMasternodesRemoved := false } :=
    ⟨rfl, rfl, rfl, rfl, rfl, fun _ _ => id⟩
  simp only [notifyMasternodeUpdates]
  split
  · rename_i hremoved
    obtain ⟨htracked, hdirty⟩ := updateCachesAndClean_tracked voteHash env hadded (hok hremoved)
    exact ⟨htracked.noted rfl rfl (hflags _), fun _ => hdirty⟩
  · rename_i hremoved
    exact ⟨hadded.noted rfl rfl (hflags _), fun hclean => absurd hclean hremoved⟩

theorem next_tracked (h : VotesTracked s) (ev : Env × Event) (hok : MapsKept voteHash s ev) : VotesTracked (next voteHash s ev) ∧
    (Cleans s ev → (next voteHash s ev).mnodeman.vecDirtyGovernanceObjectHashes = []) := by
  obtain ⟨env, e⟩ := ev
  cases e with
  | governanceObject => exact ⟨votesTracked_stable.processObjectMessage h _ ⟨rfl, rfl, rfl⟩, False.elim⟩
  | governanceObjectVote nVersion vote =>
    refine ⟨?_, False.elim⟩
    simp only [next, processVoteMessage]
    split
    · exact h
    split
    · exact h
    · exact processVote_tracked (h.noted rfl rfl (.refl _))
  | ownVote vote => exact ⟨processVote_tracked h, False.elim⟩
  | confirmInventoryRequest => exact ⟨h.keeps (confirmInventoryRequest_keeps _), False.elim⟩
  | doMaintenance => exact doMaintenance_tracked h hok
  | updatedBlockTip => exact ⟨h.noted rfl rfl (.refl _), False.elim⟩
  | addMasternode mn => exact ⟨add_tracked h hok, False.elim⟩
  | updateMasternode vin pubKey => exact ⟨h.noted rfl rfl (updateFromNewBroadcast_noted _ vin pubKey), False.elim⟩
  | removeSpent => exact ⟨removeSpent_tracked h hok, False.elim⟩
  | checkAndRebuildMasternodeIndex =>
    refine ⟨?_, False.elim⟩
    simp only [next]
    split
    · rename_i hremoved
      exact checkAndRebuild_tracked h _ (hok hremoved)
    · exact h
  | notifyMasternodeUpdates => exact notifyMasternodeUpdates_tracked h hok

theorem VotesTracked.unlistedFlagged (h : VotesTracked s) : UnlistedFlagged s :=
  fun _ _ hc hu => (h.tracked_of_countsFor hc).unlisted hu

theorem step_tracked (s : Node) (ev : Env × Event) (s' : Node) (h : VotesTracked s) (hok : MapsKept voteHash s ev)
    (hs : step voteHash s ev = some s') : VotesTracked s' ∧ SpentVotesGone s ev s' := by
  cases hs
  obtain ⟨htracked, hdirty⟩ := next_tracked h ev hok
  refine ⟨htracked, fun hev vin hhas hspent n hc => ?_, fun hclean vin n hc => ?_⟩
  · obtain ⟨env, e⟩ := ev
    cases hev
    -- the votes count after the removal as before it, and their masternode is gone
    have hafter : CountsFor (next voteHash s (env, .removeSpent)) vin n := hc
    refine htracked.unlistedFlagged vin n hafter (Bool.eq_false_iff.2 fun hl => ?_)
    rw [(has_removeSpent.1 hl).2] at hspent
    cases hspent
  · by_contra hu
    have hin := htracked.unlistedFlagged vin n hc (by simpa using hu)
    rw [hdirty hclean] at hin
    cases hin

/-- In every run whose steps meet `MapsKept`, a removal flags every object that the votes of the
    masternode count on, they stay flagged, and a clean leaves no vote of an unlisted masternode. -/
theorem spent_votes_cleared (voteHash : CGovernanceVote → Uint256) (es : List (Env × Event))
    (hm : Meets (step voteHash) (MapsKept voteHash) .init es) :
    Along (step voteHash) SpentVotesGone .init es ∧ ∀ s, run (step voteHash) .init es = some s → UnlistedFlagged s := by
  refine ⟨along_of_meets VotesTracked step_tracked hm init_tracked, fun s hrun => ?_⟩
  have hstep (s : Node) (ev : Env × Event) (s' : Node) (h : VotesTracked s) (hok : MapsKept voteHash s ev)
      (hs : step voteHash s ev = some s') : VotesTracked s' := (step_tracked s ev s' h hok hs).1
  exact (run_inv_of_meets VotesTracked hstep hm init_tracked hrun).unlistedFlagged

theorem unlistedFound_of_migrated (h : s.mnodeman.fIndexRebuilt = false) : UnlistedFound s := by
  intro n _ o _ i _ hu
  rwa [recordIndex, h] at hu

theorem spent_votes_cleared_firstLeaves : Along (step smallHash) SpentVotesGone .init firstLeaves ∧
    ∀ s, run (step smallHash) .init firstLeaves = some s → UnlistedFlagged s := by
  apply spent_votes_cleared smallHash firstLeaves
  simp only [firstLeaves, firstVote, List.cons_append, List.nil_append, meets_step_cons]
  refine ⟨trivial, trivial, trivial, fun _ => ⟨fun n hc => ?_, fun hmoves => ?_⟩, trivial, fun a mn b hl hspent => ?_,
    fun _ => ?_, trivial⟩
  · obtain ⟨o, i, -, hi, -⟩ := hc
    cases hi
  · cases hmoves
  · -- the one masternode has none in front of it
    obtain ⟨it, hit, -⟩ := hspent
    have hlength := congrArg List.length hl
    rw [List.length_append, List.length_cons, show List.length _ = 1 from rfl] at hlength
    have hpos := List.length_pos_of_mem hit
    omega
  · exact unlistedFound_of_migrated rfl

/-! ## A masternode that moves -/

/-- Masternode 1 joins after masternode 0 voted, the vector grows, and masternode 0 is spent. -/
def movedMasternode : List (Env × Event) :=
  firstVote ++ [({ network with fReallocates := true }, .addMasternode ⟨masternodeVin 1, [], ∅⟩), (firstSpent, .removeSpent)]

theorem along_step_cons {P : Node → Env × Event → Node → Prop} {e : Env × Event} {es : List (Env × Event)} :
    Along (step voteHash) P s (e :: es) ↔ P s e (next voteHash s e) ∧ Along (step voteHash) P (next voteHash s e) es :=
  along_cons_total fun _ _ => rfl

/-- Its vote counts, and its removal flags nothing. -/
theorem moved_masternode_unflagged : ¬ Along (step smallHash) SpentVotesGone .init movedMasternode := by
  intro h
  simp only [movedMasternode, firstVote, List.cons_append, List.nil_append, along_step_cons] at h
  obtain ⟨-, -, -, -, -, -, hgone, -⟩ := h
  have hin := hgone.flagged rfl (masternodeVin 0) rfl rfl 9 ⟨_, 0, rfl, rfl, voteSignalFunding, _, rfl, by decide⟩
  cases hin

end Zumy.Governance
