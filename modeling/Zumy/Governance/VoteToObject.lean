/-
  Zumy.Governance.VoteToObject — `mapVoteToObject`, the stored object a vote's hash leads to.

  `ProcessVote` inserts a vote it takes, a deletion erases the object's entries, and
  `RebuildIndexes` makes the map anew when the node has read its files. The masternode
  that a vote waits for makes `CheckOrphanVotes` replay it, which inserts nothing.
-/
import Zumy.Governance.Restart
import Zumy.Governance.VoteFiles
import Zumy.Governance.VoteIndex

namespace Zumy.Governance

open Lib Container Masternode

section

variable (voteHash : CGovernanceVote → Uint256)

/-- Every entry leads to the stored object that a vote of its hash names; every vote of a
    stored object is a key, unless evicted. -/
structure IndexRight (s : IndexedNode) : Prop where
  names : ∀ nHashVote nHash, s.node.governance.mapVoteToObject.get nHashVote = some nHash →
    s.node.governance.mapObjects.contains nHash = true ∧ ∃ vote, voteHash vote = nHashVote ∧ vote.nParentHash = nHash
  keyed : ∀ (nHash : Uint256) o, s.node.governance.mapObjects[nHash]? = some o → ∀ vote ∈ o.fileVotes.listVotes,
    s.node.governance.mapVoteToObject.hasKey (voteHash vote) = true ∨ voteHash vote ∈ s.evicted

/-- `ProcessVote` without rate checks takes the vote on a stored object. -/
structure Takes (env : Env) (s : Node) (nHash : Uint256) (vote : CGovernanceVote) : Prop where
  index : 0 ≤ s.mnodeman.indexMasternodes.getMasternodeIndex vote.vinMasternode
  signal : vote.getSignal ≠ voteSignalNone ∧ vote.getSignal ≤ maxSupportedVoteSignal
  time : ∃ o, s.governance.mapObjects[nHash]? = some o ∧
    (o.voteInstance (s.mnodeman.indexMasternodes.getMasternodeIndex vote.vinMasternode) vote.getSignal).nCreationTime ≤ vote.nTime
  valid : vote.isValid env.now s.mnodeman.masternodeInfo env.verifyMessage = true

/-- A vote that waits in a stored object, its masternode listed or its time over, and that the
    replay takes, has its key or had it evicted. -/
def ReplaysKeyed (env : Env) (evicted : List Uint256) (s : Node) : Prop :=
  ∀ (nHash : Uint256) o, s.governance.mapObjects[nHash]? = some o → ∀ it ∈ o.mapOrphanVotes.listItems,
    (it.item.value.2 < env.adjustedTime ∨ s.mnodeman.has it.item.value.1.vinMasternode = true) →
    Takes env s nHash it.item.value.1 →
    s.governance.mapVoteToObject.get (voteHash it.item.value.1) = some nHash ∨ voteHash it.item.value.1 ∈ evicted

def NoCollision (s : Node) (vote : CGovernanceVote) : Prop :=
  ∀ (nHash : Uint256) o, s.governance.mapObjects[nHash]? = some o → ∀ w ∈ o.fileVotes.listVotes,
    voteHash w = voteHash vote → nHash = vote.nParentHash

/-- The condition on an event. The replay follows `CheckMasternodeOrphanObjects`, and meets
    the records of the index in use. -/
def KeysKept (s : IndexedNode) (ev : Env × NodeEvent) : Prop :=
  match ev.2 with
  | .event (.governanceObjectVote _ vote) => NoCollision voteHash s.node vote
  | .event (.ownVote vote) => NoCollision voteHash s.node vote
  | .event .notifyMasternodeUpdates => s.node.mnodeman.fMasternodesAdded = true →
    ReplaysKeyed voteHash ev.1 s.evicted (useIndex (checkMasternodeOrphanObjects ev.1 s.node))
  | .restart _ _ => ∀ (nHash nHash' : Uint256) o o', s.node.governance.mapObjects[nHash]? = some o →
    s.node.governance.mapObjects[nHash']? = some o' → ∀ vote ∈ o.fileVotes.listVotes, ∀ vote' ∈ o'.fileVotes.listVotes,
      voteHash vote = voteHash vote' → nHash = nHash'
  | _ => True

end

variable {voteHash : CGovernanceVote → Uint256} {env : Env} {s s' s'' : Node} {nHash : Uint256} {o o' : CGovernanceObject}

/-! ## The invariant -/

/-- `IndexRight`, the key of a stored object's vote leading to the object, and what its steps
    need: a vote in an object, or waiting there, names it, and an object that waits for its
    masternode has none. -/
structure VotesIndexed (voteHash : CGovernanceVote → Uint256) (evicted : List Uint256) (s : Node) : Prop where
  valid : s.governance.mapVoteToObject.Valid
  names : ∀ nHashVote nHash, s.governance.mapVoteToObject.get nHashVote = some nHash →
    s.governance.mapObjects[nHash]?.isSome ∧ ∃ vote, voteHash vote = nHashVote ∧ vote.nParentHash = nHash
  keyed : ∀ (nHash : Uint256) o, s.governance.mapObjects[nHash]? = some o → ∀ vote ∈ o.fileVotes.listVotes,
    s.governance.mapVoteToObject.get (voteHash vote) = some nHash ∨ voteHash vote ∈ evicted
  parent : ∀ (nHash : Uint256) o, s.governance.mapObjects[nHash]? = some o →
    ∀ vote ∈ o.fileVotes.listVotes, vote.nParentHash = nHash
  waiting : ∀ (nHash : Uint256) o, s.governance.mapObjects[nHash]? = some o →
    ∀ it ∈ o.mapOrphanVotes.listItems, it.item.value.1.nParentHash = nHash
  orphans : ∀ (nHash : Uint256) it, s.governance.mapMasternodeOrphanObjects[nHash]? = some it → NoVotes it.1

variable {evicted : List Uint256} {vote : CGovernanceVote}

theorem init_indexed : VotesIndexed voteHash [] .init := by
  refine ⟨CacheMap.empty_valid _, fun k n h => ?_, fun n o h => ?_, fun n o h => ?_, fun n o h => ?_, fun n it h => ?_⟩
  · simp [Node.init, CGovernanceManager.init, CacheMap.get, CacheMap.empty] at h
  · simp [Node.init, CGovernanceManager.init] at h
  · simp [Node.init, CGovernanceManager.init] at h
  · simp [Node.init, CGovernanceManager.init] at h
  · simp [Node.init, CGovernanceManager.init] at h

theorem VotesIndexed.right (h : VotesIndexed voteHash evicted s) : IndexRight voteHash ⟨s, evicted⟩ where
  names k n hk := by
    obtain ⟨hsome, hvote⟩ := h.names k n hk
    exact ⟨contains_iff.2 (Option.isSome_iff_exists.1 hsome), hvote⟩
  keyed n o ho vote hin := by
    apply (h.keyed n o ho vote hin).imp_left
    intro hk
    rw [h.valid.hasKey_eq, hk]
    rfl

theorem VotesIndexed.keeps (h : VotesIndexed voteHash evicted s) (hk : Keeps s s') : VotesIndexed voteHash evicted s' := by
  obtain ⟨hvalid, hget⟩ := hk.votes h.valid
  refine ⟨hvalid, fun k n hkey => ?_, fun n o' ho' vote hin => ?_, fun n o' ho' vote hin => ?_, fun n o' ho' it hin => ?_,
    fun n it hit => ?_⟩
  · obtain ⟨hkey, hkept⟩ := (hget k n).1 hkey
    obtain ⟨hsome, hvote⟩ := h.names k n hkey
    exact ⟨hkept hsome, hvote⟩
  · obtain ⟨o, ho, hkeeps⟩ := hk.stored n o' ho'
    refine (h.keyed n o ho vote (hkeeps.file hin)).imp_left fun hkey => (hget _ n).2 ⟨hkey, fun _ => ?_⟩
    rw [ho']
    rfl
  · obtain ⟨o, ho, hkeeps⟩ := hk.stored n o' ho'
    exact h.parent n o ho vote (hkeeps.file hin)
  · obtain ⟨o, ho, hkeeps⟩ := hk.stored n o' ho'
    exact h.waiting n o ho it (hkeeps.waiting hin)
  · rcases hk.orphans n it hit with hit | hnew
    · exact h.orphans n it hit
    · exact hnew

theorem VotesIndexed.of_governance (h : VotesIndexed voteHash evicted s) (hg : s'.governance = s.governance) :
    VotesIndexed voteHash evicted s' := by
  obtain ⟨hvalid, hnames, hkeyed, hparent, hwaiting, horphans⟩ := h
  exact ⟨by rwa [hg], by rwa [hg], by rwa [hg], by rwa [hg], by rwa [hg], by rwa [hg]⟩

theorem useIndex_indexed : VotesIndexed voteHash evicted (useIndex s) ↔ VotesIndexed voteHash evicted s := by
  unfold useIndex
  split
  · have hlookup (n : Uint256) : (rebuildVoteMaps s).governance.mapObjects[n]? =
        s.governance.mapObjects[n]?.map fun o => o.rebuildVoteMap s.mnodeman := Std.TreeMap.getElem?_map
    have hstored (n : Uint256) (o : CGovernanceObject) (ho : s.governance.mapObjects[n]? = some o) :
        (rebuildVoteMaps s).governance.mapObjects[n]? = some (o.rebuildVoteMap s.mnodeman) := by rw [hlookup, ho]; rfl
    constructor
    · intro h
      refine ⟨h.valid, fun k n hkey => ?_, fun n o ho => h.keyed n (o.rebuildVoteMap s.mnodeman) (hstored n o ho),
        fun n o ho => h.parent n (o.rebuildVoteMap s.mnodeman) (hstored n o ho),
        fun n o ho => h.waiting n (o.rebuildVoteMap s.mnodeman) (hstored n o ho), h.orphans⟩
      obtain ⟨hsome, hvote⟩ := h.names k n hkey
      rw [hlookup, Option.isSome_map] at hsome
      exact ⟨hsome, hvote⟩
    · intro h
      refine ⟨h.valid, fun k n hkey => ?_, fun n o' ho' => ?_, fun n o' ho' => ?_, fun n o' ho' => ?_, h.orphans⟩
      · obtain ⟨hsome, hvote⟩ := h.names k n hkey
        rw [hlookup, Option.isSome_map]
        exact ⟨hsome, hvote⟩
      all_goals
        rw [hlookup] at ho'
        obtain ⟨o, ho, rfl⟩ := Option.map_eq_some_iff.1 ho'
      · exact h.keyed n o ho
      · exact h.parent n o ho
      · exact h.waiting n o ho
  · exact Iff.rfl

/-! ### A vote -/

theorem takes_of_processStoredVote (hflag : s.mnodeman.fIndexRebuilt = false)
    (h : (processStoredVote voteHash env s nHash vote).1 = .ok ()) : Takes env s nHash vote := by
  have huse : useIndex s = s := by simp [useIndex, hflag]
  simp only [processStoredVote, getMasternodeIndex, huse] at h
  cases ho : s.governance.mapObjects[nHash]? with
  | none => simp [ho] at h
  | some o =>
    rw [ho] at h
    obtain ⟨hidx, hsignal, htime, hvalid⟩ := processVote_ok h
    exact ⟨hidx, hsignal, ⟨o, ho, htime⟩, hvalid⟩

theorem VotesIndexed.putVote (h : VotesIndexed voteHash evicted s) (ho : s.governance.mapObjects[nHash]? = some o)
    (hparent : vote.nParentHash = nHash) (hfile : ∀ w ∈ o'.fileVotes.listVotes, w ∈ o.fileVotes.listVotes ∨
      (w = vote ∧ (s.governance.mapVoteToObject.get (voteHash vote) = some nHash ∨ voteHash vote ∈ evicted)))
    (hwaiting : ∀ it ∈ o'.mapOrphanVotes.listItems, it ∈ o.mapOrphanVotes.listItems ∨ it.item.value.1 = vote)
    (hobj : s'.governance.mapObjects = s.governance.mapObjects.insert nHash o')
    (horph : s'.governance.mapMasternodeOrphanObjects = s.governance.mapMasternodeOrphanObjects)
    (hindex : s'.governance.mapVoteToObject = s.governance.mapVoteToObject) : VotesIndexed voteHash evicted s' := by
  have hlookup (n : Uint256) : s'.governance.mapObjects[n]? = if n = nHash then some o' else s.governance.mapObjects[n]? := by
    rw [hobj, lookup_insert]
  refine ⟨by rw [hindex]; exact h.valid, fun k n hk => ?_, fun n p hp w hw => ?_, fun n p hp w hw => ?_, fun n p hp it hit => ?_,
    fun n it hit => h.orphans n it (by rw [← horph]; exact hit)⟩
  · rw [hindex] at hk
    obtain ⟨hsome, hvote⟩ := h.names k n hk
    refine ⟨?_, hvote⟩
    rw [hlookup]
    split
    · rfl
    · exact hsome
  all_goals rw [hlookup] at hp
  · rw [hindex]
    split at hp
    · rename_i hn
      cases hp
      rw [hn]
      rcases hfile w hw with hin | ⟨rfl, hkey⟩
      · exact h.keyed nHash o ho w hin
      · exact hkey
    · exact h.keyed n p hp w hw
  · split at hp
    · rename_i hn
      cases hp
      rw [hn]
      rcases hfile w hw with hin | ⟨rfl, -⟩
      · exact h.parent nHash o ho w hin
      · exact hparent
    · exact h.parent n p hp w hw
  · split at hp
    · rename_i hn
      cases hp
      rw [hn]
      rcases hwaiting it hit with hin | heq
      · exact h.waiting nHash o ho it hin
      · rw [heq]
        exact hparent
    · exact h.waiting n p hp it hit

theorem VotesIndexed.insertKey (h : VotesIndexed voteHash evicted s) (hstored : s.governance.mapObjects[vote.nParentHash]?.isSome)
    (hno : NoCollision voteHash s vote) :
    VotesIndexed voteHash (s.governance.mapVoteToObject.evictedBy (voteHash vote) evicted)
      (s.withGovernance { s.governance with
        mapVoteToObject := s.governance.mapVoteToObject.insert (voteHash vote) vote.nParentHash }) := by
  obtain ⟨hvalid, hget⟩ := CacheMap.insert_spec h.valid (voteHash vote) vote.nParentHash
  refine ⟨hvalid, fun k n hk => ?_, fun n o ho w hw => ?_, h.parent, h.waiting, h.orphans⟩
  · have hk : (s.governance.mapVoteToObject.insert (voteHash vote) vote.nParentHash).get k = some n := hk
    rw [hget k] at hk
    split at hk
    · rename_i hkey
      cases hk
      exact ⟨hstored, vote, hkey.symm, rfl⟩
    · split at hk
      · cases hk
      · exact h.names k n hk
  · exact CacheMap.held_insert h.valid (h.keyed n o ho w hw) fun hsame => hno n o ho w hw hsame

/-- A vote processed on its stored object, which takes it only when it has a key. -/
theorem processStoredVote_indexed (h : VotesIndexed voteHash evicted s) (hparent : vote.nParentHash = nHash)
    (hkey : (processStoredVote voteHash env s nHash vote).1 = .ok () →
      s.governance.mapVoteToObject.get (voteHash vote) = some nHash ∨ voteHash vote ∈ evicted) :
    VotesIndexed voteHash evicted (processStoredVote voteHash env s nHash vote).2 := by
  have huse : VotesIndexed voteHash evicted (useIndex s) := useIndex_indexed.2 h
  have hindex : (useIndex s).governance.mapVoteToObject = s.governance.mapVoteToObject := by
    unfold useIndex
    split <;> rfl
  cases ho : (useIndex s).governance.mapObjects[nHash]? with
  | none =>
    simp only [processStoredVote, getMasternodeIndex, ho]
    exact huse
  | some o =>
    obtain ⟨hanswer, hobj, horph, hvotes, -⟩ := processStoredVote_eq voteHash env vote ho
    refine huse.putVote ho hparent (fun w hw => ?_) (fun it hit => ?_) hobj horph hvotes
    · rcases mem_listVotes_processVote hw with hin | ⟨rfl, hok⟩
      · exact .inl hin
      · rw [hindex]
        exact .inr ⟨rfl, hkey (hanswer.trans hok)⟩
    · exact (mem_listItems_processVote hit).imp_right And.right

theorem processVote_indexed (h : VotesIndexed voteHash evicted s) (hno : NoCollision voteHash s vote) :
    VotesIndexed voteHash (evictedByVote voteHash env s vote evicted) (processVote voteHash env s vote).2 := by
  have huse : VotesIndexed voteHash evicted (useIndex s) := useIndex_indexed.2 h
  unfold evictedByVote
  rcases processVote_ends voteHash env s vote with ⟨e, he, hkeeps⟩ | ⟨e, he, heq⟩ | ⟨hok, hstored, heq⟩
  · rw [he]
    exact h.keeps hkeeps
  · rw [heq, he]
    exact processStoredVote_indexed h rfl fun hok => by rw [he] at hok; cases hok
  · rw [heq]
    rw [← useIndex_isSome] at hstored
    obtain ⟨p, hp⟩ := Option.isSome_iff_exists.1 hstored
    obtain ⟨-, hobj, horph, hvotes, -⟩ := processStoredVote_eq voteHash env vote hp
    have hno' : NoCollision voteHash (useIndex s) vote := by
      intro n q hq w hw
      obtain ⟨p, hp, hfile⟩ := useIndex_file hq
      rw [hfile] at hw
      exact hno n p hp w hw
    have hinsert := huse.insertKey hstored hno'
    have hindex : (useIndex s).governance.mapVoteToObject = s.governance.mapVoteToObject := by
      unfold useIndex
      split <;> rfl
    rw [← hindex]
    refine hinsert.putVote hp rfl (fun w hw => ?_) (fun it hit => ?_) hobj horph ?_
    · rcases mem_listVotes_processVote hw with hin | ⟨rfl, -⟩
      · exact .inl hin
      · refine .inr ⟨rfl, .inl ?_⟩
        exact ((CacheMap.insert_spec huse.valid _ _).2 _).trans (if_pos rfl)
    · exact (mem_listItems_processVote hit).imp_right And.right
    · show CacheMap.insert (processStoredVote voteHash env s vote.nParentHash vote).2.governance.mapVoteToObject _ _ = _
      rw [hvotes]
      rfl

/-! ### An object -/

theorem storeObject_indexed (h : VotesIndexed voteHash evicted s) {govobj : CGovernanceObject} (hnew : NoVotes govobj)
    (hnone : s.governance.mapObjects[govobj.hash]? = none) : VotesIndexed voteHash evicted (storeObject s govobj) := by
  obtain ⟨hfile, hwaiting, -⟩ := hnew
  have hlookup (n : Uint256) : (storeObject s govobj).governance.mapObjects[n]? =
      if n = govobj.hash then some govobj else s.governance.mapObjects[n]? := by
    show (s.governance.mapObjects.insertIfNew govobj.hash govobj)[n]? = _
    rw [lookup_insertIfNew, hnone]
    simp
  refine ⟨h.valid, fun k n hk => ?_, fun n o ho w hw => ?_, fun n o ho w hw => ?_, fun n o ho it hit => ?_, h.orphans⟩
  · obtain ⟨hsome, hvote⟩ := h.names k n hk
    refine ⟨?_, hvote⟩
    rw [hlookup]
    split
    · rfl
    · exact hsome
  all_goals rw [hlookup] at ho
  all_goals split at ho
  · cases ho
    rw [hfile] at hw
    cases hw
  · exact h.keyed n o ho w hw
  · cases ho
    rw [hfile] at hw
    cases hw
  · exact h.parent n o ho w hw
  · cases ho
    rw [hwaiting] at hit
    cases hit
  · exact h.waiting n o ho it hit

theorem votesIndexed_stable (voteHash : CGovernanceVote → Uint256) (evicted : List Uint256) :
    Stable (VotesIndexed voteHash evicted) where
  orphans _ h := h.orphans
  keeps _ _ h hk := h.keeps hk
  migrate _ h := useIndex_indexed.2 h
  store _ _ h hnew hnone := storeObject_indexed h hnew hnone

/-! ### The replay

  A vote that the replay could not take at its start it takes at no later turn: the index and
  the masternodes stay, and no instance gets an older vote. -/

structure Later (s s' : Node) : Prop where
  same : SameIndex s.mnodeman s'.mnodeman
  instances : ∀ (nHash : Uint256) o', s'.governance.mapObjects[nHash]? = some o' → ∃ o, s.governance.mapObjects[nHash]? = some o ∧
    ∀ i sig, (o.voteInstance i sig).nCreationTime ≤ (o'.voteInstance i sig).nCreationTime

theorem Later.refl : Later s s := ⟨.refl _, fun _ o h => ⟨o, h, fun _ _ => le_rfl⟩⟩

theorem Later.trans (h : Later s s') (h' : Later s' s'') : Later s s'' := by
  refine ⟨h.same.trans h'.same, fun n o'' ho'' => ?_⟩
  obtain ⟨o', ho', hle'⟩ := h'.instances n o'' ho''
  obtain ⟨o, ho, hle⟩ := h.instances n o' ho'
  exact ⟨o, ho, fun i sig => (hle i sig).trans (hle' i sig)⟩

theorem Later.takes (h : Later s s') (ht : Takes env s' nHash vote) : Takes env s nHash vote := by
  obtain ⟨o', ho', htime⟩ := ht.time
  obtain ⟨o, ho, hle⟩ := h.instances nHash o' ho'
  have hidx := ht.index
  have hvalid := ht.valid
  rw [h.same.index] at hidx htime
  rw [h.same.info] at hvalid
  exact ⟨hidx, ht.signal, ⟨o, ho, (hle _ _).trans htime⟩, hvalid⟩

theorem voteInstance_eq (o : CGovernanceObject) (i : Int) (sig : Nat) :
    o.voteInstance i sig = (o.instanceAt i sig).getD .none := by
  rw [CGovernanceObject.voteInstance, CGovernanceObject.recVote_lookup]

theorem nCreationTime_processVote (cx : VoteContext) (o : CGovernanceObject) (i j : Int) (sig : Nat) :
    (o.voteInstance j sig).nCreationTime ≤ ((o.processVote voteHash cx i vote).2.voteInstance j sig).nCreationTime := by
  rw [voteInstance_eq, voteInstance_eq]
  by_cases hj : j = i
  · subst hj
    by_cases hok : (o.processVote voteHash cx j vote).1 = .ok ()
    · obtain ⟨-, nTime, hinstance⟩ := CGovernanceObject.processVote_accepted hok
      obtain ⟨-, -, htime, -⟩ := processVote_ok hok
      rw [hinstance sig]
      split
      · rename_i hsig
        rw [voteInstance_eq, ← hsig] at htime
        exact htime
      · exact le_rfl
    · rcases CGovernanceObject.processVote_refused hok sig with heq | ⟨hnone, hempty⟩
      · rw [heq]
      · rw [hnone, hempty]
        rfl
  · rw [CGovernanceObject.instanceAt_congr (CGovernanceObject.processVote_other hj) sig]

theorem useIndex_of_migrated (h : s.mnodeman.fIndexRebuilt = false) : useIndex s = s := by simp [useIndex, h]

theorem processStoredVote_later (hflag : s.mnodeman.fIndexRebuilt = false) :
    Later s (processStoredVote voteHash env s nHash vote).2 := by
  have huse := useIndex_of_migrated hflag
  cases ho : s.governance.mapObjects[nHash]? with
  | none =>
    simp only [processStoredVote, getMasternodeIndex, huse, ho]
    exact .refl
  | some o =>
    obtain ⟨-, hobj, -, -, hsame⟩ := processStoredVote_eq voteHash env vote (s := s) (by rw [huse]; exact ho)
    rw [huse] at hobj hsame
    refine ⟨hsame, fun n o' ho' => ?_⟩
    rw [hobj, lookup_insert] at ho'
    split at ho'
    · rename_i hn
      cases ho'
      exact ⟨o, hn ▸ ho, fun i sig => nCreationTime_processVote _ o _ i sig⟩
    · exact ⟨o', ho', fun _ _ => le_rfl⟩

/-- What the turns of the replay keep: `s₀` is the node it starts on. -/
structure Replaying (voteHash : CGovernanceVote → Uint256) (env : Env) (evicted : List Uint256) (s₀ s : Node) : Prop where
  indexed : VotesIndexed voteHash evicted s
  later : Later s₀ s
  votes : s.governance.mapVoteToObject = s₀.governance.mapVoteToObject
  keyed : ∀ (nHash : Uint256) o, s.governance.mapObjects[nHash]? = some o → ∀ it ∈ o.mapOrphanVotes.listItems,
    (it.item.value.2 < env.adjustedTime ∨ s₀.mnodeman.has it.item.value.1.vinMasternode = true) →
    Takes env s₀ nHash it.item.value.1 →
    s₀.governance.mapVoteToObject.get (voteHash it.item.value.1) = some nHash ∨ voteHash it.item.value.1 ∈ evicted

theorem Replaying.migrated {s₀ : Node} (h : Replaying voteHash env evicted s₀ s) (hflag : s₀.mnodeman.fIndexRebuilt = false) :
    s.mnodeman.fIndexRebuilt = false := h.later.same.migrated.trans hflag

theorem Replaying.processStoredVote {s₀ : Node} (h : Replaying voteHash env evicted s₀ s)
    (hflag : s₀.mnodeman.fIndexRebuilt = false)
    (hparent : vote.nParentHash = nHash) (hkey : Takes env s₀ nHash vote →
      s₀.governance.mapVoteToObject.get (voteHash vote) = some nHash ∨ voteHash vote ∈ evicted) :
    Replaying voteHash env evicted s₀ (processStoredVote voteHash env s nHash vote).2 := by
  have hnow := h.migrated hflag
  have huse := useIndex_of_migrated hnow
  have hindexed : VotesIndexed voteHash evicted (Governance.processStoredVote voteHash env s nHash vote).2 :=
    processStoredVote_indexed h.indexed hparent fun hok => by
      rw [h.votes]
      exact hkey (h.later.takes (takes_of_processStoredVote hnow hok))
  cases ho : s.governance.mapObjects[nHash]? with
  | none =>
    have hstay : (Governance.processStoredVote voteHash env s nHash vote).2 = s := by
      simp only [Governance.processStoredVote, getMasternodeIndex, huse, ho]
    rw [hstay]
    exact h
  | some o =>
    obtain ⟨-, hobj, -, hvotes, hsame⟩ := processStoredVote_eq voteHash env vote (s := s) (by rw [huse]; exact ho)
    rw [huse] at hobj hvotes hsame
    refine ⟨hindexed, h.later.trans (processStoredVote_later hnow), hvotes.trans h.votes, fun n p hp it hit hdue ht => ?_⟩
    rw [hobj, lookup_insert] at hp
    split at hp
    · rename_i hn
      cases hp
      rcases mem_listItems_processVote hit with hin | ⟨hi, hvote⟩
      · exact h.keyed n o (hn ▸ ho) it hin hdue ht
      · -- a vote kept again has no index
        have hidx := ht.index
        rw [hvote, ← h.later.same.index] at hidx
        exact absurd hidx (by omega)
    · exact h.keyed n p hp it hit hdue ht

theorem Replaying.eraseWaiting {s₀ : Node} (h : Replaying voteHash env evicted s₀ s) (nHash : Uint256) (key : CTxIn)
    (p : VoteTimePair) :
    Replaying voteHash env evicted s₀ (s.putObjects (s.governance.mapObjects.modify nHash fun o =>
      { o with mapOrphanVotes := o.mapOrphanVotes.erase key p })) := by
  have hkeeps := eraseWaiting_keeps s nHash key p
  refine ⟨h.indexed.keeps hkeeps, h.later.trans ⟨.refl _, fun n o' ho' => ?_⟩, h.votes, fun n o' ho' it hit => ?_⟩
  · have ho' : (s.governance.mapObjects.modify nHash _)[n]? = some o' := ho'
    rw [lookup_modify] at ho'
    split at ho'
    · rename_i hn
      obtain ⟨o, ho, rfl⟩ := Option.map_eq_some_iff.1 ho'
      exact ⟨o, hn ▸ ho, fun _ _ => le_rfl⟩
    · exact ⟨o', ho', fun _ _ => le_rfl⟩
  · obtain ⟨o, ho, hkept⟩ := hkeeps.stored n o' ho'
    exact h.keyed n o ho it (hkept.waiting hit)

/-- One turn of `CGovernanceObject::CheckOrphanVotes`, on a vote that waits in the object. -/
theorem Replaying.checkObjectOrphanVote {s₀ : Node} (h : Replaying voteHash env evicted s₀ s)
    (hflag : s₀.mnodeman.fIndexRebuilt = false)
    {it : ListNode CTxIn VoteTimePair} (hparent : it.item.value.1.nParentHash = nHash)
    (hkey : (it.item.value.2 < env.adjustedTime ∨ s₀.mnodeman.has it.item.value.1.vinMasternode = true) →
      Takes env s₀ nHash it.item.value.1 →
      s₀.governance.mapVoteToObject.get (voteHash it.item.value.1) = some nHash ∨ voteHash it.item.value.1 ∈ evicted) :
    Replaying voteHash env evicted s₀ (checkObjectOrphanVote voteHash env nHash s it) := by
  simp only [Governance.checkObjectOrphanVote]
  split
  · exact h
  rename_i hgo
  have hdue : it.item.value.2 < env.adjustedTime ∨ s₀.mnodeman.has it.item.value.1.vinMasternode = true := by
    rw [← CMasternodeMan.has_congr h.later.same.outpoints]
    by_cases hexpired : it.item.value.2 < env.adjustedTime
    · exact .inl hexpired
    · exact .inr (by simpa [hexpired] using hgo)
  have hvoted := h.processStoredVote hflag hparent (hkey hdue)
  split
  · exact hvoted
  · exact hvoted.eraseWaiting nHash it.item.key it.item.value

theorem Replaying.checkObjectOrphanVotes {s₀ : Node} (h : Replaying voteHash env evicted s₀ s)
    (hflag : s₀.mnodeman.fIndexRebuilt = false)
    (nHash : Uint256) : Replaying voteHash env evicted s₀ (checkObjectOrphanVotes voteHash env s nHash) := by
  unfold Governance.checkObjectOrphanVotes
  split
  · exact h
  rename_i o ho
  apply List.foldlRecOn _ _ h
  intro t ht it hit
  exact ht.checkObjectOrphanVote hflag (h.indexed.waiting nHash o ho it hit) (h.keyed nHash o ho it hit)

variable (voteHash env) in
theorem useIndex_processStoredVote (s : Node) (nHash : Uint256) (vote : CGovernanceVote) :
    processStoredVote voteHash env (useIndex s) nHash vote = processStoredVote voteHash env s nHash vote ∧
      useIndex (processStoredVote voteHash env s nHash vote).2 = (processStoredVote voteHash env s nHash vote).2 := by
  have hflag := useIndex_migrated s
  have huse : useIndex (useIndex s) = useIndex s := useIndex_of_migrated hflag
  refine ⟨by simp only [processStoredVote, getMasternodeIndex, huse], useIndex_of_migrated ?_⟩
  have hlater : Later (useIndex s) (processStoredVote voteHash env (useIndex s) nHash vote).2 := processStoredVote_later hflag
  have hsame : processStoredVote voteHash env (useIndex s) nHash vote = processStoredVote voteHash env s nHash vote := by
    simp only [processStoredVote, getMasternodeIndex, huse]
  rw [← hsame, hlater.same.migrated, hflag]

theorem useIndex_checkObjectOrphanVote (s : Node) (nHash : Uint256) (it : ListNode CTxIn VoteTimePair) :
    useIndex (checkObjectOrphanVote voteHash env nHash s it) = checkObjectOrphanVote voteHash env nHash (useIndex s) it := by
  obtain ⟨hsame, hready⟩ := useIndex_processStoredVote voteHash env s nHash it.item.value.1
  have hhas : (useIndex s).mnodeman.has it.item.value.1.vinMasternode = s.mnodeman.has it.item.value.1.vinMasternode := by
    unfold useIndex
    split <;> rfl
  simp only [checkObjectOrphanVote, hhas, hsame]
  split
  · rfl
  split
  · exact hready
  · apply useIndex_of_migrated
    have hflag : (useIndex (processStoredVote voteHash env s nHash it.item.value.1).2).mnodeman.fIndexRebuilt = false :=
      useIndex_migrated _
    rw [hready] at hflag
    exact hflag

theorem useIndex_checkObjectOrphanVotes (s : Node) (nHash : Uint256) :
    useIndex (checkObjectOrphanVotes voteHash env s nHash) = checkObjectOrphanVotes voteHash env (useIndex s) nHash := by
  have hfold (l : List (ListNode CTxIn VoteTimePair)) (t : Node) :
      useIndex (l.foldl (checkObjectOrphanVote voteHash env nHash) t) = l.foldl (checkObjectOrphanVote voteHash env nHash)
        (useIndex t) :=
    (List.foldl_hom useIndex fun t it => (useIndex_checkObjectOrphanVote t nHash it).symm).symm
  have hlookup : (useIndex s).governance.mapObjects[nHash]?.map (·.mapOrphanVotes.listItems) =
      s.governance.mapObjects[nHash]?.map (·.mapOrphanVotes.listItems) := by
    unfold useIndex
    split
    · simp only [rebuildVoteMaps, Std.TreeMap.getElem?_map, Option.map_map]
      rfl
    · rfl
  unfold checkObjectOrphanVotes
  cases ho : s.governance.mapObjects[nHash]? with
  | none =>
    rw [ho, Option.map_none, Option.map_eq_none_iff] at hlookup
    rw [hlookup]
  | some o =>
    rw [ho] at hlookup
    obtain ⟨p, hp, hitems⟩ := Option.map_eq_some_iff.1 hlookup
    rw [hp]
    dsimp only
    rw [hfold, hitems]

theorem checkMasternodeOrphanVotes_indexed (h : VotesIndexed voteHash evicted s)
    (hkey : ReplaysKeyed voteHash env evicted (useIndex s)) :
    VotesIndexed voteHash evicted (checkMasternodeOrphanVotes voteHash env s) := by
  have hrates : useIndex (s.setRateChecks false) = (useIndex s).setRateChecks false := by
    unfold useIndex
    split
    · rename_i hflag
      rw [if_pos (by exact hflag)]
      rfl
    · rename_i hflag
      rw [if_neg (by exact hflag)]
  have hflag : ((useIndex s).setRateChecks false).mnodeman.fIndexRebuilt = false := useIndex_migrated s
  have hstart : Replaying voteHash env evicted ((useIndex s).setRateChecks false) ((useIndex s).setRateChecks false) := by
    refine ⟨(useIndex_indexed.2 h).keeps (.of_fields rfl rfl rfl rfl), .refl, rfl, fun n o ho it hit hdue ht => ?_⟩
    exact hkey n o ho it hit hdue ⟨ht.index, ht.signal, ht.time, ht.valid⟩
  have hlast : Replaying voteHash env evicted ((useIndex s).setRateChecks false)
      (useIndex (s.governance.mapObjects.keys.foldl (checkObjectOrphanVotes voteHash env) (s.setRateChecks false))) := by
    refine List.foldlRecOn (motive := fun t => Replaying voteHash env evicted ((useIndex s).setRateChecks false) (useIndex t)) _ _ ?_ ?_
    · rw [hrates]
      exact hstart
    · intro t ht n _
      rw [useIndex_checkObjectOrphanVotes]
      exact ht.checkObjectOrphanVotes hflag n
  exact (useIndex_indexed.1 hlast.indexed).keeps (.of_fields rfl rfl rfl rfl)

/-! ### Events -/

theorem updateCachesAndClean_indexed (h : VotesIndexed voteHash evicted s) :
    VotesIndexed voteHash evicted (updateCachesAndClean voteHash env s) := by
  have hforget : VotesIndexed voteHash evicted (forgetDirty s) := h.of_governance rfl
  exact (hforget.keeps (clearDirtyObjects_keeps env s)).keeps (updateCachesAndClean_keeps env s)

theorem doMaintenance_indexed (h : VotesIndexed voteHash evicted s) :
    VotesIndexed voteHash evicted (doMaintenance voteHash env s) := by
  unfold doMaintenance
  split
  · exact h
  · exact updateCachesAndClean_indexed (h.keeps (cleanOrphanObjects_keeps env s))

theorem notifyMasternodeUpdates_indexed (h : VotesIndexed voteHash evicted s) (hkey : s.mnodeman.fMasternodesAdded = true →
    ReplaysKeyed voteHash env evicted (useIndex (checkMasternodeOrphanObjects env s))) :
    VotesIndexed voteHash evicted (notifyMasternodeUpdates voteHash env s) := by
  have hadded : VotesIndexed voteHash evicted (notifyAdded voteHash env s) := by
    unfold notifyAdded
    split
    · rename_i hflag
      exact checkMasternodeOrphanVotes_indexed ((votesIndexed_stable voteHash evicted).checkMasternodeOrphanObjects h) (hkey hflag)
    · exact h
  simp only [notifyMasternodeUpdates]
  split
  · exact (updateCachesAndClean_indexed hadded).of_governance rfl
  · exact hadded.of_governance rfl

theorem next_indexed (h : VotesIndexed voteHash evicted s) (e : Event)
    (hok : KeysKept voteHash ⟨s, evicted⟩ (env, .event e)) :
    VotesIndexed voteHash (evictedByEvent voteHash env s evicted e) (next voteHash s (env, e)) := by
  cases e with
  | governanceObject => exact (votesIndexed_stable voteHash evicted).processObjectMessage h _ ⟨rfl, rfl, rfl⟩
  | governanceObjectVote nVersion vote =>
    simp only [next, evictedByEvent, processVoteMessage]
    by_cases hignored : env.ignoresMessages nVersion = true
    · simpa [hignored] using h
    by_cases hrequested : s.governance.setRequestedVotes.contains (voteHash vote) = true
    · have htake : VotesIndexed voteHash evicted (takeVoteRequest s (voteHash vote)) := h.keeps (.of_fields rfl rfl rfl rfl)
      have hvote : VotesIndexed voteHash _ (processVote voteHash env (takeVoteRequest s (voteHash vote)) vote).2 :=
        processVote_indexed htake hok
      simpa [hignored, hrequested] using hvote
    · simpa [hignored, hrequested] using h
  | ownVote vote => exact processVote_indexed h hok
  | confirmInventoryRequest => exact h.keeps (confirmInventoryRequest_keeps _)
  | doMaintenance => exact doMaintenance_indexed h
  | updatedBlockTip => exact h.keeps (.of_fields rfl rfl rfl rfl)
  | addMasternode => exact h.of_governance rfl
  | updateMasternode => exact h.of_governance rfl
  | removeSpent => exact h.of_governance rfl
  | checkAndRebuildMasternodeIndex =>
    simp only [next, evictedByEvent]
    split
    · exact h.of_governance rfl
    · exact h
  | notifyMasternodeUpdates => exact notifyMasternodeUpdates_indexed h hok

/-! ### A restart -/

theorem mem_voteRefs {g : CGovernanceManager} {nHashVote : Uint256} : (nHashVote, nHash) ∈ voteRefs voteHash g ↔
    ∃ o, g.mapObjects[nHash]? = some o ∧ ∃ vote ∈ o.fileVotes.listVotes, voteHash vote = nHashVote := by
  simp only [voteRefs, List.mem_flatMap, List.mem_map]
  constructor
  · intro h
    rcases h with ⟨it, hit, vote, hvote, heq⟩
    obtain ⟨rfl, rfl⟩ := Prod.mk.inj heq
    exact ⟨it.2, Std.TreeMap.mem_toList_iff_getElem?_eq_some.1 hit, vote, hvote, rfl⟩
  · intro h
    rcases h with ⟨o, ho, vote, hvote, rfl⟩
    exact ⟨(nHash, o), Std.TreeMap.mem_toList_iff_getElem?_eq_some.2 ho, vote, hvote, rfl⟩

theorem rebuildIndexes_indexed (hparent : ∀ (nHash : Uint256) o, s.governance.mapObjects[nHash]? = some o →
      ∀ vote ∈ o.fileVotes.listVotes, vote.nParentHash = nHash)
    (hwaiting : ∀ (nHash : Uint256) o, s.governance.mapObjects[nHash]? = some o → o.mapOrphanVotes.listItems = [])
    (horph : ∀ (nHash : Uint256) it, s.governance.mapMasternodeOrphanObjects[nHash]? = some it → NoVotes it.1)
    (hno : ∀ (nHash nHash' : Uint256) o o', s.governance.mapObjects[nHash]? = some o →
      s.governance.mapObjects[nHash']? = some o' →
      ∀ vote ∈ o.fileVotes.listVotes, ∀ vote' ∈ o'.fileVotes.listVotes, voteHash vote = voteHash vote' → nHash = nHash') :
    VotesIndexed voteHash (rebuildIndexes voteHash s.governance).2 (s.withGovernance (rebuildIndexes voteHash s.governance).1) := by
  have hrefs : ∀ it ∈ voteRefs voteHash s.governance, ∀ it' ∈ voteRefs voteHash s.governance, it.1 = it'.1 → it.2 = it'.2 := by
    rintro ⟨k, n⟩ hit ⟨k', n'⟩ hit' hk
    obtain ⟨o, ho, vote, hvote, rfl⟩ := mem_voteRefs.1 hit
    obtain ⟨o', ho', vote', hvote', rfl⟩ := mem_voteRefs.1 hit'
    exact hno n n' o o' ho ho' vote hvote vote' hvote' hk
  obtain ⟨hvalid, hfrom, hheld⟩ := CacheMap.insertAll_spec (c := s.governance.mapVoteToObject.clear) CacheMap.clear_valid [] _ hrefs
  refine ⟨hvalid, fun k n hk => ?_, fun n o ho vote hvote => ?_, hparent, fun n o ho it hit => ?_, horph⟩
  · rcases hfrom k n hk with hclear | hin
    · rw [CacheMap.get_clear] at hclear
      cases hclear
    · obtain ⟨o, ho, vote, hvote, rfl⟩ := mem_voteRefs.1 hin
      exact ⟨Option.isSome_iff_exists.2 ⟨o, ho⟩, vote, rfl, hparent n o ho vote hvote⟩
  · exact hheld (voteHash vote) n (.inl (mem_voteRefs.2 ⟨o, ho, vote, hvote, rfl⟩))
  · rw [hwaiting n o ho] at hit
    cases hit

variable (voteHash) in
theorem load_cases (env : Env) (s : Node) (fMncacheRead fGovernanceRead : Bool) :
    (load voteHash env s fMncacheRead fGovernanceRead).governance = .init ∨ ∃ t :
    Node, t.governance = readGovernance voteHash s.governance ∧
      Keeps t (load voteHash env s fMncacheRead fGovernanceRead) := by
  simp only [load]
  generalize (if fMncacheRead = true then readMasternodes s.mnodeman else CMasternodeMan.init) = m
  split
  · exact .inl rfl
  · exact .inr ⟨forgetDirty ⟨readGovernance voteHash s.governance, m, s.log⟩, rfl,
      (clearDirtyObjects_keeps env _).trans (updateCachesAndClean_keeps env _)⟩

/-- The stored objects were there before the restart, with the votes they have, and nothing
    waits in them. -/
theorem load_stored {fMncacheRead fGovernanceRead : Bool} {nHash : Uint256} {o' : CGovernanceObject}
    (h : (load voteHash env s fMncacheRead fGovernanceRead).governance.mapObjects[nHash]? = some o') :
    ∃ o, s.governance.mapObjects[nHash]? = some o ∧ o'.fileVotes.listVotes ⊆ o.fileVotes.listVotes ∧
      o'.mapOrphanVotes.listItems = [] := by
  rcases load_cases voteHash env s fMncacheRead fGovernanceRead with hinit | ⟨t, ht, hkeeps⟩
  · rw [hinit] at h
    simp [CGovernanceManager.init] at h
  · obtain ⟨p, hp, hkept⟩ := hkeeps.stored nHash o' h
    rw [ht] at hp
    have hp : (s.governance.mapObjects.map fun _ o => readObject voteHash o)[nHash]? = some p := hp
    rw [Std.TreeMap.getElem?_map] at hp
    obtain ⟨o, ho, rfl⟩ := Option.map_eq_some_iff.1 hp
    exact ⟨o, ho, hkept.file, List.subset_nil.1 hkept.waiting⟩

theorem load_orphans (fMncacheRead fGovernanceRead : Bool) (nHash : Uint256) (it : CGovernanceObject × Int)
    (h : (load voteHash env s fMncacheRead fGovernanceRead).governance.mapMasternodeOrphanObjects[nHash]? = some it) :
    NoVotes it.1 := by
  rcases load_cases voteHash env s fMncacheRead fGovernanceRead with hinit | ⟨t, ht, hkeeps⟩
  · rw [hinit] at h
    simp [CGovernanceManager.init] at h
  · rcases hkeeps.orphans nHash it h with hin | hnew
    · rw [ht] at hin
      simp [readGovernance, CGovernanceManager.init] at hin
    · exact hnew

theorem stepIndexed_indexed (s : IndexedNode) (ev : Env × NodeEvent) (s' : IndexedNode)
    (h : VotesIndexed voteHash s.evicted s.node)
    (hok : KeysKept voteHash s ev) (hs : stepIndexed voteHash s ev = some s') : VotesIndexed voteHash s'.evicted s'.node := by
  cases hs
  obtain ⟨env, e | ⟨fMncacheRead, fGovernanceRead⟩⟩ := ev
  · exact next_indexed h e hok
  · refine rebuildIndexes_indexed (fun n o' ho' vote hvote => ?_) (fun n o' ho' => ?_)
      (load_orphans fMncacheRead fGovernanceRead) (fun n n' p p' hp hp' vote hvote vote' hvote' => ?_)
    · obtain ⟨o, ho, hfile, -⟩ := load_stored ho'
      exact h.parent n o ho vote (hfile hvote)
    · obtain ⟨-, -, -, hwaiting⟩ := load_stored ho'
      exact hwaiting
    · obtain ⟨o, ho, hfile, -⟩ := load_stored hp
      obtain ⟨o', ho', hfile', -⟩ := load_stored hp'
      exact hok n n' o o' ho ho' vote (hfile hvote) vote' (hfile' hvote')

/-- In every run whose steps meet `KeysKept`, the entries of `mapVoteToObject` lead to the
    stored objects that the votes name, and every vote of a stored object is a key or evicted. -/
theorem votes_keyed (voteHash : CGovernanceVote → Uint256) (es : List (Env × NodeEvent)) (s : IndexedNode)
    (hm : Meets (stepIndexed voteHash) (KeysKept voteHash) .init es) (h : run (stepIndexed voteHash) .init es = some s) :
    IndexRight voteHash s :=
  VotesIndexed.right (run_inv_of_meets (fun s => VotesIndexed voteHash s.evicted s.node) stepIndexed_indexed hm init_indexed h)

def firstVoteRestart : List (Env × NodeEvent) := firstVote.map (fun ev => (ev.1, .event ev.2)) ++ [(network, .restart true true)]

theorem eq_of_keys (h : s.governance.mapObjects.keys = [nHash]) {n : Uint256} (ho : s.governance.mapObjects[n]? = some o) :
    n = nHash := by
  have hkey : n ∈ s.governance.mapObjects.keys := Std.TreeMap.mem_keys.2 (Std.TreeMap.mem_iff_contains.2 (contains_iff.2 ⟨o, ho⟩))
  rw [h] at hkey
  exact List.mem_singleton.1 hkey

theorem meets_stepIndexed_cons {s : IndexedNode} {ok : IndexedNode → Env × NodeEvent → Prop} {e : Env × NodeEvent}
    {es : List (Env × NodeEvent)} :
    Meets (stepIndexed voteHash) ok s (e :: es) ↔ ok s e ∧ Meets (stepIndexed voteHash) ok (nextIndexed voteHash s e) es :=
  meets_cons_total fun _ _ => rfl

theorem votes_keyed_firstVoteRestart :
    ∃ s, run (stepIndexed smallHash) .init firstVoteRestart = some s ∧ IndexRight smallHash s := by
  refine ⟨_, rfl, votes_keyed smallHash firstVoteRestart _ ?_ rfl⟩
  simp only [firstVoteRestart, firstVote, List.map_cons, List.map_nil, List.cons_append, List.nil_append, meets_stepIndexed_cons]
  refine ⟨trivial, trivial, trivial, trivial, fun n o ho w _ _ => ?_, fun n n' o o' ho ho' _ _ _ _ _ => ?_, trivial⟩
  · exact eq_of_keys rfl ho
  · have hn : n = 9 := eq_of_keys rfl ho
    have hn' : n' = 9 := eq_of_keys rfl ho'
    rw [hn, hn']

/-! ## A replayed vote -/

def voteBeforeMasternode : List (Env × NodeEvent) :=
  firstVote.map (fun ev => (ev.1, .event ev.2)) ++
    [(network, .event (.ownVote (fundingVote 1 9))), (network, .event (.addMasternode ⟨masternodeVin 1, [], ∅⟩)),
     (network, .event .notifyMasternodeUpdates)]

def voteReplayed : IndexedNode := voteBeforeMasternode.foldl (nextIndexed smallHash) .init

/-- The vote is in the proposal's file and no key of the map, which has evicted nothing. -/
theorem replayed_vote_unkeyed : run (stepIndexed smallHash) .init voteBeforeMasternode = some voteReplayed ∧
    ¬ IndexRight smallHash voteReplayed := by
  refine ⟨rfl, fun h => ?_⟩
  have hstored : voteReplayed.node.governance.mapObjects[(9 : Uint256)]?.isSome := rfl
  have hin : fundingVote 1 9 ∈ (voteReplayed.node.governance.mapObjects[(9 : Uint256)]?.get hstored).fileVotes.listVotes :=
    List.mem_cons_self
  rcases h.keyed 9 _ (Option.some_get hstored).symm _ hin with hkey | hevicted
  · cases hkey
  · cases hevicted

end Zumy.Governance
