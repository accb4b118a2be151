/-
  Zumy.Governance.Watchdogs — the current watchdog and the stored watchdogs.

  - `KeepsFlags`: a change that leaves every object its type and its two flags, and the
    current watchdog. Votes, orphan votes and the masternode list make only such changes.
  - `Watched`: the current watchdog is stored and not expired, and no other stored watchdog
    is free of both flags.
-/
import Zumy.Governance.Manager

namespace Zumy.Governance

open Lib Container Masternode

/-! ## Submitted objects -/

section

variable (voteHash : CGovernanceVote → Uint256)

/-- `AddSeenGovernanceObject` -/
def addSeenGovernanceObject (s : Node) (nHash : Uint256) (status : Nat) : Node :=
  s.withGovernance { s.governance with
    mapSeenGovernanceObjects := s.governance.mapSeenGovernanceObjects.insert nHash status }

/-- `gobject submit`, after the checks of the RPC server, which change nothing. -/
def submitObject (env : Env) (s : Node) (govobj : CGovernanceObject) : Node :=
  (addGovernanceObject env (addSeenGovernanceObject s govobj.hash seenObjectIsValid) govobj).2.2

inductive WatchdogEvent where
  | node (ev : Env × Event)
  | submit (env : Env) (hash : Uint256) (nObjectType nTime : Int) (vinMasternode : CTxIn) (vchSig : List UInt8)
      (fUnparsable : Bool)
  /-- `UpdateCachesAndClean` by itself. -/
  | clean (env : Env)

def watchdogNext (s : Node) : WatchdogEvent → Node
  | .node ev => next voteHash s ev
  | .submit env hash nObjectType nTime vin vchSig fUnparsable =>
    submitObject env s (.received hash nObjectType nTime vin vchSig fUnparsable)
  | .clean env => updateCachesAndClean voteHash env s

end

/-! ## The invariant -/

def LiveWatchdog (o : CGovernanceObject) : Prop :=
  o.nObjectType = governanceObjectWatchdog ∧ o.fExpired = false ∧ o.fCachedDelete = false

structure WatchdogsInOrder (g : CGovernanceManager) : Prop where
  current : g.nHashWatchdogCurrent = 0 ∨ g.mapObjects.contains g.nHashWatchdogCurrent = true
  atMostOne : ∀ (nHash nHash' : Uint256) o o', g.mapObjects[nHash]? = some o → g.mapObjects[nHash']? = some o' →
    LiveWatchdog o → LiveWatchdog o' → nHash = nHash'

structure Watched (g : CGovernanceManager) : Prop where
  current : g.nHashWatchdogCurrent = 0 ∨ ∃ o, g.mapObjects[g.nHashWatchdogCurrent]? = some o ∧
    o.nObjectType = governanceObjectWatchdog ∧ o.fExpired = false
  live : ∀ (nHash : Uint256) o, g.mapObjects[nHash]? = some o → LiveWatchdog o → nHash = g.nHashWatchdogCurrent
  fresh : ∀ (nHash : Uint256) it, g.mapMasternodeOrphanObjects[nHash]? = some it → it.1.fExpired = false

variable {voteHash : CGovernanceVote → Uint256} {env : Env} {s s' : Node} {nHash : Uint256} {o : CGovernanceObject}

theorem Watched.inOrder (h : Watched s.governance) : WatchdogsInOrder s.governance where
  current := by
    rcases h.current with hnull | ⟨o, ho, -⟩
    · exact .inl hnull
    · exact .inr (contains_iff.2 ⟨o, ho⟩)
  atMostOne nHash nHash' o o' ho ho' hlive hlive' := (h.live nHash o ho hlive).trans (h.live nHash' o' ho' hlive').symm

theorem init_watched : Watched Node.init.governance where
  current := .inl rfl
  live nHash o ho := by simp [Node.init, CGovernanceManager.init] at ho
  fresh nHash it hit := by simp [Node.init, CGovernanceManager.init] at hit

/-! ## What leaves the flags -/

def flags (o : CGovernanceObject) : Int × Bool × Bool := (o.nObjectType, o.fExpired, o.fCachedDelete)

structure KeepsFlags (s s' : Node) : Prop where
  current : s'.governance.nHashWatchdogCurrent = s.governance.nHashWatchdogCurrent
  objects : ∀ nHash : Uint256, s'.governance.mapObjects[nHash]?.map flags = s.governance.mapObjects[nHash]?.map flags
  orphans : ∀ (nHash : Uint256) it, s'.governance.mapMasternodeOrphanObjects[nHash]? = some it →
    s.governance.mapMasternodeOrphanObjects[nHash]? = some it ∨ it.1.fExpired = false

theorem Watched.keeps (h : Watched s.governance) (hs : KeepsFlags s s') : Watched s'.governance where
  current := by
    rw [hs.current]
    rcases h.current with hnull | ⟨o, ho, htype, hexpired⟩
    · exact .inl hnull
    · have hflags := hs.objects s.governance.nHashWatchdogCurrent
      rw [ho, Option.map_some, Option.map_eq_some_iff] at hflags
      obtain ⟨o', ho', heq⟩ := hflags
      simp only [flags, Prod.mk.injEq] at heq
      exact .inr ⟨o', ho', heq.1.trans htype, heq.2.1.trans hexpired⟩
  live nHash o' ho' hlive := by
    have hflags := hs.objects nHash
    rw [ho', Option.map_some, eq_comm, Option.map_eq_some_iff] at hflags
    obtain ⟨o, ho, heq⟩ := hflags
    simp only [flags, Prod.mk.injEq] at heq
    rw [hs.current]
    exact h.live nHash o ho ⟨heq.1.trans hlive.1, heq.2.1.trans hlive.2.1, heq.2.2.trans hlive.2.2⟩
  fresh nHash it hit := by
    rcases hs.orphans nHash it hit with hbefore | hnew
    · exact h.fresh nHash it hbefore
    · exact hnew

namespace KeepsFlags

theorem of_fields (hobj : s'.governance.mapObjects = s.governance.mapObjects)
    (horph : s'.governance.mapMasternodeOrphanObjects = s.governance.mapMasternodeOrphanObjects)
    (hcurrent : s'.governance.nHashWatchdogCurrent = s.governance.nHashWatchdogCurrent) : KeepsFlags s s' where
  current := hcurrent
  objects _ := by rw [hobj]
  orphans _ _ h := .inl (by rwa [horph] at h)

theorem refl : KeepsFlags s s := .of_fields rfl rfl rfl

theorem trans {t : Node} (h : KeepsFlags s t) (h' : KeepsFlags t s') : KeepsFlags s s' where
  current := h'.current.trans h.current
  objects nHash := (h'.objects nHash).trans (h.objects nHash)
  orphans nHash it hit := by
    rcases h'.orphans nHash it hit with hbefore | hnew
    · exact h.orphans nHash it hbefore
    · exact .inr hnew

theorem foldl {α : Type*} {f : Node → α → Node} (hf : ∀ s a, KeepsFlags s (f s a)) (l : List α) (s : Node) :
    KeepsFlags s (l.foldl f s) :=
  List.foldlRecOn l f .refl fun t ht a _ => ht.trans (hf t a)

theorem put {p : CGovernanceObject} (ho : s.governance.mapObjects[nHash]? = some o) (hp : flags p = flags o)
    (hobj : s'.governance.mapObjects = s.governance.mapObjects.insert nHash p)
    (horph : s'.governance.mapMasternodeOrphanObjects = s.governance.mapMasternodeOrphanObjects)
    (hcurrent : s'.governance.nHashWatchdogCurrent = s.governance.nHashWatchdogCurrent) : KeepsFlags s s' where
  current := hcurrent
  objects n := by
    rw [hobj, lookup_insert]
    split
    · rename_i hn
      rw [hn, ho, Option.map_some, Option.map_some, hp]
    · rfl
  orphans _ _ h := .inl (by rwa [horph] at h)

theorem modify (nHash : Uint256) (f : CGovernanceObject → CGovernanceObject) (hf : ∀ o, flags (f o) = flags o)
    (hobj : s'.governance.mapObjects = s.governance.mapObjects.modify nHash f)
    (horph : s'.governance.mapMasternodeOrphanObjects = s.governance.mapMasternodeOrphanObjects)
    (hcurrent : s'.governance.nHashWatchdogCurrent = s.governance.nHashWatchdogCurrent) : KeepsFlags s s' where
  current := hcurrent
  objects n := by
    rw [hobj, lookup_modify]
    split
    · rename_i hn
      rw [hn, Option.map_map]
      exact congrArg (fun g => s.governance.mapObjects[nHash]?.map g) (funext hf)
    · rfl
  orphans _ _ h := .inl (by rwa [horph] at h)

end KeepsFlags

theorem setRateChecks_keepsFlags (s : Node) (b : Bool) : KeepsFlags s (s.setRateChecks b) := .of_fields rfl rfl rfl

/-! ### Votes -/

theorem useIndex_keepsFlags (s : Node) : KeepsFlags s (useIndex s) := by
  unfold useIndex
  split
  · refine ⟨rfl, fun n => ?_, fun _ _ h => .inl h⟩
    show (s.governance.mapObjects.map fun _ o => o.rebuildVoteMap s.mnodeman)[n]?.map flags = _
    rw [Std.TreeMap.getElem?_map, Option.map_map]
    rfl
  · exact .refl

theorem noteVote_keepsFlags (s : Node) (vote : CGovernanceVote) (answer : Except VoteError Unit) :
    KeepsFlags s (noteVote voteHash s vote answer) := by
  unfold noteVote
  split <;> exact .of_fields rfl rfl rfl

theorem flags_processVote (voteHash : CGovernanceVote → Uint256) (cx : VoteContext) (o : CGovernanceObject) (nMNIndex : Int)
    (vote : CGovernanceVote) :
    flags (o.processVote voteHash cx nMNIndex vote).2 = flags o := by
  simp only [CGovernanceObject.processVote]
  repeat' split
  all_goals rfl

theorem processVoteOn_keepsFlags (s : Node) (o : CGovernanceObject) (vote : CGovernanceVote) :
    KeepsFlags s (processVoteOn voteHash env s o vote).2.1 := (useIndex_keepsFlags s).trans (noteVote_keepsFlags _ _ _)

theorem processStoredVote_keepsFlags (s : Node) (nHash : Uint256) (vote : CGovernanceVote) :
    KeepsFlags s (processStoredVote voteHash env s nHash vote).2 := by
  simp only [processStoredVote, getMasternodeIndex]
  split
  · exact useIndex_keepsFlags s
  · rename_i o ho
    have hflags := flags_processVote voteHash (voteContext env (useIndex s)) o
      ((useIndex s).mnodeman.indexMasternodes.getMasternodeIndex vote.vinMasternode) vote
    generalize o.processVote voteHash (voteContext env (useIndex s)) _ vote = r at hflags ⊢
    refine (useIndex_keepsFlags s).trans (KeepsFlags.trans (KeepsFlags.put ho hflags ?_ ?_ ?_) (noteVote_keepsFlags _ _ _))
    all_goals
      obtain ⟨e | ⟨⟨⟩⟩, o'⟩ := r
      all_goals rfl

theorem processVote_keepsFlags (s : Node) (vote : CGovernanceVote) : KeepsFlags s (processVote voteHash env s vote).2 := by
  simp only [processVote]
  split
  · exact .refl
  split
  · exact .of_fields rfl rfl rfl
  split
  · exact .refl
  have hstored : KeepsFlags s (processStoredVote voteHash env s vote.nParentHash vote).2 := processStoredVote_keepsFlags s _ vote
  split <;> rename_i heq <;> rw [heq] at hstored
  · exact hstored.trans (.of_fields rfl rfl rfl)
  · exact hstored

theorem checkOrphanVotes_keepsFlags (s : Node) (govobj : CGovernanceObject) :
    KeepsFlags s (checkOrphanVotes voteHash env s govobj) := by
  have hturn (r : Node × CGovernanceObject) (p : VoteTimePair) :
      KeepsFlags r.1 (checkOrphanVote voteHash env govobj.hash r p).1 := by
    obtain ⟨t, o⟩ := r
    simp only [checkOrphanVote]
    split
    · exact .of_fields rfl rfl rfl
    have hon : KeepsFlags t (processVoteOn voteHash env t o p.1).2.1 := processVoteOn_keepsFlags t o p.1
    split <;> rename_i heq <;> rw [heq] at hon
    · exact hon.trans (.of_fields rfl rfl rfl)
    · exact hon
  have hall (l : List VoteTimePair) :
      KeepsFlags s (l.foldl (checkOrphanVote voteHash env govobj.hash) (s.setRateChecks false, govobj)).1 :=
    List.foldlRecOn (motive := fun r : Node × CGovernanceObject => KeepsFlags s r.1) l _ (setRateChecks_keepsFlags s false)
      fun r hr p _ => hr.trans (hturn r p)
  exact (hall _).trans (setRateChecks_keepsFlags _ true)

theorem checkMasternodeOrphanVotes_keepsFlags (s : Node) : KeepsFlags s (checkMasternodeOrphanVotes voteHash env s) := by
  have hvote (nHash : Uint256) (t : Node) (it : ListNode CTxIn VoteTimePair) :
      KeepsFlags t (checkObjectOrphanVote voteHash env nHash t it) := by
    simp only [checkObjectOrphanVote]
    split
    · exact .refl
    have hstored : KeepsFlags t (processStoredVote voteHash env t nHash it.item.value.1).2 := processStoredVote_keepsFlags t _ _
    split
    · exact hstored
    · exact hstored.trans (.modify nHash (fun o => { o with mapOrphanVotes := o.mapOrphanVotes.erase it.item.key it.item.value })
        (fun _ => rfl) rfl rfl rfl)
  have hobject (t : Node) (nHash : Uint256) : KeepsFlags t (checkObjectOrphanVotes voteHash env t nHash) := by
    unfold checkObjectOrphanVotes
    split
    · exact .refl
    · exact .foldl (hvote nHash) _ t
  exact ((setRateChecks_keepsFlags s false).trans (.foldl hobject _ _)).trans (setRateChecks_keepsFlags _ true)

/-! ### Objects -/

theorem keepOrphanObject_keepsFlags {govobj : CGovernanceObject} (hnew : govobj.fExpired = false) :
    KeepsFlags s (keepOrphanObject env s govobj) where
  current := rfl
  objects _ := rfl
  orphans n it h := by
    have h : (s.governance.mapMasternodeOrphanObjects.insertIfNew govobj.hash _)[n]? = some it := h
    rcases of_lookup_insertIfNew h with ⟨-, rfl⟩ | h
    · exact .inr hnew
    · exact .inl h

theorem eraseOrphanObject_keepsFlags (s : Node) (nHash : Uint256) : KeepsFlags s (eraseOrphanObject s nHash) where
  current := rfl
  objects _ := rfl
  orphans n it h := by
    have h : (s.governance.mapMasternodeOrphanObjects.erase nHash)[n]? = some it := h
    exact .inl (of_lookup_erase h)

theorem clearDirtyObject_keepsFlags (s : Node) (nHash : Uint256) : KeepsFlags s (clearDirtyObject voteHash s nHash) := by
  have hturn (mnodeman : CMasternodeMan) (p : CGovernanceObject) (it : Int × VoteRec) :
      flags (p.clearRec voteHash mnodeman it) = flags p := by
    unfold CGovernanceObject.clearRec
    repeat' split
    all_goals rfl
  have hclear (mnodeman : CMasternodeMan) (o : CGovernanceObject) : flags (o.clearMasternodeVotes voteHash mnodeman) = flags o :=
    List.foldlRecOn (motive := fun p => flags p = flags o) _ _ rfl fun p hp it _ => (hturn mnodeman p it).trans hp
  unfold clearDirtyObject
  split
  · exact .refl
  · rename_i o ho
    have hdirty : flags { o.clearMasternodeVotes voteHash s.mnodeman with fDirtyCache := true } = flags o := hclear s.mnodeman o
    exact .put ho hdirty rfl rfl rfl

/-! ## What moves the current watchdog -/

theorem expireTrigger_watched (h : Watched s.governance) (nHash : Uint256) : Watched (expireTrigger env s nHash).governance where
  current := by
    rcases h.current with hnull | ⟨o, ho, htype, hexpired⟩
    · exact .inl hnull
    · have hkept : expireOutdated env.adjustedTime o = o := by
        unfold expireOutdated
        rw [if_neg (by rw [htype]; decide)]
      refine .inr ⟨o, ?_, htype, hexpired⟩
      show (s.governance.mapObjects.modify nHash _)[s.governance.nHashWatchdogCurrent]? = some o
      rw [lookup_modify]
      split
      · rename_i hn
        rw [← hn, ho, Option.map_some, hkept]
      · exact ho
  live n o' ho' hlive := by
    have ho' : (s.governance.mapObjects.modify nHash (expireOutdated env.adjustedTime))[n]? = some o' := ho'
    rw [lookup_modify] at ho'
    split at ho'
    · rename_i hn
      obtain ⟨o, ho, rfl⟩ := Option.map_eq_some_iff.1 ho'
      unfold expireOutdated at hlive
      split at hlive
      · cases hlive.2.1
      · exact h.live n o (hn ▸ ho) hlive
    · exact h.live n o' ho' hlive
  fresh := h.fresh

/-- The watchdog that leaves the map gets its flag, and is the current one no more. -/
theorem expireWatchdog_watched (h : Watched s.governance) (it : Uint256 × Int) :
    Watched (expireWatchdog env s it).governance := by
  unfold expireWatchdog
  split
  · constructor
    · by_cases hcur : it.1 = s.governance.nHashWatchdogCurrent
      · exact .inl (if_pos hcur)
      · rcases h.current with hnull | ⟨o, ho, hwatchdog⟩
        · exact .inl ((if_neg hcur).trans hnull)
        · refine .inr ⟨o, ?_, hwatchdog⟩
          show (s.governance.mapObjects.modify it.1 (expireObject env.adjustedTime))[
            if it.1 = s.governance.nHashWatchdogCurrent then 0 else s.governance.nHashWatchdogCurrent]? = some o
          rw [if_neg hcur, lookup_modify, if_neg (Ne.symm hcur)]
          exact ho
    · intro n o' ho' hlive
      have ho' : (s.governance.mapObjects.modify it.1 (expireObject env.adjustedTime))[n]? = some o' := ho'
      rw [lookup_modify] at ho'
      split at ho'
      · obtain ⟨o, -, rfl⟩ := Option.map_eq_some_iff.1 ho'
        cases hlive.2.1
      · rename_i hn
        have hcur := h.live n o' ho' hlive
        show n = if it.1 = s.governance.nHashWatchdogCurrent then 0 else s.governance.nHashWatchdogCurrent
        rw [if_neg (by rw [← hcur]; exact Ne.symm hn)]
        exact hcur
    · exact h.fresh
  · exact h

theorem storeObject_watched (h : Watched s.governance) {govobj : CGovernanceObject}
    (htype : govobj.nObjectType ≠ governanceObjectWatchdog) : Watched (storeObject s govobj).governance where
  current := by
    rcases h.current with hnull | ⟨o, ho, hwatchdog⟩
    · exact .inl hnull
    · refine .inr ⟨o, ?_, hwatchdog⟩
      show (s.governance.mapObjects.insertIfNew govobj.hash govobj)[s.governance.nHashWatchdogCurrent]? = some o
      rw [lookup_insertIfNew, if_neg]
      · exact ho
      · intro hnew
        rw [← hnew.1, ho] at hnew
        cases hnew.2
  live n o' ho' hlive := by
    have ho' : (s.governance.mapObjects.insertIfNew govobj.hash govobj)[n]? = some o' := ho'
    rcases of_lookup_insertIfNew ho' with ⟨-, rfl⟩ | ho'
    · exact absurd hlive.1 htype
    · exact h.live n o' ho' hlive
  fresh := h.fresh

/-- A watchdog that is accepted takes the place of the current one, which expires. -/
theorem acceptWatchdog_watched (h : Watched s.governance) {watchdogNew : CGovernanceObject}
    (htype : watchdogNew.nObjectType = governanceObjectWatchdog) (hexpired : watchdogNew.fExpired = false)
    (hnew : s.governance.mapObjects[watchdogNew.hash]? = none) (haccept : (updateCurrentWatchdog env s watchdogNew).1 = true) :
    Watched (storeObject (updateCurrentWatchdog env s watchdogNew).2 watchdogNew).governance := by
  have hupdate : (updateCurrentWatchdog env s watchdogNew).2 = s.withGovernance { s.governance with
      mapObjects := s.governance.mapObjects.modify s.governance.nHashWatchdogCurrent (expireObject env.now)
      nHashWatchdogCurrent := watchdogNew.hash
      nTimeWatchdogCurrent := watchdogNew.nTime } := by
    revert haccept
    simp only [updateCurrentWatchdog]
    split
    · intro _
      rfl
    · intro hno
      cases hno
  rw [hupdate]
  have hlookup (n : Uint256) : ((s.governance.mapObjects.modify s.governance.nHashWatchdogCurrent
      (expireObject env.now)).insertIfNew watchdogNew.hash watchdogNew)[n]? =
      if n = watchdogNew.hash then some watchdogNew
      else if n = s.governance.nHashWatchdogCurrent then s.governance.mapObjects[s.governance.nHashWatchdogCurrent]?.map (expireObject env.now)
      else s.governance.mapObjects[n]? := by
    rw [lookup_insertIfNew, lookup_modify, lookup_modify]
    have habsent : (if watchdogNew.hash = s.governance.nHashWatchdogCurrent then
        s.governance.mapObjects[s.governance.nHashWatchdogCurrent]?.map (expireObject env.now)
        else s.governance.mapObjects[watchdogNew.hash]?) = none := by
      split
      · rename_i hcur
        rw [← hcur, hnew]
        rfl
      · exact hnew
    rw [habsent]
    simp only [and_true]
  constructor
  · exact .inr ⟨watchdogNew, (hlookup _).trans (if_pos rfl), htype, hexpired⟩
  · intro n o' ho' hlive
    have ho' := (hlookup n).symm.trans ho'
    split at ho'
    · rename_i hn
      exact hn
    split at ho'
    · obtain ⟨o, -, rfl⟩ := Option.map_eq_some_iff.1 ho'
      cases hlive.2.1
    · rename_i hcur
      exact absurd (h.live n o' ho' hlive) hcur
  · exact h.fresh

theorem addGovernanceObject_watched (h : Watched s.governance) {govobj : CGovernanceObject} (hexpired : govobj.fExpired = false) :
    Watched (addGovernanceObject env s govobj).2.2.governance := by
  unfold addGovernanceObject
  split
  · exact h
  split
  · exact h
  rename_i hnew
  have hnew : s.governance.mapObjects[govobj.hash]? = none := contains_eq_false_iff.1 (Bool.eq_false_iff.2 hnew)
  split
  · rename_i htype
    split
    · exact h
    cases haccept : (updateCurrentWatchdog env s govobj).1 with
    | true =>
      simp only [haccept, Bool.not_true, Bool.false_eq_true, if_false]
      exact acceptWatchdog_watched h htype hexpired hnew haccept
    | false =>
      have hkept : (updateCurrentWatchdog env s govobj).2 = s := by
        simp only [updateCurrentWatchdog] at haccept ⊢
        split at haccept
        · cases haccept
        · rename_i hworse
          rw [if_neg hworse]
      simp only [haccept, Bool.not_false, if_true, hkept]
      exact h
  · rename_i htype
    exact storeObject_watched h htype

/-- An object goes back with its type and its expiry; flagged for deletion, it is not the current watchdog. -/
theorem putCleaned_watched (h : Watched s.governance) {p : CGovernanceObject} (ho : s.governance.mapObjects[nHash]? = some o)
    (htype : p.nObjectType = o.nObjectType) (hexpired : p.fExpired = o.fExpired)
    (hdelete : p.fCachedDelete = false → o.fCachedDelete = false) :
    Watched { s.governance with
      mapObjects := s.governance.mapObjects.insert nHash p
      nHashWatchdogCurrent :=
        if p.fCachedDelete ∧ nHash = s.governance.nHashWatchdogCurrent then 0 else s.governance.nHashWatchdogCurrent } where
  current := by
    by_cases hreset : p.fCachedDelete = true ∧ nHash = s.governance.nHashWatchdogCurrent
    · exact .inl (if_pos hreset)
    simp only [if_neg hreset, lookup_insert]
    rcases h.current with hnull | ⟨w, hw, hwatchdog⟩
    · exact .inl hnull
    · refine .inr ?_
      split
      · rename_i hcur
        rw [hcur, ho, Option.some.injEq] at hw
        exact ⟨p, rfl, htype.trans (hw ▸ hwatchdog.1), hexpired.trans (hw ▸ hwatchdog.2)⟩
      · exact ⟨w, hw, hwatchdog⟩
  live n o' ho' hlive := by
    simp only [lookup_insert] at ho'
    show n = if p.fCachedDelete = true ∧ nHash = s.governance.nHashWatchdogCurrent then 0 else s.governance.nHashWatchdogCurrent
    split at ho'
    · rename_i hn
      cases ho'
      rw [if_neg (fun hreset => by rw [hlive.2.2] at hreset; cases hreset.1), hn]
      exact h.live nHash o ho ⟨htype.symm.trans hlive.1, hexpired.symm.trans hlive.2.1, hdelete hlive.2.2⟩
    · rename_i hn
      have hcur := h.live n o' ho' hlive
      rw [if_neg (fun hreset => hn (hcur.trans hreset.2.symm))]
      exact hcur
  fresh := h.fresh

theorem eraseObject_watched (h : Watched s.governance) (p : CGovernanceObject)
    (hother : s.governance.nHashWatchdogCurrent = 0 ∨ s.governance.nHashWatchdogCurrent ≠ nHash) :
    Watched (eraseObject s nHash p).governance where
  current := by
    rcases h.current with hnull | ⟨w, hw, hwatchdog⟩
    · exact .inl hnull
    rcases hother with hnull | hne
    · exact .inl hnull
    · refine .inr ⟨w, ?_, hwatchdog⟩
      show (s.governance.mapObjects.erase nHash)[s.governance.nHashWatchdogCurrent]? = some w
      rw [lookup_erase, if_neg hne]
      exact hw
  live n o' ho' hlive := by
    have ho' : (s.governance.mapObjects.erase nHash)[n]? = some o' := ho'
    exact h.live n o' (of_lookup_erase ho') hlive
  fresh := h.fresh

theorem flags_updateSentinelVariables (o : CGovernanceObject) (nGovernanceMinQuorum countEnabled adjustedTime : Int) :
    (o.updateSentinelVariables nGovernanceMinQuorum countEnabled adjustedTime).nObjectType = o.nObjectType ∧
      (o.updateSentinelVariables nGovernanceMinQuorum countEnabled adjustedTime).fExpired = o.fExpired ∧
      ((o.updateSentinelVariables nGovernanceMinQuorum countEnabled adjustedTime).fCachedDelete = false →
        o.fCachedDelete = false) := by
  unfold CGovernanceObject.updateSentinelVariables
  split
  · exact ⟨rfl, rfl, id⟩
  · exact ⟨rfl, rfl, fun hno => (Bool.or_eq_false_iff.1 hno).1⟩

/-- One turn of the clean-up: what is erased has a flag, so it is not the current watchdog. -/
theorem cleanObject_watched (h : Watched s.governance) (nHash : Uint256) : Watched (cleanObject env s nHash).governance := by
  simp only [cleanObject]
  split
  · exact h
  rename_i o ho
  obtain ⟨p, hdef⟩ : ∃ p, (if o.fDirtyCache = true then
      o.updateSentinelVariables env.nGovernanceMinQuorum env.countEnabled env.adjustedTime else o) = p := ⟨_, rfl⟩
  obtain ⟨htype, hexpired, hdelete⟩ : p.nObjectType = o.nObjectType ∧ p.fExpired = o.fExpired ∧
      (p.fCachedDelete = false → o.fCachedDelete = false) := by
    rw [← hdef]
    split
    · exact flags_updateSentinelVariables o _ _ _
    · exact ⟨rfl, rfl, id⟩
  rw [hdef]
  have hput := putCleaned_watched h ho htype hexpired hdelete
  split
  · rename_i herase
    apply eraseObject_watched hput
    have hflagged : p.fCachedDelete = true ∨ p.fExpired = true := by
      rw [← Bool.or_eq_true]
      exact (Bool.and_eq_true_iff.1 herase).1
    show (if p.fCachedDelete = true ∧ nHash = s.governance.nHashWatchdogCurrent then 0 else s.governance.nHashWatchdogCurrent) = 0 ∨
      (if p.fCachedDelete = true ∧ nHash = s.governance.nHashWatchdogCurrent then 0 else s.governance.nHashWatchdogCurrent) ≠ nHash
    by_cases hcur : s.governance.nHashWatchdogCurrent = nHash
    · rcases hflagged with hdel | hexp
      · exact .inl (if_pos ⟨hdel, hcur.symm⟩)
      · rcases h.current with hnull | ⟨w, hw, -, hfresh⟩
        · left
          split
          · rfl
          · exact hnull
        · rw [hcur, ho, Option.some.injEq] at hw
          rw [hexpired, hw, hfresh] at hexp
          cases hexp
    · right
      rw [if_neg (fun hreset => hcur hreset.2.symm)]
      exact hcur
  · exact hput

/-! ## Messages and clean-ups -/

theorem expireWatchdogs_watched (h : Watched s.governance) : Watched (expireWatchdogs env s).governance := by
  unfold expireWatchdogs
  split
  · exact List.foldlRecOn (motive := fun t : Node => Watched t.governance) _ _ h fun t ht it _ => expireWatchdog_watched ht it
  · exact h

theorem updateCachesAndClean_watched (h : Watched s.governance) : Watched (updateCachesAndClean voteHash env s).governance := by
  have hexpire : Watched (expireWatchdogs env
      { s with mnodeman := { s.mnodeman with vecDirtyGovernanceObjectHashes := [] } }).governance := expireWatchdogs_watched h
  have hclear : Watched (clearDirtyObjects voteHash env s).governance := hexpire.keeps (.foldl clearDirtyObject_keepsFlags _ _)
  simp only [updateCachesAndClean]
  split
  · exact hclear
  have hrates := hclear.keeps (setRateChecks_keepsFlags _ false)
  have htriggers : Watched (env.outdatedTriggers.foldl (expireTrigger env)
      ((clearDirtyObjects voteHash env s).setRateChecks false)).governance :=
    List.foldlRecOn (motive := fun t : Node => Watched t.governance) _ _ hrates fun t ht nHash _ => expireTrigger_watched ht nHash
  have hclean (keys : List Uint256) (t : Node) (ht : Watched t.governance) :
      Watched (keys.foldl (cleanObject env) t).governance :=
    List.foldlRecOn (motive := fun t : Node => Watched t.governance) _ _ ht fun t ht nHash _ => cleanObject_watched ht nHash
  exact (hclean _ _ htriggers).keeps (setRateChecks_keepsFlags _ true)

theorem cleanOrphanObjects_keepsFlags (env : Env) (s : Node) : KeepsFlags s (cleanOrphanObjects env s) := by
  unfold cleanOrphanObjects
  apply KeepsFlags.foldl
  intro t it
  exact .of_fields rfl rfl rfl

theorem doMaintenance_watched (h : Watched s.governance) : Watched (doMaintenance voteHash env s).governance := by
  unfold doMaintenance
  split
  · exact h
  · exact updateCachesAndClean_watched (h.keeps (cleanOrphanObjects_keepsFlags env s))

theorem checkMasternodeOrphanObjects_watched (h : Watched s.governance) :
    Watched (checkMasternodeOrphanObjects env s).governance := by
  have hturn (t : Node) (it : Uint256 × CGovernanceObject × Int) (hfresh : it.2.1.fExpired = false) (ht : Watched t.governance) :
      Watched (checkMasternodeOrphanObject env t it).governance := by
    simp only [checkMasternodeOrphanObject]
    split
    · exact ht.keeps (eraseOrphanObject_keepsFlags _ _)
    split
    · split
      · exact ht.keeps (eraseOrphanObject_keepsFlags _ _)
      · exact ht
    split
    · exact (addGovernanceObject_watched ht hfresh).keeps (eraseOrphanObject_keepsFlags _ _)
    · exact addGovernanceObject_watched ht hfresh
  have hall : Watched (s.governance.mapMasternodeOrphanObjects.toList.foldl (checkMasternodeOrphanObject env)
      (s.setRateChecks false)).governance := by
    apply List.foldlRecOn (motive := fun t : Node => Watched t.governance) _ _ (h.keeps (setRateChecks_keepsFlags s false))
    intro t ht it hit
    exact hturn t it (h.fresh it.1 it.2 (Std.TreeMap.mem_toList_iff_getElem?_eq_some.1 hit)) ht
  exact hall.keeps (setRateChecks_keepsFlags _ true)

theorem notifyMasternodeUpdates_watched (h : Watched s.governance) :
    Watched (notifyMasternodeUpdates voteHash env s).governance := by
  have hadded : Watched (notifyAdded voteHash env s).governance := by
    unfold notifyAdded
    split
    · exact (checkMasternodeOrphanObjects_watched h).keeps (checkMasternodeOrphanVotes_keepsFlags _)
    · exact h
  simp only [notifyMasternodeUpdates]
  split
  · exact updateCachesAndClean_watched hadded
  · exact hadded

theorem processObjectMessage_watched (h : Watched s.governance) (nVersion : Int) {govobj : CGovernanceObject}
    (hexpired : govobj.fExpired = false) : Watched (processObjectMessage voteHash env s nVersion govobj).2.governance := by
  have htake : Watched (takeObjectRequest s govobj.hash).governance := h.keeps (.of_fields rfl rfl rfl)
  have hnew (t : Node) (ht : Watched t.governance) : Watched (processNewObject voteHash env t govobj).2.governance := by
    have hkeep : Watched (if (govobj.isValidLocally (validityContext env t) true).2 = true then keepOrphanObject env t govobj
        else t).governance := by
      split
      · exact ht.keeps (keepOrphanObject_keepsFlags hexpired)
      · exact ht
    have hupdated : (govobj.updateSentinelVariables env.nGovernanceMinQuorum env.countEnabled env.adjustedTime).fExpired = false :=
      (flags_updateSentinelVariables govobj _ _ _).2.1.trans hexpired
    have hmarkIf (b : Bool) (t : Node) (n : Uint256) : KeepsFlags t (if b = true then markSeen t n seenObjectIsValid else t) := by
      split
      · exact .of_fields rfl rfl rfl
      · exact .refl
    simp only [processNewObject]
    split
    · exact ht
    split
    · exact hkeep.keeps (.of_fields rfl rfl rfl)
    split
    · exact hkeep
    · exact ((addGovernanceObject_watched hkeep hupdated).keeps (hmarkIf _ _ _)).keeps (checkOrphanVotes_keepsFlags _ _)
  unfold processObjectMessage
  split
  · exact h
  split
  · exact h
  split
  · exact htake
  · exact hnew _ htake

theorem confirmInventoryRequest_keepsFlags (s : Node) (fVote : Bool) (hash : Uint256) :
    KeepsFlags s (confirmInventoryRequest s fVote hash) := by
  simp only [confirmInventoryRequest]
  repeat' split
  all_goals first | exact .refl | exact .of_fields rfl rfl rfl

theorem processVoteMessage_keepsFlags (s : Node) (nVersion : Int) (vote : CGovernanceVote) :
    KeepsFlags s (processVoteMessage voteHash env s nVersion vote) := by
  have htake : KeepsFlags s (takeVoteRequest s (voteHash vote)) := .of_fields rfl rfl rfl
  unfold processVoteMessage
  split
  · exact .refl
  split
  · exact .refl
  · exact htake.trans (processVote_keepsFlags _ vote)

/-- One event keeps the watchdogs in order: objects come and go, everything else leaves the flags. -/
theorem watchdogNext_watched (h : Watched s.governance) (ev : WatchdogEvent) :
    Watched (watchdogNext voteHash s ev).governance := by
  cases ev with
  | submit env hash nObjectType nTime vin vchSig fUnparsable =>
    have hseen : Watched (addSeenGovernanceObject s hash seenObjectIsValid).governance := h.keeps (.of_fields rfl rfl rfl)
    exact addGovernanceObject_watched hseen rfl
  | clean env => exact updateCachesAndClean_watched h
  | node ev =>
    obtain ⟨env, e⟩ := ev
    cases e with
    | governanceObject => exact processObjectMessage_watched h _ rfl
    | governanceObjectVote => exact h.keeps (processVoteMessage_keepsFlags _ _ _)
    | ownVote => exact h.keeps (processVote_keepsFlags _ _)
    | confirmInventoryRequest => exact h.keeps (confirmInventoryRequest_keepsFlags _ _ _)
    | doMaintenance => exact doMaintenance_watched h
    | updatedBlockTip => exact h.keeps (.of_fields rfl rfl rfl)
    | addMasternode => exact h
    | updateMasternode => exact h
    | removeSpent => exact h
    | checkAndRebuildMasternodeIndex =>
      simp only [watchdogNext, next]
      split <;> exact h
    | notifyMasternodeUpdates => exact notifyMasternodeUpdates_watched h

variable (voteHash) in
/-- After every sequence of events the current watchdog is null or stored, and at most one stored
    watchdog is neither expired nor flagged for deletion. -/
theorem watchdogs_in_order (evs : List WatchdogEvent) :
    WatchdogsInOrder (evs.foldl (watchdogNext voteHash) .init).governance := by
  apply Watched.inOrder
  exact List.foldlRecOn (motive := fun t : Node => Watched t.governance) evs _ init_watched
    fun t ht ev _ => watchdogNext_watched ht ev

end Zumy.Governance
