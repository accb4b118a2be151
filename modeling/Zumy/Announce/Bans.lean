/-
  Zumy.Announce.Bans — masternode.cpp: what the calls on a listed masternode leave of its
  state, its PoSe ban and its ban score.

  `Check` looks at the outpoint before the ban, so a banned masternode whose outpoint is
  spent becomes `OUTPOINT_SPENT`. `UpdateFromNewBroadcast` sets the height of the ban to 0.
  `CMasternodeBroadcast::Update` refuses a banned masternode before it gets there;
  `UpdateMasternodeList` does not.

  - `bans_lost`: a broadcast taken directly and a spent outpoint end a ban early.
-/
import Zumy.Announce.Listed

namespace Zumy.Announce

open Lib

def InBounds (nPoSeBanScore : Int) : Prop :=
  -masternodePoseBanMaxScore ≤ nPoSeBanScore ∧ nPoSeBanScore ≤ masternodePoseBanMaxScore

theorem inBounds_zero : InBounds 0 := ⟨by decide, by decide⟩

theorem inBounds_verified : InBounds (-masternodePoseBanMaxScore) := ⟨by decide, by decide⟩

/-! ## Calls -/

inductive Call where
  | check (vin : CTxIn) (fForce : Bool)
  | checkAll
  | increasePoSeBanScore (vin : CTxIn)
  | decreasePoSeBanScore (vin : CTxIn)
  | updateFromNewBroadcast (mnb : CMasternodeBroadcast)
  | updateMasternodeList (mnb : CMasternodeBroadcast)
  | checkMnbAndUpdateMasternodeList (pfrom : Option CNetAddr) (mnb : CMasternodeBroadcast)
  | mnPing (mnp : CMasternodePing)

/-- A call on what `Find` points at. -/
def CMasternodeMan.callFound (m : CMasternodeMan) (vin : CTxIn) (f : CMasternode → CMasternode) : CMasternodeMan :=
  match m.find vin with
  | none => m
  | some pmn => m.store (f pmn)

namespace Calls

def next (hs : Hashes) (m : CMasternodeMan) (e : Env × Call) : CMasternodeMan :=
  match e.2 with
  | .check vin fForce => m.callFound vin (·.check e.1 m.size fForce)
  | .checkAll => m.check e.1
  | .increasePoSeBanScore vin => m.callFound vin (·.increasePoSeBanScore)
  | .decreasePoSeBanScore vin => m.callFound vin (·.decreasePoSeBanScore)
  | .updateFromNewBroadcast mnb =>
    match m.find mnb.vin with
    | none => m
    | some pmn =>
      let (_, pmn, m) := pmn.updateFromNewBroadcast e.1 hs m mnb
      m.store pmn
  | .updateMasternodeList mnb => Announce.updateMasternodeList e.1 hs m mnb
  | .checkMnbAndUpdateMasternodeList pfrom mnb => (Announce.checkMnbAndUpdateMasternodeList e.1 hs m pfrom mnb).2.2
  | .mnPing mnp => Announce.mnPing e.1 hs m mnp

def step (hs : Hashes) (m : CMasternodeMan) (e : Env × Call) : Option CMasternodeMan := some (next hs m e)

/-- A broadcast of the outpoint that is taken without the checks of `Update`. -/
def TakesDirectly (o : COutPoint) : Call → Prop
  | .updateFromNewBroadcast mnb => mnb.vin.prevout = o
  | .updateMasternodeList mnb => mnb.vin.prevout = o
  | _ => False

end Calls

variable {env : Env} {hs : Hashes} {m m' : CMasternodeMan} {mn mn' pmn pmn' : CMasternode} {mnb : CMasternodeBroadcast}
  {mnp : CMasternodePing} {vin : CTxIn}

/-! ## One masternode -/

structure Kept (mn mn' : CMasternode) : Prop where
  vin : mn'.vin = mn.vin
  spent : mn.nActiveState = .outpointSpent → mn'.nActiveState = .outpointSpent
  score : InBounds mn.nPoSeBanScore → InBounds mn'.nPoSeBanScore

/-- What a call leaves that takes no broadcast directly: below its height a ban only ends with a spent outpoint. -/
structure KeepsBan (env : Env) (mn mn' : CMasternode) : Prop extends Kept mn mn' where
  banned : mn.nActiveState = .poseBan → env.height < mn.nPoSeBanHeight →
    (mn'.nActiveState = .poseBan ∧ mn'.nPoSeBanHeight = mn.nPoSeBanHeight) ∨
    (mn'.nActiveState = .outpointSpent ∧ env.coins mn.vin.prevout = none)

theorem Kept.trans {mn'' : CMasternode} (h : Kept mn mn') (h' : Kept mn' mn'') : Kept mn mn'' :=
  ⟨h'.vin.trans h.vin, fun hs => h'.spent (h.spent hs), fun hs => h'.score (h.score hs)⟩

theorem KeepsBan.refl (env : Env) (mn : CMasternode) : KeepsBan env mn mn :=
  ⟨⟨rfl, id, id⟩, fun hban _ => .inl ⟨hban, rfl⟩⟩

theorem KeepsBan.trans {mn'' : CMasternode} (h : KeepsBan env mn mn') (h' : KeepsBan env mn' mn'') : KeepsBan env mn mn'' where
  toKept := h.toKept.trans h'.toKept
  banned := by
    intro hban hheight
    rcases h.banned hban hheight with ⟨hban', hsame⟩ | ⟨hspent, hcoins⟩
    · rw [← hsame] at hheight
      rcases h'.banned hban' hheight with ⟨hban'', hsame'⟩ | ⟨hspent, hcoins⟩
      · exact .inl ⟨hban'', hsame'.trans hsame⟩
      · rw [h.vin] at hcoins
        exact .inr ⟨hspent, hcoins⟩
    · exact .inr ⟨h'.spent hspent, hcoins⟩

theorem keepsBan_of_same (hvin : mn'.vin = mn.vin) (hstate : mn'.nActiveState = mn.nActiveState)
    (hscore : InBounds mn.nPoSeBanScore → InBounds mn'.nPoSeBanScore) (hheight : mn'.nPoSeBanHeight = mn.nPoSeBanHeight) :
    KeepsBan env mn mn' where
  vin := hvin
  spent := fun h => hstate.trans h
  score := hscore
  banned := fun hban _ => .inl ⟨hstate.trans hban, hheight⟩

theorem increase_bounds (h : InBounds mn.nPoSeBanScore) : InBounds mn.increasePoSeBanScore.nPoSeBanScore := by
  obtain ⟨hlow, hhigh⟩ := h
  unfold CMasternode.increasePoSeBanScore
  split
  · constructor
    · show -masternodePoseBanMaxScore ≤ mn.nPoSeBanScore + 1
      omega
    · show mn.nPoSeBanScore + 1 ≤ masternodePoseBanMaxScore
      omega
  · exact ⟨hlow, hhigh⟩

theorem decrease_bounds (h : InBounds mn.nPoSeBanScore) : InBounds mn.decreasePoSeBanScore.nPoSeBanScore := by
  obtain ⟨hlow, hhigh⟩ := h
  unfold CMasternode.decreasePoSeBanScore
  split
  · constructor
    · show -masternodePoseBanMaxScore ≤ mn.nPoSeBanScore - 1
      omega
    · show mn.nPoSeBanScore - 1 ≤ masternodePoseBanMaxScore
      omega
  · exact ⟨hlow, hhigh⟩

theorem keepsBan_increase : KeepsBan env mn mn.increasePoSeBanScore := by
  apply keepsBan_of_same _ _ increase_bounds
  all_goals
    unfold CMasternode.increasePoSeBanScore
    split <;> rfl

theorem keepsBan_decrease : KeepsBan env mn mn.decreasePoSeBanScore := by
  apply keepsBan_of_same _ _ decrease_bounds
  all_goals
    unfold CMasternode.decreasePoSeBanScore
    split <;> rfl

theorem checkPings_eq (env : Env) (mn : CMasternode) :
    ∃ nActiveState, mn.checkPings env = { mn with nActiveState := nActiveState } := by
  unfold CMasternode.checkPings
  dsimp only
  repeat' split
  all_goals exact ⟨_, rfl⟩

theorem kept_checkPings (hspent : mn.nActiveState ≠ .outpointSpent) : Kept mn (mn.checkPings env) := by
  obtain ⟨nActiveState, heq⟩ := checkPings_eq env mn
  rw [heq]
  exact ⟨rfl, fun h => absurd h hspent, id⟩

theorem keepsBan_check (size : Nat) (fForce : Bool) : KeepsBan env mn (mn.check env size fForce) := by
  unfold CMasternode.check
  split
  · exact KeepsBan.refl env mn
  split
  · exact KeepsBan.refl env mn
  have hchecked : KeepsBan env mn { mn with nTimeLastChecked := env.getTime } := keepsBan_of_same rfl rfl id rfl
  refine hchecked.trans ?_
  generalize ({ mn with nTimeLastChecked := env.getTime } : CMasternode) = mn
  dsimp only
  split
  · exact KeepsBan.refl env mn
  rename_i hunspent
  have hunspent : mn.nActiveState ≠ .outpointSpent := by simpa [CMasternode.isOutpointSpent] using hunspent
  split
  · exact KeepsBan.refl env mn
  split
  · rename_i hcoins
    refine ⟨⟨rfl, fun _ => rfl, id⟩, fun _ _ => .inr ⟨rfl, ?_⟩⟩
    simpa using hcoins
  split
  · rename_i hban
    have hban : mn.nActiveState = .poseBan := by simpa [CMasternode.isPoSeBanned] using hban
    split
    · exact KeepsBan.refl env mn
    · rename_i hheight
      have hdecrease : KeepsBan env mn mn.decreasePoSeBanScore := keepsBan_decrease
      have hstate : mn.decreasePoSeBanScore.nActiveState = mn.nActiveState := by
        unfold CMasternode.decreasePoSeBanScore
        split <;> rfl
      exact ⟨hdecrease.toKept.trans (kept_checkPings (by rw [hstate]; exact hunspent)), fun _ hlow => absurd hlow hheight⟩
  · rename_i hban
    have hban : mn.nActiveState ≠ .poseBan := by simpa [CMasternode.isPoSeBanned] using hban
    split
    · exact ⟨⟨rfl, fun h => absurd h hunspent, id⟩, fun h => absurd h hban⟩
    · exact ⟨kept_checkPings hunspent, fun h => absurd h hban⟩

theorem keepsBan_checkAndUpdate (fFromNewBroadcast : Bool) :
    KeepsBan env pmn (mnp.checkAndUpdate env hs m pmn fFromNewBroadcast).2.2.1 := by
  unfold CMasternodePing.checkAndUpdate
  dsimp only
  split
  · exact KeepsBan.refl env pmn
  split
  · exact KeepsBan.refl env pmn
  split
  · exact KeepsBan.refl env pmn
  split
  · exact KeepsBan.refl env pmn
  · have hping : KeepsBan env pmn { pmn with lastPing := mnp } := keepsBan_of_same rfl rfl id rfl
    exact hping.trans (keepsBan_check _ _)

/-- A broadcast that is taken sets the ban back, and leaves a spent outpoint. -/
theorem kept_updateFromNewBroadcast : Kept pmn (pmn.updateFromNewBroadcast env hs m mnb).2.1 := by
  unfold CMasternode.updateFromNewBroadcast
  split
  · exact ⟨rfl, id, id⟩
  have hfields : Kept pmn (pmn.takeFields mnb) := ⟨rfl, id, fun _ => inBounds_zero⟩
  have hping : Kept (pmn.takeFields mnb) ((pmn.takeFields mnb).takeLastPing env hs m mnb).1 := by
    unfold CMasternode.takeLastPing
    split
    · exact ⟨rfl, id, id⟩
    · have hupdate : Kept (pmn.takeFields mnb) (mnb.lastPing.checkAndUpdate env hs m (pmn.takeFields mnb) true).2.2.1 :=
        (keepsBan_checkAndUpdate true).toKept
      dsimp only
      split
      · exact ⟨hupdate.vin, hupdate.spent, hupdate.score⟩
      · exact hupdate
  have htaken := hfields.trans hping
  dsimp only
  split
  · split
    · exact ⟨htaken.vin, htaken.spent, fun _ => inBounds_verified⟩
    · exact ⟨htaken.vin, htaken.spent, fun _ => inBounds_verified⟩
  · exact htaken

theorem keepsBan_checkUpdate (mnb : CMasternodeBroadcast) (size : Nat) : KeepsBan env pmn (mnb.checkUpdate env size pmn).2.2 := by
  have hcheck : KeepsBan env pmn (pmn.check env size false) := keepsBan_check size false
  unfold CMasternodeBroadcast.checkUpdate
  dsimp only
  split
  · exact KeepsBan.refl env pmn
  split
  · exact KeepsBan.refl env pmn
  split
  · exact hcheck
  split
  · exact hcheck
  · exact hcheck

theorem checkUpdate_not_banned (env : Env) (mnb : CMasternodeBroadcast) (size : Nat) (pmn : CMasternode)
    (h : (mnb.checkUpdate env size pmn).1 = true) : (mnb.checkUpdate env size pmn).2.2.nActiveState ≠ .poseBan := by
  unfold CMasternodeBroadcast.checkUpdate at h ⊢
  dsimp only at h ⊢
  split at h
  · cases h
  rename_i hequal
  rw [if_neg hequal]
  split at h
  · cases h
  rename_i holder
  rw [if_neg holder]
  split at h
  · cases h
  rename_i hban
  rw [if_neg hban]
  have hban : (pmn.check env size false).nActiveState ≠ .poseBan := by simpa [CMasternode.isPoSeBanned] using hban
  split
  · exact hban
  · exact hban

theorem keepsBan_update : KeepsBan env pmn (mnb.update env hs m pmn).2.2.1 := by
  have hchecked : KeepsBan env pmn (mnb.checkUpdate env m.size pmn).2.2 := keepsBan_checkUpdate mnb m.size
  have hnot := checkUpdate_not_banned env mnb m.size pmn
  unfold CMasternodeBroadcast.update
  generalize mnb.checkUpdate env m.size pmn = r at hchecked hnot
  obtain ⟨fOk, nDos, pmn'⟩ := r
  dsimp only at hchecked hnot ⊢
  cases fOk with
  | false => exact hchecked
  | true =>
    rw [Bool.not_true, if_neg Bool.false_ne_true]
    split
    · have htaken : Kept pmn' (pmn'.updateFromNewBroadcast env hs m mnb).2.1 := kept_updateFromNewBroadcast
      generalize pmn'.updateFromNewBroadcast env hs m mnb = r at htaken
      obtain ⟨fUpdated, pmn'', m''⟩ := r
      have hlast : Kept pmn' (if fUpdated then pmn''.check env m''.size false else pmn'') := by
        split
        · have hcheck : KeepsBan env pmn'' (pmn''.check env m''.size false) := keepsBan_check _ _
          exact htaken.trans hcheck.toKept
        · exact htaken
      refine ⟨hchecked.toKept.trans hlast, fun hban hheight => ?_⟩
      -- a ban below its height has stopped the update, or the outpoint is spent by now
      rcases hchecked.banned hban hheight with ⟨hstill, -⟩ | ⟨hspent, hcoins⟩
      · exact absurd hstill (hnot rfl)
      · exact .inr ⟨hlast.spent hspent, hcoins⟩
    · exact hchecked

/-! ## The list -/

/-- Every place of the list still has its masternode, changed as `R` allows. -/
def Places (R : CMasternode → CMasternode → Prop) (l l' : List CMasternode) : Prop :=
  ∀ (i : Nat) (mn : CMasternode), l[i]? = some mn → ∃ mn', l'[i]? = some mn' ∧ R mn mn'

section Places

variable {R : CMasternode → CMasternode → Prop} {l l' : List CMasternode}

theorem places_same (hrefl : ∀ mn, R mn mn) (h : l' = l) : Places R l l' := fun i mn hi => ⟨mn, by rw [h]; exact hi, hrefl mn⟩

theorem places_append (hrefl : ∀ mn, R mn mn) (l₂ : List CMasternode) : Places R l (l ++ l₂) := by
  intro i mn hi
  have hlt : i < l.length := (List.getElem?_eq_some_iff.1 hi).1
  exact ⟨mn, by rw [List.getElem?_append_left hlt, hi], hrefl mn⟩

theorem places_map {f : CMasternode → CMasternode} (h : ∀ mn, R mn (f mn)) : Places R l (l.map f) := by
  intro i mn hi
  exact ⟨f mn, by rw [List.getElem?_map, hi, Option.map_some], h mn⟩

theorem places_store (hrefl : ∀ mn, R mn mn) (hfind : m.find vin = some pmn) (hlisted : m'.vMasternodes = m.vMasternodes)
    (hvin : pmn'.vin = pmn.vin) (h : R pmn pmn') : Places R m.vMasternodes (m'.store pmn').vMasternodes := by
  obtain ⟨-, as, bs, hlist, hstored⟩ := find_store hfind hlisted hvin
  intro i mn hi
  rw [hstored]
  rw [hlist] at hi
  rcases Nat.lt_trichotomy i as.length with hlt | heq | hgt
  · rw [List.getElem?_append_left hlt] at hi ⊢
    exact ⟨mn, hi, hrefl mn⟩
  · rw [List.getElem?_append_right (by omega), heq, Nat.sub_self] at hi ⊢
    cases hi
    exact ⟨pmn', rfl, h⟩
  · rw [List.getElem?_append_right (by omega)] at hi ⊢
    obtain ⟨k, hk⟩ : ∃ k, i - as.length = k + 1 := ⟨i - as.length - 1, by omega⟩
    rw [hk, List.getElem?_cons_succ] at hi ⊢
    exact ⟨mn, hi, hrefl mn⟩

end Places

def Called (e : Env × Call) (mn mn' : CMasternode) : Prop :=
  Kept mn mn' ∧ (¬ Calls.TakesDirectly mn.vin.prevout e.2 → KeepsBan e.1 mn mn')

theorem KeepsBan.called {call : Call} (h : KeepsBan env mn mn') : Called (env, call) mn mn' := ⟨h.toKept, fun _ => h⟩

theorem called_refl (e : Env × Call) (mn : CMasternode) : Called e mn mn := (KeepsBan.refl e.1 mn).called

theorem places_callFound {call : Call} {f : CMasternode → CMasternode} (h : ∀ pmn, KeepsBan env pmn (f pmn)) :
    Places (Called (env, call)) m.vMasternodes (m.callFound vin f).vMasternodes := by
  unfold CMasternodeMan.callFound
  split
  · exact places_same (called_refl _) rfl
  · rename_i pmn hfind
    exact places_store (called_refl _) hfind rfl (h pmn).vin (h pmn).called

theorem places_updateListed {call : Call} (hfind : m.find vin = some pmn) :
    Places (Called (env, call)) m.vMasternodes (updateListed env hs m mnb pmn).2.2.vMasternodes := by
  rw [updateListed_listed]
  have hkeeps : KeepsBan env pmn (mnb.update env hs (m.seenAt env (pmn.getHash hs)).2 pmn).2.2.1 := keepsBan_update
  exact places_store (called_refl _) hfind (update_listed.trans (seenAt_listed _ _ _)) hkeeps.vin hkeeps.called

theorem places_checkMnb {call : Call} (pfrom : Option CNetAddr) (mnb : CMasternodeBroadcast) :
    Places (Called (env, call)) m.vMasternodes (checkMnbAndUpdateMasternodeList env hs m pfrom mnb).2.2.vMasternodes := by
  unfold checkMnbAndUpdateMasternodeList
  split
  · rename_i nTime mnbSeen _ _
    refine places_same (called_refl _) ?_
    rw [(takeReply_same env hs _ pfrom mnb mnbSeen).1, (bumpSeen_same env m _ nTime).1]
  · dsimp only
    split
    · exact places_same (called_refl _) rfl
    split
    · rename_i pmn hfind
      have hsee : Places (Called (env, call)) (m.see env hs mnb).vMasternodes
          (updateListed env hs (m.see env hs mnb) (mnb.simpleCheck env).2.2 pmn).2.2.vMasternodes := places_updateListed hfind
      exact hsee
    · obtain ⟨l, hl⟩ := addListed_listed env hs (m.see env hs mnb) (mnb.simpleCheck env).2.2 (mnb.simpleCheck env).2.1
      rw [hl]
      exact places_append (called_refl _) l

theorem places_mnPing {call : Call} : Places (Called (env, call)) m.vMasternodes (mnPing env hs m mnp).vMasternodes := by
  unfold mnPing
  split
  · exact places_same (called_refl _) rfl
  split
  · exact places_same (called_refl _) rfl
  dsimp only
  split
  · exact places_same (called_refl _) rfl
  rename_i pmn hfind
  split
  · exact places_same (called_refl _) rfl
  · have hkeeps : Keeps (m.seePing hs mnp) pmn (mnp.checkAndUpdate env hs (m.seePing hs mnp) pmn false).2.2 :=
      checkAndUpdate_keeps false
    have hban : KeepsBan env pmn (mnp.checkAndUpdate env hs (m.seePing hs mnp) pmn false).2.2.1 := keepsBan_checkAndUpdate false
    have hplaces : Places (Called (env, call)) (m.seePing hs mnp).vMasternodes _ :=
      places_store (called_refl _) hfind hkeeps.listed hban.vin hban.called
    exact hplaces

theorem called_direct {call : Call} (h : Kept mn mn') (hdirect : Calls.TakesDirectly mn.vin.prevout call) :
    Called (env, call) mn mn' := ⟨h, fun hno => absurd hdirect hno⟩

theorem places_updateMasternodeList :
    Places (Called (env, .updateMasternodeList mnb)) m.vMasternodes (updateMasternodeList env hs m mnb).vMasternodes := by
  unfold updateMasternodeList
  dsimp only
  split
  · unfold CMasternodeMan.add
    split
    · exact places_same (called_refl _) rfl
    · exact places_append (called_refl _) _
  · rename_i pmn hfind
    generalize hm : (m.seePing hs mnb.lastPing).see env hs mnb = t at hfind
    have hlisted : t.vMasternodes = m.vMasternodes := by
      rw [← hm]
      rfl
    have hat : pmn.vin.prevout = mnb.vin.prevout := by simpa [isAt] using List.find?_some hfind
    have hkept : Kept pmn (pmn.updateFromNewBroadcast env hs (t.seenAt env (pmn.getHash hs)).2 mnb).2.1 :=
      kept_updateFromNewBroadcast
    have hseen : (pmn.updateFromNewBroadcast env hs (t.seenAt env (pmn.getHash hs)).2 mnb).2.2.vMasternodes = t.vMasternodes :=
      updateFromNewBroadcast_listed.trans (seenAt_listed _ _ _)
    rw [← hlisted]
    have hplaces := places_store (called_refl (env, .updateMasternodeList mnb)) hfind hseen hkept.vin
      (called_direct hkept hat.symm)
    split
    · exact hplaces
    · exact hplaces

theorem places_next (hs : Hashes) (m : CMasternodeMan) (e : Env × Call) :
    Places (Called e) m.vMasternodes (Calls.next hs m e).vMasternodes := by
  obtain ⟨env, call⟩ := e
  cases call with
  | check vin fForce => exact places_callFound fun pmn => keepsBan_check m.size fForce
  | checkAll => exact places_map fun mn => (keepsBan_check m.size false).called
  | increasePoSeBanScore vin => exact places_callFound fun pmn => keepsBan_increase
  | decreasePoSeBanScore vin => exact places_callFound fun pmn => keepsBan_decrease
  | updateFromNewBroadcast mnb =>
    unfold Calls.next
    dsimp only
    split
    · exact places_same (called_refl _) rfl
    · rename_i pmn hfind
      have hat : pmn.vin.prevout = mnb.vin.prevout := by simpa [isAt] using List.find?_some hfind
      have hkept : Kept pmn (pmn.updateFromNewBroadcast env hs m mnb).2.1 := kept_updateFromNewBroadcast
      exact places_store (called_refl _) hfind updateFromNewBroadcast_listed hkept.vin (called_direct hkept hat.symm)
  | updateMasternodeList mnb => exact places_updateMasternodeList
  | checkMnbAndUpdateMasternodeList pfrom mnb => exact places_checkMnb pfrom mnb
  | mnPing mnp => exact places_mnPing

/-! ## Runs -/

def HeightsRise (es : List (Env × Call)) : Prop := es.Pairwise fun e e' => e.1.height ≤ e'.1.height

/-- The outpoint has its coins at every call, and no call takes a broadcast of it directly. -/
def Undisturbed (o : COutPoint) (es : List (Env × Call)) : Prop :=
  ∀ e ∈ es, ¬ Calls.TakesDirectly o e.2 ∧ e.1.coins o ≠ none

theorem height_lt_of_last {nHeight : Int} {es : List (Env × Call)} (hrise : HeightsRise es)
    (hlast : ∀ e ∈ es.getLast?, e.1.height < nHeight) : ∀ e ∈ es, e.1.height < nHeight := by
  intro e he
  obtain ⟨l, e', rfl⟩ := (List.eq_nil_or_concat es).resolve_left (List.ne_nil_of_mem he)
  have he' : e'.1.height < nHeight := hlast e' (by simp)
  rw [List.concat_eq_append] at he hrise
  rcases List.mem_append.1 he with hin | heq
  · exact lt_of_le_of_lt ((List.pairwise_append.1 hrise).2.2 e hin e' (by simp)) he'
  · rw [List.mem_singleton.1 heq]
    exact he'

theorem kept_run {es : List (Env × Call)} (hrun : run (Calls.step hs) m es = some m') {i : Nat}
    (hi : m.vMasternodes[i]? = some mn) :
    ∃ mn', m'.vMasternodes[i]? = some mn' ∧ Kept mn mn' := by
  induction es generalizing m mn with
  | nil =>
    cases hrun
    exact ⟨mn, hi, rfl, id, id⟩
  | cons e es ih =>
    obtain ⟨mn₁, hi₁, hkept, -⟩ := places_next hs m e i mn hi
    obtain ⟨mn', hi', hrest⟩ := ih hrun hi₁
    exact ⟨mn', hi', hkept.trans hrest⟩

/-- The induction is on the calls: each leaves the ban with its height. -/
theorem banned_run {es : List (Env × Call)} (hrun : run (Calls.step hs) m es = some m') {i : Nat}
    (hi : m.vMasternodes[i]? = some mn)
    (hban : mn.nActiveState = .poseBan) (hquiet : Undisturbed mn.vin.prevout es)
    (hheights : ∀ e ∈ es, e.1.height < mn.nPoSeBanHeight) :
    ∃ mn', m'.vMasternodes[i]? = some mn' ∧ mn'.nActiveState = .poseBan ∧ mn'.nPoSeBanHeight = mn.nPoSeBanHeight := by
  induction es generalizing m mn with
  | nil =>
    cases hrun
    exact ⟨mn, hi, hban, rfl⟩
  | cons e es ih =>
    obtain ⟨mn₁, hi₁, hkept, hkeeps⟩ := places_next hs m e i mn hi
    obtain ⟨hdirect, hcoins⟩ := hquiet e (by simp)
    rcases (hkeeps hdirect).banned hban (hheights e (by simp)) with ⟨hban₁, hsame⟩ | ⟨-, hnone⟩
    · have hquiet₁ : Undisturbed mn₁.vin.prevout es := by
        rw [hkept.vin]
        exact fun e' he' => hquiet e' (List.mem_cons_of_mem e he')
      have hheights₁ : ∀ e' ∈ es, e'.1.height < mn₁.nPoSeBanHeight := by
        rw [hsame]
        exact fun e' he' => hheights e' (List.mem_cons_of_mem e he')
      obtain ⟨mn', hi', hban', hsame'⟩ := ih hrun hi₁ hban₁ hquiet₁ hheights₁
      exact ⟨mn', hi', hban', hsame'.trans hsame⟩
    · exact absurd hnone hcoins

/-- Along every run a masternode stays spent once it is, and its ban score in its range; at heights below its
    end a ban stays, as long as the outpoint is unspent and no broadcast is taken without `Update`. -/
theorem bans_kept (hs : Hashes) (m : CMasternodeMan) (es : List (Env × Call)) (i : Nat) (mn : CMasternode)
    (hi : m.vMasternodes[i]? = some mn) :
    ∃ m' mn', run (Calls.step hs) m es = some m' ∧ m'.vMasternodes[i]? = some mn' ∧ mn'.vin = mn.vin ∧
      (mn.nActiveState = .outpointSpent → mn'.nActiveState = .outpointSpent) ∧
      (InBounds mn.nPoSeBanScore → InBounds mn'.nPoSeBanScore) ∧
      (mn.nActiveState = .poseBan → HeightsRise es → (∀ e ∈ es.getLast?, e.1.height < mn.nPoSeBanHeight) →
        Undisturbed mn.vin.prevout es → mn'.nActiveState = .poseBan ∧ mn'.nPoSeBanHeight = mn.nPoSeBanHeight) := by
  have hrun : run (Calls.step hs) m es = some (es.foldl (Calls.next hs) m) := run_total (fun _ _ => rfl) m es
  obtain ⟨mn', hi', hkept⟩ := kept_run hrun hi
  refine ⟨_, mn', hrun, hi', hkept.vin, hkept.spent, hkept.score, fun hban hrise hlast hquiet => ?_⟩
  obtain ⟨mn'', hi'', hban', hsame⟩ := banned_run hrun hi hban hquiet (height_lt_of_last hrise hlast)
  rw [hi'] at hi''
  cases hi''
  exact ⟨hban', hsame⟩

/-! ## A ban that ends early -/

def bannedMasternode : CMasternode :=
  { (Announcement.read ⟨inputOf 1, ⟨[10, 0, 0, 1], 32000⟩, [1], [2], [1], 1000, 80005, nullPing⟩).toMasternode with
    nActiveState := .poseBan
    nPoSeBanScore := 5
    nPoSeBanHeight := 100 }

def bannedList : CMasternodeMan := { CMasternodeMan.init with vMasternodes := [bannedMasternode] }

/-- A newer broadcast of it goes past `Update`, at height 19. -/
def directRun : List (Env × Call) :=
  [(sampleEnv 2000, .updateMasternodeList
      (Announcement.read ⟨inputOf 1, ⟨[10, 0, 0, 1], 32000⟩, [1], [2], [1], 2000, 80005, nullPing⟩)),
   (sampleEnv 2000, .check (inputOf 1) true)]

def spentRun : List (Env × Call) := [({ sampleEnv 2000 with coins := fun _ => none }, .check (inputOf 1) true)]

def BansPersist (ok : COutPoint → Env × Call → Prop) : Prop :=
  ∀ (hs : Hashes) (m m' : CMasternodeMan) (es : List (Env × Call)) (i : Nat) (mn mn' : CMasternode),
    m.vMasternodes[i]? = some mn → mn.nActiveState = .poseBan → HeightsRise es →
    (∀ e ∈ es.getLast?, e.1.height < mn.nPoSeBanHeight) → (∀ e ∈ es, ok mn.vin.prevout e) →
    run (Calls.step hs) m es = some m' → m'.vMasternodes[i]? = some mn' → mn'.nActiveState = .poseBan

theorem bans_lost : ¬ BansPersist (fun o e => e.1.coins o ≠ none) ∧
    ¬ BansPersist (fun o e => ¬ Calls.TakesDirectly o e.2) := by
  constructor
  · intro h
    have hban := h sampleHashes bannedList (directRun.foldl (Calls.next sampleHashes) bannedList) directRun 0 bannedMasternode
      (((directRun.foldl (Calls.next sampleHashes) bannedList).vMasternodes[0]?).getD bannedMasternode) rfl rfl
      (by
        unfold HeightsRise directRun
        decide)
      (by
        unfold directRun
        decide)
      (by
        intro e he
        simp only [directRun, List.mem_cons, List.not_mem_nil, or_false] at he
        rcases he with rfl | rfl
        · exact fun h => by cases h
        · exact fun h => by cases h)
      rfl (by decide +kernel)
    exact absurd hban (by decide +kernel)
  · intro h
    have hban := h sampleHashes bannedList (spentRun.foldl (Calls.next sampleHashes) bannedList) spentRun 0 bannedMasternode
      (((spentRun.foldl (Calls.next sampleHashes) bannedList).vMasternodes[0]?).getD bannedMasternode) rfl rfl
      (by
        unfold HeightsRise spentRun
        decide)
      (by
        unfold spentRun
        decide)
      (by
        intro e he
        simp only [spentRun, List.mem_cons, List.not_mem_nil, or_false] at he
        rw [he]
        exact id)
      rfl (by decide +kernel)
    exact absurd hban (by decide +kernel)

/-- The ban stays while the masternode is checked at height 19. -/
theorem ban_stays_below_height : ∃ m' mn',
    run (Calls.step sampleHashes) bannedList [(sampleEnv 2000, .check (inputOf 1) true)] = some m' ∧
      m'.vMasternodes[0]? = some mn' ∧ mn'.nActiveState = .poseBan ∧ InBounds mn'.nPoSeBanScore := by
  obtain ⟨m', mn', hrun, hi, -, -, hscore, hban⟩ :=
    bans_kept sampleHashes bannedList [(sampleEnv 2000, .check (inputOf 1) true)] 0 bannedMasternode rfl
  refine ⟨m', mn', hrun, hi, (hban rfl (by unfold HeightsRise; decide) (by decide) ?_).1, hscore ⟨by decide, by decide⟩⟩
  intro e he
  rw [List.mem_singleton.1 he]
  exact ⟨id, fun h => by cases h⟩

end Zumy.Announce
