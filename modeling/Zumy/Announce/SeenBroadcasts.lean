/-
  Zumy.Announce.SeenBroadcasts — the broadcast of each listed masternode is among the seen.

  A masternode and its broadcast share an identity: the input, the two keys and the time of
  signing. The hash covers all of it but the masternode key, so a masternode is current when
  its identity is what is seen under its hash (`CurrentFiled`).

  - `filed_checkMnb`, `filed_updateMasternodeList`: under the condition on a broadcast
    (`announceOk`, `updateOk`) every current one stays filed.
  - `consistent_of_filed`: what that says of the manager.
-/
import Zumy.Announce.Handlers
import Zumy.Lib.Current

namespace Zumy.Announce

open Lib

variable {env : Env} {hs : Hashes} {m : CMasternodeMan} {mnb : CMasternodeBroadcast} {mn pmn pmn' : CMasternode}
  {mnp : CMasternodePing}

structure CollisionFree (hs : Hashes) : Prop where
  broadcast : ∀ vin pubKey sigTime vin' pubKey' sigTime', hs.broadcast vin pubKey sigTime = hs.broadcast vin' pubKey' sigTime' →
    vin = vin' ∧ pubKey = pubKey' ∧ sigTime = sigTime'

/-- What every state should satisfy: each broadcast is under its hash, and of each listed masternode
    the one with its time of signing and its keys is there. -/
structure Consistent (hs : Hashes) (m : CMasternodeMan) : Prop where
  keyed : ∀ (hash : Uint256) e, m.mapSeenMasternodeBroadcast[hash]? = some e → hash = e.2.getHash hs
  current : ∀ mn ∈ m.vMasternodes, ∃ e, m.mapSeenMasternodeBroadcast[mn.getHash hs]? = some e ∧ e.2.sigTime = mn.sigTime ∧
    e.2.pubKeyCollateralAddress = mn.pubKeyCollateralAddress ∧ e.2.pubKeyMasternode = mn.pubKeyMasternode

/-! ## Identities -/

structure Ident where
  vin : CTxIn
  pubKeyCollateralAddress : CPubKey
  pubKeyMasternode : CPubKey
  sigTime : Int
  deriving DecidableEq

def Ident.getHash (hs : Hashes) (x : Ident) : Uint256 := hs.broadcast x.vin x.pubKeyCollateralAddress x.sigTime

def CMasternode.ident (mn : CMasternode) : Ident := ⟨mn.vin, mn.pubKeyCollateralAddress, mn.pubKeyMasternode, mn.sigTime⟩

def CMasternodeMan.seenIdent (m : CMasternodeMan) (hash : Uint256) : Option Ident :=
  m.mapSeenMasternodeBroadcast[hash]?.map (·.2.toCMasternode.ident)

abbrev CurrentFiled (hs : Hashes) (m : CMasternodeMan) : Prop :=
  Filed (Ident.getHash hs) (fun x => x.vin.prevout) (m.vMasternodes.map CMasternode.ident) m.seenIdent

theorem getHash_broadcast_ident : mnb.toCMasternode.ident.getHash hs = mnb.getHash hs := rfl

theorem prevout_eq_of_getHash (hfree : CollisionFree hs) (x y : Ident) (h : x.getHash hs = y.getHash hs) :
    x.vin.prevout = y.vin.prevout := congrArg _ (hfree.broadcast _ _ _ _ _ _ h).1

theorem consistent_of_filed (h : CurrentFiled hs m) : Consistent hs m where
  keyed hash e he := by
    apply h.keyed hash e.2.toCMasternode.ident
    rw [CMasternodeMan.seenIdent, he]
    rfl
  current mn hmn := by
    have hseen := h.present mn.ident (List.mem_map_of_mem hmn)
    obtain ⟨e, he, hident⟩ := Option.map_eq_some_iff.1 hseen
    injection hident with hvin hcollateral hkey htime
    exact ⟨e, he, htime, hcollateral, hkey⟩

/-! ## The map -/

theorem seenIdent_see (k : Uint256) : (m.see env hs mnb).seenIdent k =
    if k = mnb.getHash hs ∧ m.seenIdent (mnb.getHash hs) = none then some mnb.toCMasternode.ident else m.seenIdent k := by
  unfold CMasternodeMan.seenIdent CMasternodeMan.see
  simp only [lookup_insertIfNew, Option.map_eq_none_iff]
  split <;> rfl

theorem seenIdent_forget (hash k : Uint256) : (m.forget hash).seenIdent k = if k = hash then none else m.seenIdent k := by
  unfold CMasternodeMan.seenIdent CMasternodeMan.forget
  simp only [lookup_erase]
  split <;> rfl

theorem seenIdent_modify {f : Int × CMasternodeBroadcast → Int × CMasternodeBroadcast}
    (hf : ∀ e, (f e).2.toCMasternode.ident = e.2.toCMasternode.ident) (hash : Uint256) :
    ({ m with mapSeenMasternodeBroadcast := m.mapSeenMasternodeBroadcast.modify hash f } : CMasternodeMan).seenIdent =
      m.seenIdent := by
  funext k
  unfold CMasternodeMan.seenIdent
  simp only [lookup_modify]
  split
  · rename_i hk
    rw [hk, Option.map_map]
    exact congrArg (fun g => Option.map g _) (funext hf)
  · rfl

theorem seenIdent_seeLastPing : (m.seeLastPing hs pmn mnp).seenIdent = m.seenIdent :=
  seenIdent_modify (f := fun e => (e.1, { e.2 with lastPing := mnp })) (fun _ => rfl) _

/-- With every current broadcast filed, `operator[]` finds the one of a listed masternode. -/
theorem seenAt_current (env : Env) (h : CurrentFiled hs m) (hpmn : pmn ∈ m.vMasternodes) :
    ∃ mnbOld, m.seenAt env (pmn.getHash hs) = (mnbOld, m) ∧ mnbOld.getHash hs = pmn.getHash hs := by
  have hseen := h.present pmn.ident (List.mem_map_of_mem hpmn)
  obtain ⟨e, he, hident⟩ := Option.map_eq_some_iff.1 hseen
  refine ⟨e.2, ?_, ?_⟩
  · have hat : m.mapSeenMasternodeBroadcast[pmn.getHash hs]? = some e := he
    unfold CMasternodeMan.seenAt
    rw [hat]
  · rw [← getHash_broadcast_ident, hident]
    rfl

theorem filed_see (h : CurrentFiled hs m) : CurrentFiled hs (m.see env hs mnb) :=
  Filed.file (r := mnb.toCMasternode.ident) h fun k => seenIdent_see k

def sameKey (hs : Hashes) (m : CMasternodeMan) (mnb : CMasternodeBroadcast) : Bool :=
  (m.mapSeenMasternodeBroadcast[mnb.getHash hs]?).all fun e => e.2.pubKeyMasternode == mnb.pubKeyMasternode

theorem seenIdent_see_self (env : Env) (mnb : CMasternodeBroadcast) (hfree : CollisionFree hs) (h : CurrentFiled hs m)
    (hkey : sameKey hs m mnb = true) :
    (m.see env hs mnb).seenIdent (mnb.getHash hs) = some mnb.toCMasternode.ident := by
  rw [seenIdent_see]
  cases hseen : m.seenIdent (mnb.getHash hs) with
  | none => simp
  | some x =>
    obtain ⟨e, he, rfl⟩ := Option.map_eq_some_iff.1 hseen
    obtain ⟨hvin, hcollateral, htime⟩ := hfree.broadcast _ _ _ _ _ _ (h.keyed _ _ hseen)
    have hmasternode : e.2.pubKeyMasternode = mnb.pubKeyMasternode := by simpa [sameKey, he] using hkey
    simp only [reduceCtorEq, and_false, if_false, Option.some.injEq]
    exact (congr (congr (congr (congrArg Ident.mk hvin) hcollateral) hmasternode.symm) htime).symm

theorem sameKey_see : sameKey hs (m.see env hs mnb) mnb = sameKey hs m mnb := by
  unfold sameKey CMasternodeMan.see
  simp only [lookup_insertIfNew, true_and]
  cases m.mapSeenMasternodeBroadcast[mnb.getHash hs]? <;> simp

/-! ## A masternode -/

theorem ident_decrease : mn.decreasePoSeBanScore.ident = mn.ident := by
  unfold CMasternode.decreasePoSeBanScore
  split <;> rfl

theorem ident_checkPings : (mn.checkPings env).ident = mn.ident := by
  unfold CMasternode.checkPings
  dsimp only
  repeat' split
  all_goals rfl

theorem ident_check (size : Nat) (fForce : Bool) : (mn.check env size fForce).ident = mn.ident := by
  unfold CMasternode.check
  dsimp only
  split
  · rfl
  split
  · rfl
  split
  · rfl
  split
  · rfl
  split
  · rfl
  split
  · split
    · rfl
    · rw [ident_checkPings, ident_decrease]
      rfl
  split
  · rfl
  · rw [ident_checkPings]
    rfl

/-- What a ping leaves: the masternode's identity, the list and what was seen. -/
structure Keeps (m : CMasternodeMan) (pmn : CMasternode) (r : CMasternode × CMasternodeMan) : Prop where
  ident : r.1.ident = pmn.ident
  listed : r.2.vMasternodes = m.vMasternodes
  seen : r.2.seenIdent = m.seenIdent

theorem checkAndUpdate_keeps (fFromNewBroadcast : Bool) :
    Keeps m pmn (mnp.checkAndUpdate env hs m pmn fFromNewBroadcast).2.2 := by
  unfold CMasternodePing.checkAndUpdate
  dsimp only
  split
  · exact ⟨rfl, rfl, rfl⟩
  split
  · exact ⟨rfl, rfl, rfl⟩
  split
  · exact ⟨rfl, rfl, rfl⟩
  split
  · exact ⟨rfl, rfl, rfl⟩
  · refine ⟨?_, rfl, seenIdent_seeLastPing⟩
    show (CMasternode.check _ _ _ _).ident = _
    rw [ident_check]
    rfl

theorem takeLastPing_keeps : Keeps m pmn (pmn.takeLastPing env hs m mnb) := by
  unfold CMasternode.takeLastPing
  split
  · exact ⟨rfl, rfl, rfl⟩
  · have hping : Keeps m pmn (mnb.lastPing.checkAndUpdate env hs m pmn true).2.2 := checkAndUpdate_keeps true
    dsimp only
    split
    · exact ⟨hping.ident, hping.listed, hping.seen⟩
    · exact hping

/-- An update that is taken: the key and the time of the broadcast, under the masternode's own input
    and collateral key. -/
theorem updateFromNewBroadcast_takes (hnewer : (mnb.sigTime ≤ pmn.sigTime && !mnb.fRecovery) = false) :
    Keeps m (pmn.takeFields mnb) (pmn.updateFromNewBroadcast env hs m mnb).2 := by
  have hping : Keeps m (pmn.takeFields mnb) ((pmn.takeFields mnb).takeLastPing env hs m mnb) := takeLastPing_keeps
  unfold CMasternode.updateFromNewBroadcast
  rw [if_neg (by rw [hnewer]; exact Bool.false_ne_true)]
  dsimp only
  split
  · split
    · exact ⟨hping.ident, hping.listed, hping.seen⟩
    · exact ⟨hping.ident, hping.listed, hping.seen⟩
  · exact hping

theorem updateFromNewBroadcast_older (holder : (mnb.sigTime ≤ pmn.sigTime && !mnb.fRecovery) = true) :
    pmn.updateFromNewBroadcast env hs m mnb = (false, pmn, m) := by
  unfold CMasternode.updateFromNewBroadcast
  rw [if_pos holder]

/-! ## The list -/

theorem filed_of_same {m' : CMasternodeMan} (h : CurrentFiled hs m)
    (hlisted : m'.vMasternodes.map CMasternode.ident = m.vMasternodes.map CMasternode.ident)
    (hseen : m'.seenIdent = m.seenIdent) :
    CurrentFiled hs m' := by
  unfold CurrentFiled
  rw [hlisted, hseen]
  exact h

theorem find_store {m' : CMasternodeMan} {vin : CTxIn} (hfind : m.find vin = some pmn)
    (hlisted : m'.vMasternodes = m.vMasternodes)
    (hvin : pmn'.vin = pmn.vin) :
    pmn.vin.prevout = vin.prevout ∧ ∃ as bs, m.vMasternodes = as ++ pmn :: bs ∧
      (m'.store pmn').vMasternodes = as ++ pmn' :: bs := by
  have hprevout : pmn.vin.prevout = vin.prevout := by simpa [isAt] using List.find?_some hfind
  obtain ⟨-, as, bs, hlist, has⟩ := List.find?_eq_some_iff_append.1 hfind
  refine ⟨hprevout, as, bs, hlist, ?_⟩
  have hisAt : isAt pmn'.vin = isAt vin := by
    funext mn
    rw [isAt, isAt, hvin, hprevout]
  have hidx : (as ++ pmn :: bs).findIdx (isAt vin) = as.length := by
    have hhere : isAt vin pmn = true := beq_iff_eq.2 hprevout
    have hbefore : as.findIdx (isAt vin) = as.length :=
      List.findIdx_eq_length_of_false fun mn hmn => by simpa using has mn hmn
    rw [List.findIdx_append, hbefore, if_neg (lt_irrefl _), List.findIdx_cons, hhere]
    exact Nat.zero_add _
  unfold CMasternodeMan.store
  rw [hlisted, hlist, hisAt]
  dsimp only
  rw [hidx]
  simp

theorem filed_add (h : CurrentFiled hs m) (hfind : m.find mn.vin = none) (hseen : m.seenIdent (mn.getHash hs) = some mn.ident) :
    CurrentFiled hs (m.add mn).2 := by
  have hadd : (m.add mn).2 = { m with vMasternodes := m.vMasternodes ++ [mn] } := by
    unfold CMasternodeMan.add
    rw [hfind]
  have hnew : mn.ident.vin.prevout ∉ (m.vMasternodes.map CMasternode.ident).map fun x => x.vin.prevout := by
    intro hin
    simp only [List.map_map, List.mem_map, Function.comp_apply] at hin
    obtain ⟨mn', hmn', hprevout⟩ := hin
    have hno := List.find?_eq_none.1 hfind mn' hmn'
    exact hno (beq_iff_eq.2 hprevout)
  have hfiled := h.enter hnew hseen
  rw [hadd]
  unfold CurrentFiled
  rw [List.map_append]
  exact hfiled

/-! ## Broadcasts -/

theorem simpleCheck_eq (env : Env) (mnb : CMasternodeBroadcast) :
    ∃ nActiveState, (mnb.simpleCheck env).2.2 = { mnb with nActiveState := nActiveState } := by
  unfold CMasternodeBroadcast.simpleCheck
  split
  · exact ⟨mnb.nActiveState, rfl⟩
  split
  · exact ⟨mnb.nActiveState, rfl⟩
  · exact ⟨_, rfl⟩

/-- What `Update` lets through is newer, or a recovery, and of the masternode's collateral key. -/
theorem checkUpdate_ok (env : Env) (mnb : CMasternodeBroadcast) (size : Nat) (pmn : CMasternode)
    (h : (mnb.checkUpdate env size pmn).1 = true) :
    (mnb.sigTime ≤ pmn.sigTime && !mnb.fRecovery) = false ∧ pmn.pubKeyCollateralAddress = mnb.pubKeyCollateralAddress := by
  unfold CMasternodeBroadcast.checkUpdate at h
  split at h
  · cases h
  rename_i hequal
  split at h
  · cases h
  rename_i holder
  dsimp only at h
  split at h
  · cases h
  split at h
  · cases h
  rename_i hcollateral
  constructor
  · cases hrec : mnb.fRecovery with
    | true => rw [Bool.not_true, Bool.and_false]
    | false =>
      have hne : pmn.sigTime ≠ mnb.sigTime := by simpa [hrec] using hequal
      simp only [Bool.not_false, Bool.and_true, decide_eq_false_iff_not]
      omega
  · have hident : (pmn.check env size false).pubKeyCollateralAddress = pmn.pubKeyCollateralAddress :=
      congrArg Ident.pubKeyCollateralAddress (ident_check size false)
    rw [← hident]
    simpa using hcollateral

theorem checkUpdate_ident (env : Env) (mnb : CMasternodeBroadcast) (size : Nat) (pmn : CMasternode) :
    (mnb.checkUpdate env size pmn).2.2.ident = pmn.ident := by
  unfold CMasternodeBroadcast.checkUpdate
  dsimp only
  split
  · rfl
  split
  · rfl
  split
  · exact ident_check _ _
  split
  · exact ident_check _ _
  · exact ident_check _ _

/-- The condition on a broadcast that `Update` lets through for a listed masternode: when it is taken,
    it names the input and is seen under its own key; when it is not, nothing is forgotten. -/
def updateListedOk (env : Env) (hs : Hashes) (m : CMasternodeMan) (mnb : CMasternodeBroadcast) (pmn : CMasternode) : Bool :=
  !(mnb.checkUpdate env m.size pmn).1 ||
    (if mnb.takesEntry env pmn then mnb.vin == pmn.vin && sameKey hs m mnb else mnb.getHash hs == pmn.getHash hs)

/-- The condition on a broadcast: nothing is asked of one that was seen or does not pass its checks. -/
def announceOk (env : Env) (hs : Hashes) (m : CMasternodeMan) (mnb : CMasternodeBroadcast) : Bool :=
  (m.mapSeenMasternodeBroadcast.contains (mnb.getHash hs) && !mnb.fRecovery) || !(mnb.simpleCheck env).1 ||
  match m.find mnb.vin with
  | none => !(mnb.checkOutpoint env hs m 0).1 || sameKey hs m mnb
  | some pmn => updateListedOk env hs m mnb pmn

/-- `UpdateMasternodeList`, which makes no check: a newer broadcast of a listed masternode names its
    input and its collateral key. -/
def updateOk (hs : Hashes) (m : CMasternodeMan) (mnb : CMasternodeBroadcast) : Bool :=
  match m.find mnb.vin with
  | none => sameKey hs m mnb
  | some pmn =>
    mnb.sigTime ≤ pmn.sigTime ||
      (mnb.vin == pmn.vin && mnb.pubKeyCollateralAddress == pmn.pubKeyCollateralAddress && sameKey hs m mnb)

/-- The broadcast of a masternode renewed: the new one is seen, and of the others at most the old one
    is forgotten. -/
theorem filed_renew {m' m'' : CMasternodeMan} (hfree : CollisionFree hs) (h : CurrentFiled hs m)
    (hfind : m.find mnb.vin = some pmn)
    (hlisted : m'.vMasternodes = m.vMasternodes) (hident : pmn'.ident = mnb.toCMasternode.ident) (hvin : mnb.vin = pmn.vin)
    (hnew : m.seenIdent (mnb.getHash hs) = some mnb.toCMasternode.ident)
    (hstore : m''.vMasternodes = (m'.store pmn').vMasternodes)
    (hgone : ∀ k, m''.seenIdent k = m.seenIdent k ∨
      (k = pmn.getHash hs ∧ mnb.getHash hs ≠ pmn.getHash hs ∧ m''.seenIdent k = none)) : CurrentFiled hs m'' := by
  have hvin' : pmn'.vin = pmn.vin := (congrArg Ident.vin hident).trans hvin
  obtain ⟨-, as, bs, hlist, hstored⟩ := find_store hfind hlisted hvin'
  have hfiled : Filed (Ident.getHash hs) (fun x => x.vin.prevout)
      (as.map CMasternode.ident ++ pmn.ident :: bs.map CMasternode.ident)
      m.seenIdent := by
    have h' := h
    unfold CurrentFiled at h'
    rw [hlist, List.map_append, List.map_cons] at h'
    exact h'
  unfold CurrentFiled
  rw [hstore, hstored, List.map_append, List.map_cons, hident]
  apply hfiled.renew (prevout_eq_of_getHash hfree)
  · exact congrArg CTxIn.prevout hvin
  · exact hnew
  · exact hgone

theorem filed_store {m' : CMasternodeMan} {vin : CTxIn} (h : CurrentFiled hs m) (hfind : m.find vin = some pmn)
    (hlisted : m'.vMasternodes = m.vMasternodes) (hseen : m'.seenIdent = m.seenIdent) (hident : pmn'.ident = pmn.ident) :
    CurrentFiled hs (m'.store pmn') := by
  obtain ⟨-, as, bs, hlist, hstored⟩ := find_store hfind hlisted (congrArg Ident.vin hident)
  apply filed_of_same h
  · rw [hstored, hlist, List.map_append, List.map_append, List.map_cons, List.map_cons, hident]
  · exact hseen

/-- The three ends of `Update`: it stops, it takes the broadcast, or it says it did. -/
theorem update_cases (env : Env) (hs : Hashes) (m : CMasternodeMan) (mnb : CMasternodeBroadcast) (pmn : CMasternode) :
    ((mnb.checkUpdate env m.size pmn).1 = false ∧ (mnb.update env hs m pmn).1 = false ∧
      Keeps m pmn (mnb.update env hs m pmn).2.2) ∨
    ((mnb.checkUpdate env m.size pmn).1 = true ∧ mnb.takesEntry env pmn = true ∧ (mnb.update env hs m pmn).1 = true ∧
      Keeps m (pmn.takeFields mnb) (mnb.update env hs m pmn).2.2) ∨
    ((mnb.checkUpdate env m.size pmn).1 = true ∧ mnb.takesEntry env pmn = false ∧ (mnb.update env hs m pmn).1 = true ∧
      Keeps m pmn (mnb.update env hs m pmn).2.2) := by
  have hchecked := checkUpdate_ident env mnb m.size pmn
  have hnewer := checkUpdate_ok env mnb m.size pmn
  unfold CMasternodeBroadcast.update
  generalize mnb.checkUpdate env m.size pmn = r at hchecked hnewer ⊢
  obtain ⟨fOk, nDos, pmnChecked⟩ := r
  have htime : pmnChecked.sigTime = pmn.sigTime := congrArg Ident.sigTime hchecked
  have htakes : mnb.takesEntry env pmnChecked = mnb.takesEntry env pmn := by
    unfold CMasternodeBroadcast.takesEntry CMasternode.isBroadcastedWithin
    rw [htime]
  cases fOk with
  | false => exact .inl ⟨rfl, rfl, hchecked, rfl, rfl⟩
  | true =>
    right
    simp only [Bool.not_true, Bool.false_eq_true, if_false, htakes, true_and]
    cases mnb.takesEntry env pmn with
    | false => exact .inr ⟨rfl, rfl, hchecked, rfl, rfl⟩
    | true =>
      left
      have hfields : (pmnChecked.takeFields mnb).ident = (pmn.takeFields mnb).ident :=
        congrArg (fun x : Ident => (⟨x.vin, x.pubKeyCollateralAddress, mnb.pubKeyMasternode, mnb.sigTime⟩ : Ident)) hchecked
      have hupdate : Keeps m (pmnChecked.takeFields mnb) (pmnChecked.updateFromNewBroadcast env hs m mnb).2 := by
        apply updateFromNewBroadcast_takes
        rw [htime]
        exact (hnewer rfl).1
      refine ⟨rfl, rfl, ?_, hupdate.listed, hupdate.seen⟩
      rw [← hfields, ← hupdate.ident]
      show CMasternode.ident (if _ then _ else _) = _
      split
      · exact ident_check _ _
      · rfl

theorem bumpSeen_same (env : Env) (m : CMasternodeMan) (hash : Uint256) (nTime : Int) :
    (bumpSeen env m hash nTime).vMasternodes = m.vMasternodes ∧ (bumpSeen env m hash nTime).seenIdent = m.seenIdent := by
  unfold bumpSeen
  split
  · exact ⟨rfl, seenIdent_modify (f := fun e => (env.getTime, e.2)) (fun _ => rfl) _⟩
  · exact ⟨rfl, rfl⟩

theorem takeReply_same (env : Env) (hs : Hashes) (m : CMasternodeMan) (pfrom : Option CNetAddr)
    (mnb mnbSeen : CMasternodeBroadcast) :
    (takeReply env hs m pfrom mnb mnbSeen).vMasternodes = m.vMasternodes ∧
    (takeReply env hs m pfrom mnb mnbSeen).mapSeenMasternodeBroadcast = m.mapSeenMasternodeBroadcast := by
  unfold takeReply
  dsimp only
  split
  · split
    · split
      · split
        · exact ⟨rfl, rfl⟩
        · exact ⟨rfl, rfl⟩
      · exact ⟨rfl, rfl⟩
    · exact ⟨rfl, rfl⟩
  · exact ⟨rfl, rfl⟩

theorem filed_seenAgain (h : CurrentFiled hs m) (hash : Uint256) (nTime : Int) (pfrom : Option CNetAddr)
    (mnbSeen : CMasternodeBroadcast) : CurrentFiled hs (takeReply env hs (bumpSeen env m hash nTime) pfrom mnb mnbSeen) := by
  obtain ⟨hlisted, hseen⟩ := bumpSeen_same env m hash nTime
  obtain ⟨hlisted', hseen'⟩ := takeReply_same env hs (bumpSeen env m hash nTime) pfrom mnb mnbSeen
  apply filed_of_same h
  · rw [hlisted', hlisted]
  · rw [← hseen]
    unfold CMasternodeMan.seenIdent
    rw [hseen']

/-- `CheckOutpoint` forgets at most the broadcast it checks, and that when it fails. -/
theorem checkOutpoint_cases (env : Env) (hs : Hashes) (m : CMasternodeMan) (mnb : CMasternodeBroadcast) (nDos : Int) :
    ((mnb.checkOutpoint env hs m nDos).1 = true ∧ (mnb.checkOutpoint env hs m nDos).2.2 = m) ∨
    ((mnb.checkOutpoint env hs m nDos).1 = false ∧
      ((mnb.checkOutpoint env hs m nDos).2.2 = m ∨ (mnb.checkOutpoint env hs m nDos).2.2 = m.forget (mnb.getHash hs))) := by
  have hlast (fOk : Bool) (x y : Int) : ((fOk, x, m).1 = true ∧ (fOk, x, m).2.2 = m) ∨
      ((fOk, x, m).1 = false ∧ ((fOk, y, m).2.2 = m ∨ (fOk, y, m).2.2 = m.forget (mnb.getHash hs))) := by
    cases fOk
    · exact .inr ⟨rfl, .inl rfl⟩
    · exact .inl ⟨rfl, rfl⟩
  unfold CMasternodeBroadcast.checkOutpoint
  dsimp only
  repeat' split
  all_goals first | exact hlast _ 0 0 | exact .inr ⟨rfl, .inr rfl⟩

theorem checkOutpoint_congr (m m' : CMasternodeMan) (nDos nDos' : Int) :
    (mnb.checkOutpoint env hs m nDos).1 = (mnb.checkOutpoint env hs m' nDos').1 := by
  unfold CMasternodeBroadcast.checkOutpoint
  dsimp only
  repeat' split
  all_goals rfl

theorem filed_updateListed (mnb : CMasternodeBroadcast) (hfree : CollisionFree hs) (h : CurrentFiled hs m)
    (hfind : m.find mnb.vin = some pmn)
    (hnew : sameKey hs m mnb = true → m.seenIdent (mnb.getHash hs) = some mnb.toCMasternode.ident)
    (hok : updateListedOk env hs m mnb pmn = true) : CurrentFiled hs (updateListed env hs m mnb pmn).2.2 := by
  obtain ⟨mnbOld, hat, hold⟩ := seenAt_current env h (List.mem_of_find?_eq_some hfind)
  have hcases := update_cases env hs m mnb pmn
  have hcollateral := checkUpdate_ok env mnb m.size pmn
  unfold updateListedOk at hok
  unfold updateListed
  rw [hat]
  dsimp only
  rw [hold]
  generalize mnb.update env hs m pmn = r at hcases ⊢
  obtain ⟨fUpdate, nDos, pmn', m'⟩ := r
  rcases hcases with ⟨-, hstops, hkeeps⟩ | ⟨hpasses, htakes, htaken, hkeeps⟩ | ⟨hpasses, htakes, htaken, hkeeps⟩
  · -- `Update` stops
    dsimp only at hstops hkeeps ⊢
    subst hstops
    exact filed_store h hfind hkeeps.listed hkeeps.seen hkeeps.ident
  · -- it takes the broadcast, which has the input of the masternode and is seen
    dsimp only at htaken hkeeps ⊢
    subst htaken
    simp only [hpasses, htakes, Bool.not_true, Bool.false_or, if_true, Bool.and_eq_true, beq_iff_eq] at hok
    obtain ⟨hvin, hkey⟩ := hok
    have hident : pmn'.ident = mnb.toCMasternode.ident := by
      rw [hkeeps.ident]
      show Ident.mk pmn.vin pmn.pubKeyCollateralAddress mnb.pubKeyMasternode mnb.sigTime = _
      rw [← hvin, (hcollateral hpasses).2]
      rfl
    simp only [Bool.not_true, Bool.false_eq_true, if_false]
    apply filed_renew hfree h hfind hkeeps.listed hident hvin (hnew hkey)
    · split <;> rfl
    · intro k
      rw [← congrFun hkeeps.seen k]
      split
      · rename_i hne
        rw [seenIdent_forget]
        by_cases hk : k = pmn.getHash hs
        · exact .inr ⟨hk, hne, if_pos hk⟩
        · exact .inl (if_neg hk)
      · exact .inl rfl
  · -- it says so without taking it, and forgets nothing
    dsimp only at htaken hkeeps ⊢
    subst htaken
    simp only [hpasses, htakes, Bool.not_true, Bool.false_or, Bool.false_eq_true, if_false, beq_iff_eq] at hok
    simp only [Bool.not_true, Bool.false_eq_true, if_false, hok, ne_eq, not_true_eq_false]
    exact filed_store h hfind hkeeps.listed hkeeps.seen hkeeps.ident

theorem filed_addListed (mnb : CMasternodeBroadcast) (hfree : CollisionFree hs) (h : CurrentFiled hs m)
    (hfind : m.find mnb.vin = none) (nDos : Int)
    (hnew : (mnb.checkOutpoint env hs m 0).1 = true → m.seenIdent (mnb.getHash hs) = some mnb.toCMasternode.ident) :
    CurrentFiled hs (addListed env hs m mnb nDos).2.2 := by
  have hcases := checkOutpoint_cases env hs m mnb nDos
  rw [checkOutpoint_congr m m 0 nDos] at hnew
  unfold addListed
  generalize mnb.checkOutpoint env hs m nDos = r at hcases hnew ⊢
  obtain ⟨fOutpoint, nDos, m'⟩ := r
  rcases hcases with ⟨hok, hsame⟩ | ⟨hok, hsame | hforgot⟩
  · dsimp only at hok hsame
    subst hok hsame
    exact filed_add h hfind (hnew rfl)
  · dsimp only at hok hsame
    subst hok hsame
    exact h
  · -- no listed masternode has the outpoint of the broadcast that is forgotten
    dsimp only at hok hforgot
    subst hok hforgot
    apply h.unfile (k := mnb.getHash hs)
    · intro x hx hhash
      obtain ⟨mn, hmn, rfl⟩ := List.mem_map.1 hx
      have hprevout := prevout_eq_of_getHash hfree mn.ident mnb.toCMasternode.ident hhash
      exact List.find?_eq_none.1 hfind mn hmn (beq_iff_eq.2 hprevout)
    · exact seenIdent_forget _

theorem filed_checkMnb (hfree : CollisionFree hs) (h : CurrentFiled hs m) (pfrom : Option CNetAddr)
    (hok : announceOk env hs m mnb = true) : CurrentFiled hs (checkMnbAndUpdateMasternodeList env hs m pfrom mnb).2.2 := by
  have hsee : CurrentFiled hs (m.see env hs mnb) := filed_see h
  have hself := seenIdent_see_self env mnb hfree h
  have hsimple := simpleCheck_eq env mnb
  unfold announceOk at hok
  unfold checkMnbAndUpdateMasternodeList
  split
  · exact filed_seenAgain h _ _ _ _
  · rename_i hnew
    have hfresh : (m.mapSeenMasternodeBroadcast.contains (mnb.getHash hs) && !mnb.fRecovery) = false := by
      rw [Bool.eq_false_iff]
      intro hseen
      obtain ⟨hin, hrec⟩ := Bool.and_eq_true_iff.1 hseen
      obtain ⟨e, he⟩ := contains_iff.1 hin
      exact hnew e.1 e.2 he (by simpa using hrec)
    rw [hfresh, Bool.false_or] at hok
    generalize mnb.simpleCheck env = r at hsimple hok ⊢
    obtain ⟨fSimple, nDos, mnb'⟩ := r
    obtain ⟨nActiveState, hmnb⟩ := hsimple
    dsimp only at hmnb hok ⊢
    subst hmnb
    cases fSimple with
    | false => exact hsee
    | true =>
      simp only [Bool.not_true, Bool.false_or, Bool.false_eq_true, if_false] at hok ⊢
      have hfind : (m.see env hs mnb).find mnb.vin = m.find mnb.vin := rfl
      rw [hfind]
      cases hlisted : m.find mnb.vin with
      | some pmn =>
        rw [hlisted] at hok
        apply filed_updateListed { mnb with nActiveState := nActiveState } hfree hsee hlisted
        · intro hkey
          exact hself (sameKey_see ▸ hkey)
        · have hkey : sameKey hs (m.see env hs mnb) { mnb with nActiveState := nActiveState } = sameKey hs m mnb := sameKey_see
          unfold updateListedOk at hok ⊢
          rw [hkey]
          exact hok
      | none =>
        rw [hlisted] at hok
        apply filed_addListed { mnb with nActiveState := nActiveState } hfree hsee hlisted
        intro hpasses
        have hpasses' : (mnb.checkOutpoint env hs m 0).1 = true := by
          rw [checkOutpoint_congr m (m.see env hs mnb) 0 0]
          exact hpasses
        simp only [hpasses', Bool.not_true, Bool.false_or] at hok
        exact hself hok

theorem filed_updateMasternodeList (hfree : CollisionFree hs) (h : CurrentFiled hs m) (hrec : mnb.fRecovery = false)
    (hok : updateOk hs m mnb = true) : CurrentFiled hs (updateMasternodeList env hs m mnb) := by
  have hping : CurrentFiled hs (m.seePing hs mnb.lastPing) := h
  have hsee : CurrentFiled hs ((m.seePing hs mnb.lastPing).see env hs mnb) := filed_see hping
  have hself := seenIdent_see_self env mnb hfree hping
  have hfind : ((m.seePing hs mnb.lastPing).see env hs mnb).find mnb.vin = m.find mnb.vin := rfl
  unfold updateOk at hok
  unfold updateMasternodeList
  dsimp only
  rw [hfind]
  generalize (m.seePing hs mnb.lastPing).see env hs mnb = m₁ at hsee hself hfind ⊢
  cases hlisted : m.find mnb.vin with
  | none =>
    rw [hlisted] at hok hfind
    exact filed_add hsee hfind (hself hok)
  | some pmn =>
    rw [hlisted] at hok hfind
    obtain ⟨mnbOld, hat, hold⟩ := seenAt_current env hsee (List.mem_of_find?_eq_some hfind)
    dsimp only
    rw [hat]
    dsimp only
    rw [hold]
    cases hnewer : mnb.sigTime ≤ pmn.sigTime && !mnb.fRecovery with
    | true =>
      rw [updateFromNewBroadcast_older hnewer]
      exact filed_store hsee hfind rfl rfl rfl
    | false =>
      have hlater : pmn.sigTime < mnb.sigTime := by simpa [hrec] using hnewer
      simp only [not_le.2 hlater, decide_false, Bool.false_or, Bool.and_eq_true, beq_iff_eq] at hok
      obtain ⟨⟨hvin, hcollateral⟩, hkey⟩ := hok
      have hkeeps : Keeps m₁ (pmn.takeFields mnb) (pmn.updateFromNewBroadcast env hs m₁ mnb).2 :=
        updateFromNewBroadcast_takes hnewer
      generalize pmn.updateFromNewBroadcast env hs m₁ mnb = r at hkeeps ⊢
      obtain ⟨fUpdated, pmn', m'⟩ := r
      have hident : pmn'.ident = mnb.toCMasternode.ident := by
        rw [hkeeps.ident]
        show Ident.mk pmn.vin pmn.pubKeyCollateralAddress mnb.pubKeyMasternode mnb.sigTime = _
        rw [← hvin, ← hcollateral]
        rfl
      have hne : mnb.getHash hs ≠ pmn.getHash hs := by
        intro hsame
        have htime := (hfree.broadcast _ _ _ _ _ _ hsame).2.2
        exact absurd htime hlater.ne'
      apply filed_renew hfree hsee hfind hkeeps.listed hident hvin (hself hkey)
      · dsimp only
        split <;> rfl
      · intro k
        rw [← congrFun hkeeps.seen k]
        dsimp only
        split
        · rw [seenIdent_forget]
          by_cases hk : k = pmn.getHash hs
          · exact .inr ⟨hk, hne, if_pos hk⟩
          · exact .inl (if_neg hk)
        · exact .inl rfl

end Zumy.Announce
