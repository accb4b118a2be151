/-
  Zumy.Announce.Listed — masternodeman.cpp: what the calls do to the masternode list.

  `Update` runs `Check` on the listed masternode before it refuses a broadcast for a ban, for
  another collateral key or for its signature; a broadcast of a masternode that is not listed
  is added before the node finds that it is its own, of another protocol.
-/
import Zumy.Announce.Ranks
import Zumy.Announce.SeenRuns

namespace Zumy.Announce

open Lib

variable {env : Env} {hs : Hashes} {m m' : CMasternodeMan} {mn pmn pmn' : CMasternode} {mnb : CMasternodeBroadcast}
  {mnp : CMasternodePing} {vin : CTxIn}

/-! ## The list after a call -/

theorem updateFromNewBroadcast_listed : (pmn.updateFromNewBroadcast env hs m mnb).2.2.vMasternodes = m.vMasternodes := by
  cases hnewer : mnb.sigTime ≤ pmn.sigTime && !mnb.fRecovery with
  | true => rw [updateFromNewBroadcast_older hnewer]
  | false => exact (updateFromNewBroadcast_takes hnewer).listed

theorem seenAt_listed (env : Env) (m : CMasternodeMan) (hash : Uint256) :
    (m.seenAt env hash).2.vMasternodes = m.vMasternodes := by
  unfold CMasternodeMan.seenAt
  split <;> rfl

theorem update_listed : (mnb.update env hs m pmn).2.2.2.vMasternodes = m.vMasternodes := by
  rcases update_cases env hs m mnb pmn with ⟨-, -, h⟩ | ⟨-, -, -, h⟩ | ⟨-, -, -, h⟩
  · exact h.listed
  · exact h.listed
  · exact h.listed

theorem updateListed_listed : (updateListed env hs m mnb pmn).2.2.vMasternodes =
    (((mnb.update env hs (m.seenAt env (pmn.getHash hs)).2 pmn).2.2.2).store
      (mnb.update env hs (m.seenAt env (pmn.getHash hs)).2 pmn).2.2.1).vMasternodes := by
  unfold updateListed
  dsimp only
  split
  · rfl
  · split
    · rfl
    · rfl

theorem checkOutpoint_listed (env : Env) (hs : Hashes) (m : CMasternodeMan) (mnb : CMasternodeBroadcast) (nDos : Int) :
    (mnb.checkOutpoint env hs m nDos).2.2.vMasternodes = m.vMasternodes := by
  rcases checkOutpoint_cases env hs m mnb nDos with ⟨-, h⟩ | ⟨-, h | h⟩
  · rw [h]
  · rw [h]
  · rw [h]
    rfl

theorem addListed_listed (env : Env) (hs : Hashes) (m : CMasternodeMan) (mnb : CMasternodeBroadcast) (nDos : Int) :
    ∃ l, (addListed env hs m mnb nDos).2.2.vMasternodes = m.vMasternodes ++ l := by
  have houtpoint := checkOutpoint_listed env hs m mnb nDos
  unfold addListed
  dsimp only
  split
  · exact ⟨[], by rw [List.append_nil]; exact houtpoint⟩
  · unfold CMasternodeMan.add
    split
    · exact ⟨[], by rw [List.append_nil]; exact houtpoint⟩
    · exact ⟨[mnb.toCMasternode], by rw [← houtpoint]⟩

/-! ## Refused broadcasts -/

theorem store_found (hfind : m.find vin = some pmn) (hlisted : m'.vMasternodes = m.vMasternodes) :
    (m'.store pmn).vMasternodes = m.vMasternodes := by
  obtain ⟨-, as, bs, hlist, hstored⟩ := find_store hfind hlisted rfl
  rw [hstored, hlist]

theorem checkUpdate_refused (h : (mnb.checkUpdate env m.size pmn).1 = false) :
    (mnb.checkUpdate env m.size pmn).2.2 = pmn ∨
    ((mnb.checkUpdate env m.size pmn).2.2 = pmn.check env m.size false ∧ pmn.sigTime ≤ mnb.sigTime ∧
      ((pmn.check env m.size false).isPoSeBanned = true ∨ pmn.pubKeyCollateralAddress ≠ mnb.pubKeyCollateralAddress ∨
        (mnb.checkSignature env).1 = false)) := by
  unfold CMasternodeBroadcast.checkUpdate at h ⊢
  split
  · exact .inl rfl
  split
  · exact .inl rfl
  rename_i hequal holder
  rw [if_neg hequal, if_neg holder] at h
  right
  dsimp only at h ⊢
  split
  · rename_i hban
    exact ⟨rfl, by omega, .inl hban⟩
  rename_i hban
  rw [if_neg hban] at h
  have hkey : (pmn.check env m.size false).pubKeyCollateralAddress = pmn.pubKeyCollateralAddress :=
    congrArg Ident.pubKeyCollateralAddress (ident_check m.size false)
  split
  · rename_i hcollateral
    rw [hkey, bne_iff_ne] at hcollateral
    exact ⟨rfl, by omega, .inr (.inl hcollateral)⟩
  · rename_i hcollateral
    rw [if_neg hcollateral] at h
    exact ⟨rfl, by omega, .inr (.inr h)⟩

def OwnOutdated (env : Env) (mnb : CMasternodeBroadcast) : Prop :=
  mnb.toCMasternode.isOurs env = true ∧ mnb.nProtocolVersion ≠ protocolVersion

instance (env : Env) (mnb : CMasternodeBroadcast) : Decidable (OwnOutdated env mnb) := inferInstanceAs (Decidable (_ ∧ _))

/-- The checks of `Update` behind `Check` refuse the broadcast. -/
def RefusedAfterCheck (env : Env) (m : CMasternodeMan) (mnb : CMasternodeBroadcast) (pmn : CMasternode) : Prop :=
  pmn.sigTime ≤ mnb.sigTime ∧ ((pmn.check env m.size false).isPoSeBanned = true ∨
    pmn.pubKeyCollateralAddress ≠ mnb.pubKeyCollateralAddress ∨ (mnb.checkSignature env).1 = false)

theorem update_refused (h : (mnb.checkUpdate env m.size pmn).1 = false) :
    mnb.update env hs m pmn = (false, (mnb.checkUpdate env m.size pmn).2.1, (mnb.checkUpdate env m.size pmn).2.2, m) := by
  unfold CMasternodeBroadcast.update
  generalize mnb.checkUpdate env m.size pmn = r at h
  obtain ⟨fOk, nDos, pmn'⟩ := r
  have hno : fOk = false := h
  rw [hno]
  rfl

theorem updateListed_refused (hfind : m.find vin = some pmn) (hno : (updateListed env hs m mnb pmn).1 = false) :
    (updateListed env hs m mnb pmn).2.2.vMasternodes = m.vMasternodes ∨
    (RefusedAfterCheck env m mnb pmn ∧
      (updateListed env hs m mnb pmn).2.2.vMasternodes = (m.store (pmn.check env m.size false)).vMasternodes) := by
  have hseen := seenAt_listed env m (pmn.getHash hs)
  have hsize : (m.seenAt env (pmn.getHash hs)).2.size = m.size := congrArg List.length hseen
  have hupdate : (mnb.update env hs (m.seenAt env (pmn.getHash hs)).2 pmn).1 = false := by
    unfold updateListed at hno
    dsimp only at hno
    cases hok : (mnb.update env hs (m.seenAt env (pmn.getHash hs)).2 pmn).1 with
    | false => rfl
    | true =>
      rw [hok, Bool.not_true, if_neg Bool.false_ne_true] at hno
      cases hno
  have hchecked : (mnb.checkUpdate env (m.seenAt env (pmn.getHash hs)).2.size pmn).1 = false := by
    rcases update_cases env hs (m.seenAt env (pmn.getHash hs)).2 mnb pmn with ⟨h, -⟩ | ⟨-, -, h, -⟩ | ⟨-, -, h, -⟩
    · exact h
    · rw [h] at hupdate
      cases hupdate
    · rw [h] at hupdate
      cases hupdate
  rw [updateListed_listed, update_refused hchecked]
  dsimp only
  rw [hsize] at hchecked ⊢
  rcases checkUpdate_refused hchecked with hsame | ⟨hcheck, htime, hwhy⟩
  · rw [hsame]
    exact .inl (store_found hfind hseen)
  · rw [hcheck]
    refine .inr ⟨⟨htime, hwhy⟩, ?_⟩
    unfold CMasternodeMan.store
    rw [hseen]

theorem addListed_refused (env : Env) (hs : Hashes) (m : CMasternodeMan) (mnb : CMasternodeBroadcast) (nDos : Int)
    (hours : ¬ OwnOutdated env mnb) (hno : (addListed env hs m mnb nDos).1 = false) :
    (addListed env hs m mnb nDos).2.2.vMasternodes = m.vMasternodes := by
  have houtpoint := checkOutpoint_listed env hs m mnb nDos
  unfold addListed at hno ⊢
  dsimp only at hno ⊢
  split
  · exact houtpoint
  · rename_i hok
    rw [if_neg hok] at hno
    exact absurd (by simpa [OwnOutdated] using hno) hours

theorem checkMnb_refused {pfrom : Option CNetAddr} (hno : (checkMnbAndUpdateMasternodeList env hs m pfrom mnb).1 = false) :
    checkMnbAndUpdateMasternodeList env hs m pfrom mnb =
      if !(mnb.simpleCheck env).1 then (false, (mnb.simpleCheck env).2.1, m.see env hs mnb)
      else match m.find mnb.vin with
        | some pmn => updateListed env hs (m.see env hs mnb) (mnb.simpleCheck env).2.2 pmn
        | none => addListed env hs (m.see env hs mnb) (mnb.simpleCheck env).2.2 (mnb.simpleCheck env).2.1 := by
  obtain ⟨nActiveState, heq⟩ := simpleCheck_eq env mnb
  have hvin : (mnb.simpleCheck env).2.2.vin = mnb.vin := by rw [heq]
  unfold checkMnbAndUpdateMasternodeList at hno ⊢
  cases hseen : m.mapSeenMasternodeBroadcast[mnb.getHash hs]? with
  | none =>
    dsimp only
    rw [hvin]
    rfl
  | some e =>
    cases hrec : mnb.fRecovery with
    | false =>
      rw [hseen, hrec] at hno
      cases hno
    | true =>
      dsimp only
      rw [hvin]
      rfl

/-- A refused broadcast, unless it would list the node's own masternode with another protocol, changes at most the
    listed masternode of its outpoint, and that by a `Check`. -/
theorem refused_list (env : Env) (hs : Hashes) (m : CMasternodeMan) (pfrom : Option CNetAddr) (mnb : CMasternodeBroadcast)
    (hours : m.find mnb.vin = none → ¬ OwnOutdated env mnb)
    (hno : (checkMnbAndUpdateMasternodeList env hs m pfrom mnb).1 = false) :
    (((mnb.simpleCheck env).1 = false ∨ m.find mnb.vin = none) →
      (checkMnbAndUpdateMasternodeList env hs m pfrom mnb).2.2.vMasternodes = m.vMasternodes) ∧
    (∀ pmn, m.find mnb.vin = some pmn →
      (checkMnbAndUpdateMasternodeList env hs m pfrom mnb).2.2.vMasternodes = m.vMasternodes ∨
      (RefusedAfterCheck env m mnb pmn ∧ (checkMnbAndUpdateMasternodeList env hs m pfrom mnb).2.2.vMasternodes =
        (m.store (pmn.check env m.size false)).vMasternodes)) := by
  have hnew := checkMnb_refused hno
  rw [hnew] at hno ⊢
  cases hsimple : (mnb.simpleCheck env).1 with
  | false =>
    rw [Bool.not_false, if_pos rfl]
    exact ⟨fun _ => rfl, fun _ _ => .inl rfl⟩
  | true =>
    rw [hsimple, Bool.not_true, if_neg Bool.false_ne_true] at hno
    rw [Bool.not_true, if_neg Bool.false_ne_true]
    obtain ⟨nActiveState, heq⟩ := simpleCheck_eq env mnb
    rw [heq] at hno ⊢
    cases hfind : m.find mnb.vin with
    | none =>
      rw [hfind] at hno
      have hours : ¬ OwnOutdated env { mnb with nActiveState := nActiveState } := hours hfind
      have hsame := addListed_refused env hs (m.see env hs mnb) _ _ hours hno
      exact ⟨fun _ => hsame, fun pmn h => by cases h⟩
    | some pmn =>
      rw [hfind] at hno
      refine ⟨fun h => h.elim (fun h => by cases h) (fun h => by cases h), fun pmn' h => ?_⟩
      cases h
      have hsee : (m.see env hs mnb).find mnb.vin = some pmn := hfind
      exact updateListed_refused hsee hno

/-! ## No outpoint is listed twice -/

theorem distinct_of_listed (h : m.Distinct) (hlisted : m'.vMasternodes = m.vMasternodes) : m'.Distinct := by
  unfold CMasternodeMan.Distinct
  rw [hlisted]
  exact h

theorem distinct_map (h : m.Distinct) {f : CMasternode → CMasternode} (hvin : ∀ mn, (f mn).vin = mn.vin)
    (hlisted : m'.vMasternodes = m.vMasternodes.map f) : m'.Distinct := by
  unfold CMasternodeMan.Distinct
  have hsame : (m.vMasternodes.map f).map (·.vin.prevout) = m.vMasternodes.map (·.vin.prevout) := by
    rw [List.map_map]
    exact List.map_congr_left fun mn _ => congrArg CTxIn.prevout (hvin mn)
  rw [hlisted, hsame]
  exact h

theorem distinct_store (h : m.Distinct) (hfind : m.find vin = some pmn) (hlisted : m'.vMasternodes = m.vMasternodes)
    (hvin : pmn'.vin = pmn.vin) : (m'.store pmn').Distinct := by
  obtain ⟨-, as, bs, hlist, hstored⟩ := find_store hfind hlisted hvin
  unfold CMasternodeMan.Distinct at h ⊢
  rw [hlist, List.map_append, List.map_cons] at h
  rw [hstored, List.map_append, List.map_cons, hvin]
  exact h

theorem distinct_add (h : m.Distinct) (mn : CMasternode) : (m.add mn).2.Distinct := by
  unfold CMasternodeMan.add
  split
  · exact h
  · rename_i hfind
    unfold CMasternodeMan.Distinct at h ⊢
    rw [List.map_append, List.nodup_append]
    refine ⟨h, by simp, ?_⟩
    intro o ho o' ho' heq
    rw [List.map_cons, List.map_nil, List.mem_singleton] at ho'
    obtain ⟨mn', hmn', hprevout⟩ := List.mem_map.1 ho
    have hother := List.find?_eq_none.1 hfind mn' hmn'
    exact hother (beq_iff_eq.2 (hprevout.trans (heq.trans ho')))

theorem distinct_updateListed (h : m.Distinct) (hfind : m.find vin = some pmn) :
    (updateListed env hs m mnb pmn).2.2.Distinct := by
  apply distinct_of_listed _ updateListed_listed
  apply distinct_store h hfind (update_listed.trans (seenAt_listed env m _))
  rcases update_cases env hs (m.seenAt env (pmn.getHash hs)).2 mnb pmn with ⟨-, -, hkeeps⟩ | ⟨-, -, -, hkeeps⟩ | ⟨-, -, -, hkeeps⟩
  · exact congrArg Ident.vin hkeeps.ident
  · exact congrArg Ident.vin hkeeps.ident
  · exact congrArg Ident.vin hkeeps.ident

theorem distinct_addListed (h : m.Distinct) (nDos : Int) : (addListed env hs m mnb nDos).2.2.Distinct := by
  have houtpoint : (mnb.checkOutpoint env hs m nDos).2.2.Distinct := by
    apply distinct_of_listed h
    exact checkOutpoint_listed env hs m mnb nDos
  unfold addListed
  dsimp only
  split
  · exact houtpoint
  · exact distinct_add houtpoint _

theorem distinct_checkMnb (h : m.Distinct) (pfrom : Option CNetAddr) (mnb : CMasternodeBroadcast) :
    (checkMnbAndUpdateMasternodeList env hs m pfrom mnb).2.2.Distinct := by
  unfold checkMnbAndUpdateMasternodeList
  split
  · rename_i nTime mnbSeen _ _
    apply distinct_of_listed h
    rw [(takeReply_same env hs _ pfrom mnb mnbSeen).1, (bumpSeen_same env m _ nTime).1]
  · have hsee : (m.see env hs mnb).Distinct := h
    dsimp only
    split
    · exact hsee
    split
    · rename_i pmn hfind
      exact distinct_updateListed hsee hfind
    · exact distinct_addListed hsee _

theorem distinct_updateMasternodeList (h : m.Distinct) (mnb : CMasternodeBroadcast) :
    (updateMasternodeList env hs m mnb).Distinct := by
  have hsee : ((m.seePing hs mnb.lastPing).see env hs mnb).Distinct := h
  unfold updateMasternodeList
  generalize (m.seePing hs mnb.lastPing).see env hs mnb = m' at hsee
  dsimp only
  split
  · exact distinct_add hsee _
  · rename_i pmn hfind
    have hstored : ((pmn.updateFromNewBroadcast env hs (m'.seenAt env (pmn.getHash hs)).2 mnb).2.2.store
        (pmn.updateFromNewBroadcast env hs (m'.seenAt env (pmn.getHash hs)).2 mnb).2.1).Distinct := by
      apply distinct_store hsee hfind (updateFromNewBroadcast_listed.trans (seenAt_listed env m' _))
      cases hnewer : mnb.sigTime ≤ pmn.sigTime && !mnb.fRecovery with
      | true => rw [updateFromNewBroadcast_older hnewer]
      | false => exact congrArg Ident.vin (updateFromNewBroadcast_takes hnewer).ident
    split
    · exact hstored
    · exact hstored

theorem distinct_mnPing (h : m.Distinct) : (mnPing env hs m mnp).Distinct := by
  unfold mnPing
  split
  · exact h
  split
  · exact h
  dsimp only
  split
  · exact h
  rename_i pmn hfind
  split
  · exact h
  · have hkeeps : Keeps (m.seePing hs mnp) pmn (mnp.checkAndUpdate env hs (m.seePing hs mnp) pmn false).2.2 :=
      checkAndUpdate_keeps false
    have hping : (m.seePing hs mnp).Distinct := h
    exact distinct_store hping hfind hkeeps.listed (congrArg Ident.vin hkeeps.ident)

theorem sendMasternodes_listed (l : List CMasternode) : (sendMasternodes env hs vin l m).vMasternodes = m.vMasternodes := by
  induction l generalizing m with
  | nil => rfl
  | cons mn l ih =>
    rw [sendMasternodes]
    split
    · exact ih
    split
    · exact ih
    split
    · exact ih
    dsimp only
    split
    · rfl
    · exact ih

theorem check_vin (size : Nat) (fForce : Bool) (mn : CMasternode) : (mn.check env size fForce).vin = mn.vin :=
  congrArg Ident.vin (ident_check size fForce)

theorem removeSpent_sublist (setRequested : Uint256 → List CNetAddr) (nAsk : Nat) (l : List CMasternode) :
    (removeSpent env hs setRequested nAsk l m).1.Sublist l := by
  induction l generalizing nAsk m with
  | nil => exact List.Sublist.refl _
  | cons it l ih =>
    rw [removeSpent]
    dsimp only
    split
    · exact List.Sublist.cons it (ih _)
    · exact List.Sublist.cons_cons it (ih _)

theorem distinct_reprocess (h : m.Distinct) (reply : Uint256 × List CMasternodeBroadcast) :
    (reprocess env hs m reply).Distinct := by
  unfold reprocess
  dsimp only
  split
  · split
    · split
      · have hasked : ({ m with mMnbRecoveryRequests := m.mMnbRecoveryRequests.insertIfNew reply.1 (0, []) } :
            CMasternodeMan).Distinct := h
        exact distinct_checkMnb hasked none _
      · exact h
    · exact h
  · exact h

theorem distinct_checkAndRemove (h : m.Distinct) (setRequested : Uint256 → List CNetAddr) :
    (checkAndRemove env hs setRequested m).Distinct := by
  have hcheck : (m.check env).Distinct := distinct_map h (check_vin m.size false) rfl
  have hspent : (checkAndRemoveSpent env hs setRequested m).Distinct :=
    hcheck.sublist ((removeSpent_sublist setRequested mnbRecoveryMaxAskEntries _).map _)
  unfold checkAndRemove
  split
  · exact h
  · -- every reply keeps the list distinct
    have hreplies : ∀ (l : List (Uint256 × List CMasternodeBroadcast)) (m : CMasternodeMan), m.Distinct →
        (l.foldl (reprocess env hs) m).Distinct := by
      intro l
      induction l with
      | nil => exact fun _ h => h
      | cons reply l ih => exact fun _ h => ih _ (distinct_reprocess h reply)
    exact hreplies _ _ hspent

theorem distinct_checkMasternode (h : m.Distinct) (pubKeyMasternode : CPubKey) (fForce : Bool) :
    (checkMasternode env m pubKeyMasternode fForce).Distinct := by
  have hidents : (checkMasternode env m pubKeyMasternode fForce).vMasternodes.map CMasternode.ident =
      m.vMasternodes.map CMasternode.ident := idents_checkMasternode pubKeyMasternode fForce
  have hsame := congrArg (List.map fun x => x.vin.prevout) hidents
  rw [List.map_map, List.map_map] at hsame
  unfold CMasternodeMan.Distinct
  exact hsame.symm ▸ h

theorem distinct_step (h : m.Distinct) (e : Event) : (next hs m e).Distinct := by
  cases e with
  | mnAnnounce env pfrom a =>
    show (mnAnnounce env hs m pfrom a).Distinct
    unfold mnAnnounce
    split
    · exact h
    · exact distinct_checkMnb h (some pfrom) _
  | relayBroadcast env a fSafe =>
    show (relayBroadcast env hs m a fSafe).Distinct
    unfold relayBroadcast
    split
    · cases fSafe with
      | true => exact distinct_checkMnb h none _
      | false => exact distinct_updateMasternodeList h _
    · exact h
  | updateMasternodeList env a => exact distinct_updateMasternodeList h _
  | mnPing env mnp => exact distinct_mnPing h
  | setMasternodeLastPing vin mnp =>
    show (setMasternodeLastPing hs m vin mnp).Distinct
    unfold setMasternodeLastPing
    split
    · exact h
    · rename_i pmn hfind
      have hstored : (m.store { pmn with lastPing := mnp }).Distinct := distinct_store h hfind rfl rfl
      exact hstored
  | sseg env vin fAsked =>
    show (sseg env hs m vin fAsked).Distinct
    unfold sseg
    split
    · exact h
    split
    · exact h
    split
    · exact h
    · exact distinct_of_listed h (sendMasternodes_listed _)
  | check env => exact distinct_map h (check_vin m.size false) rfl
  | checkMasternode env pubKeyMasternode fForce => exact distinct_checkMasternode h pubKeyMasternode fForce
  | checkAndRemove env setRequested => exact distinct_checkAndRemove h setRequested
  | poSe score => exact distinct_map h (f := fun mn => { mn with nPoSeBanScore := score mn }) (fun _ => rfl) rfl

theorem distinct_run (hs : Hashes) (es : List Event) : ∀ m, run (step hs) .init es = some m → m.Distinct := by
  intro m hrun
  refine run_inv CMasternodeMan.Distinct (fun m e m' h hstep => ?_) ?_ hrun
  · cases hstep
    exact distinct_step h e
  · exact List.nodup_nil

/-- The masternode is announced from a second address. -/
theorem distinct_run_again : ∃ m, run (step sampleHashes) .init
    [.updateMasternodeList (sampleEnv 1000) (signedAt 1000),
      .mnAnnounce (sampleEnv 1360) [10, 0, 0, 9] { signedAt 1360 with addr := ⟨[10, 0, 0, 2], 32000⟩ }] = some m ∧ m.Distinct :=
  ⟨_, run_total (fun _ _ => rfl) _ _, distinct_run sampleHashes _ _ (run_total (fun _ _ => rfl) _ _)⟩

/-! ## Two refusals -/

/-- A broadcast of the first masternode, with the node's own masternode key or another. -/
def secondBroadcast (pubKeyMasternode : CPubKey) (nProtocolVersion : Int) : CMasternodeBroadcast :=
  Announcement.read ⟨inputOf 1, ⟨[10, 0, 0, 1], 32000⟩, [1], pubKeyMasternode, [1], 2000, nProtocolVersion, nullPing⟩

/-- A list of the first masternode, banned to height 100 and checked at time 0. -/
def listOfBanned : CMasternodeMan :=
  let mn : CMasternode :=
    (Announcement.read ⟨inputOf 1, ⟨[10, 0, 0, 1], 32000⟩, [1], [2], [1], 1000, 80005, nullPing⟩).toMasternode
  { CMasternodeMan.init with vMasternodes := [{ mn with nActiveState := .poseBan, nPoSeBanHeight := 100 }] }

def masternodeEnv (now : Int) : Env := { sampleEnv now with fMasterNode := true, activePubKeyMasternode := [2] }

def RefusalsChangeNothing (ok : Env → CMasternodeMan → CMasternodeBroadcast → Prop) : Prop :=
  ∀ (env : Env) (hs : Hashes) (m : CMasternodeMan) (pfrom : Option CNetAddr) (mnb : CMasternodeBroadcast), ok env m mnb →
    (checkMnbAndUpdateMasternodeList env hs m pfrom mnb).1 = false →
    (checkMnbAndUpdateMasternodeList env hs m pfrom mnb).2.2.vMasternodes = m.vMasternodes

/-- A banned masternode is checked before its broadcast is refused; the node's own of an old protocol is listed. -/
theorem refusals_change_list : ¬ RefusalsChangeNothing (fun env _ mnb => ¬ OwnOutdated env mnb) ∧
    ¬ RefusalsChangeNothing (fun _ m mnb => m.find mnb.vin = none) := by
  constructor
  · intro h
    have hsame := h (sampleEnv 2000) sampleHashes listOfBanned none (secondBroadcast [2] 80005) (by decide +kernel)
        (by decide +kernel)
    exact absurd hsame (by decide +kernel)
  · intro h
    have hsame := h (masternodeEnv 2000) sampleHashes .init none (secondBroadcast [2] 80004) (by decide +kernel)
        (by decide +kernel)
    exact absurd hsame (by decide +kernel)

/-- A broadcast of another masternode, with a signature of another key, leaves the list alone. -/
theorem forged_refused :
    let mnb : CMasternodeBroadcast :=
      Announcement.read ⟨inputOf 3, ⟨[10, 0, 0, 3], 32000⟩, [1], [2], [3], 2000, 80005, nullPing⟩
    (checkMnbAndUpdateMasternodeList (sampleEnv 2000) sampleHashes listOfBanned none mnb).1 = false ∧
    (checkMnbAndUpdateMasternodeList (sampleEnv 2000) sampleHashes listOfBanned none mnb).2.2.vMasternodes =
      listOfBanned.vMasternodes := by
  intro mnb
  have hno : (checkMnbAndUpdateMasternodeList (sampleEnv 2000) sampleHashes listOfBanned none mnb).1 = false := by
    decide +kernel
  have hlist := refused_list (sampleEnv 2000) sampleHashes listOfBanned none mnb (fun _ => by decide +kernel) hno
  exact ⟨hno, hlist.1 (.inr (by decide +kernel))⟩

end Zumy.Announce
