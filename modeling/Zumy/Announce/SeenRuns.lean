/-
  Zumy.Announce.SeenRuns — `mapSeenMasternodeBroadcast` over whole runs.

  A broadcast of a listed masternode that arrives within `MASTERNODE_MIN_MNB_SECONDS` of the
  one before is not taken, but the one before is forgotten all the same; and a broadcast is
  taken for the outpoint alone, though its hash covers the whole input and the collateral key.

  - `filed_step`: a call that meets its condition keeps every current broadcast filed.
  - `early_broadcast_is_lost`: two broadcasts, 100 seconds apart.
-/
import Zumy.Announce.SeenBroadcasts

namespace Zumy.Announce

open Lib

variable {env : Env} {hs : Hashes} {m : CMasternodeMan} {mnb : CMasternodeBroadcast} {mn pmn : CMasternode}
  {mnp : CMasternodePing} {vin : CTxIn}

/-! ## `CheckAndRemove` -/

/-- The list as the loop has it: `before` is what it went over, `l` what is ahead. -/
abbrev ListFiled (hs : Hashes) (l : List CMasternode) (m : CMasternodeMan) : Prop :=
  Filed (Ident.getHash hs) (fun x => x.vin.prevout) (l.map CMasternode.ident) m.seenIdent

/-- The induction is on what is ahead of the loop; a spent masternode goes with its broadcast. -/
theorem filed_removeSpent (hfree : CollisionFree hs) (setRequested : Uint256 → List CNetAddr) (nAsk : Nat)
    (before l : List CMasternode) (h : ListFiled hs (before ++ l) m) :
    ListFiled hs (before ++ (removeSpent env hs setRequested nAsk l m).1) (removeSpent env hs setRequested nAsk l m).2 := by
  induction l generalizing before nAsk m with
  | nil => exact h
  | cons it l ih =>
    rw [removeSpent]
    split
    · apply ih
      unfold ListFiled at h ⊢
      rw [List.map_append, List.map_cons] at h
      rw [List.map_append]
      exact h.withdraw (prevout_eq_of_getHash hfree) (seenIdent_forget _)
    · -- a masternode that is not spent goes behind the others
      have hbehind (m' : CMasternodeMan) (hseen : m'.seenIdent = m.seenIdent) : ListFiled hs ((before ++ [it]) ++ l) m' := by
        rw [List.append_assoc]
        unfold ListFiled
        rw [hseen]
        exact h
      have hrest (nAsk : Nat) (m' : CMasternodeMan) (hseen : m'.seenIdent = m.seenIdent) :
          ListFiled hs (before ++ it :: (removeSpent env hs setRequested nAsk l m').1)
            (removeSpent env hs setRequested nAsk l m').2 := by
        have hrec := ih nAsk (before ++ [it]) (hbehind m' hseen)
        rwa [List.append_assoc] at hrec
      apply hrest
      split <;> rfl

theorem filed_check (h : CurrentFiled hs m) : CurrentFiled hs (m.check env) := by
  apply filed_of_same h
  · unfold CMasternodeMan.check
    rw [List.map_map]
    exact List.map_congr_left fun mn _ => ident_check _ _
  · rfl

theorem filed_checkAndRemoveSpent (hfree : CollisionFree hs) (h : CurrentFiled hs m) (setRequested : Uint256 → List CNetAddr) :
    CurrentFiled hs (checkAndRemoveSpent env hs setRequested m) :=
  filed_removeSpent hfree setRequested mnbRecoveryMaxAskEntries [] (m.check env).vMasternodes (filed_check h)

def replyOk (env : Env) (hs : Hashes) (m : CMasternodeMan) (reply : Uint256 × List CMasternodeBroadcast) : Bool :=
  !((m.mMnbRecoveryRequests[reply.1]?.map (·.1)).getD 0 < env.getTime) ||
  match reply.2 with
  | [] => true
  | mnb :: _ => !(reply.2.length ≥ mnbRecoveryQuorumRequired) ||
    announceOk env hs { m with mMnbRecoveryRequests := m.mMnbRecoveryRequests.insertIfNew reply.1 (0, []) }
      { mnb with fRecovery := true }

theorem filed_reprocess (hfree : CollisionFree hs) (h : CurrentFiled hs m) {reply : Uint256 × List CMasternodeBroadcast}
    (hok : replyOk env hs m reply = true) : CurrentFiled hs (reprocess env hs m reply) := by
  obtain ⟨hash, mnbs⟩ := reply
  unfold reprocess
  dsimp only
  split
  · rename_i hdue
    cases mnbs with
    | nil => exact h
    | cons mnb mnbs =>
      dsimp only
      split
      · rename_i hquorum
        have hrequests : CurrentFiled hs
            { m with mMnbRecoveryRequests := m.mMnbRecoveryRequests.insertIfNew hash (0, []) } := h
        apply filed_checkMnb hfree hrequests none
        unfold replyOk at hok
        dsimp only at hok
        rwa [decide_eq_true hdue, decide_eq_true hquorum, Bool.not_true, Bool.false_or, Bool.false_or] at hok
      · exact h
  · exact h

/-! ## Pings and lists -/

theorem filed_mnPing (h : CurrentFiled hs m) : CurrentFiled hs (mnPing env hs m mnp) := by
  unfold mnPing
  split
  · exact h
  split
  · exact h
  dsimp only
  split
  · exact h
  rename_i pmn hfind
  split
  · exact h
  · have hping : CurrentFiled hs (m.seePing hs mnp) := h
    have hkeeps : Keeps (m.seePing hs mnp) pmn (mnp.checkAndUpdate env hs (m.seePing hs mnp) pmn false).2.2 :=
      checkAndUpdate_keeps false
    exact filed_store hping hfind hkeeps.listed hkeeps.seen hkeeps.ident

theorem filed_sendMasternodes (h : CurrentFiled hs m) (l : List CMasternode) :
    CurrentFiled hs (sendMasternodes env hs vin l m) := by
  induction l generalizing m with
  | nil => exact h
  | cons mn l ih =>
    rw [sendMasternodes]
    split
    · exact ih h
    split
    · exact ih h
    split
    · exact ih h
    have hsee : CurrentFiled hs (m.see env hs mn.toBroadcast) := filed_see h
    dsimp only
    split
    · exact hsee
    · exact ih hsee

theorem filed_sseg (h : CurrentFiled hs m) (fAsked : Bool) : CurrentFiled hs (sseg env hs m vin fAsked) := by
  unfold sseg
  split
  · exact h
  split
  · exact h
  split
  · exact h
  · exact filed_sendMasternodes h _

theorem filed_setMasternodeLastPing (h : CurrentFiled hs m) : CurrentFiled hs (setMasternodeLastPing hs m vin mnp) := by
  unfold setMasternodeLastPing
  split
  · exact h
  · rename_i pmn hfind
    have hstored : CurrentFiled hs (m.store { pmn with lastPing := mnp }) := filed_store h hfind rfl rfl rfl
    exact filed_of_same hstored rfl seenIdent_seeLastPing

theorem idents_checkMasternode (pubKeyMasternode : CPubKey) (fForce : Bool) :
    (checkMasternode env m pubKeyMasternode fForce).vMasternodes.map CMasternode.ident = m.vMasternodes.map CMasternode.ident := by
  unfold checkMasternode
  apply List.ext_getElem?
  intro i
  simp only [List.getElem?_map, List.getElem?_modify]
  cases m.vMasternodes[i]? with
  | none => rfl
  | some mn =>
    simp only [Option.map_some, Option.map_eq_map, Option.some.injEq]
    split
    · exact ident_check _ _
    · rfl

theorem filed_checkMasternode (h : CurrentFiled hs m) (pubKeyMasternode : CPubKey) (fForce : Bool) :
    CurrentFiled hs (checkMasternode env m pubKeyMasternode fForce) :=
  filed_of_same h (idents_checkMasternode pubKeyMasternode fForce) rfl

/-! ## Runs -/

inductive Event where
  | mnAnnounce (env : Env) (pfrom : CNetAddr) (a : Announcement)
  | relayBroadcast (env : Env) (a : Announcement) (fSafe : Bool)
  /-- A broadcast the node made itself. -/
  | updateMasternodeList (env : Env) (a : Announcement)
  | mnPing (env : Env) (mnp : CMasternodePing)
  | setMasternodeLastPing (vin : CTxIn) (mnp : CMasternodePing)
  | sseg (env : Env) (vin : CTxIn) (fAsked : Bool)
  | check (env : Env)
  | checkMasternode (env : Env) (pubKeyMasternode : CPubKey) (fForce : Bool)
  | checkAndRemove (env : Env) (setRequested : Uint256 → List CNetAddr)
  /-- The checks of proof of service move ban scores, and nothing else of a masternode. -/
  | poSe (nPoSeBanScore : CMasternode → Int)

def next (hs : Hashes) (m : CMasternodeMan) : Event → CMasternodeMan
  | .mnAnnounce env pfrom a => mnAnnounce env hs m pfrom a
  | .relayBroadcast env a fSafe => relayBroadcast env hs m a fSafe
  | .updateMasternodeList env a => updateMasternodeList env hs m a.read
  | .mnPing env mnp => mnPing env hs m mnp
  | .setMasternodeLastPing vin mnp => setMasternodeLastPing hs m vin mnp
  | .sseg env vin fAsked => sseg env hs m vin fAsked
  | .check env => m.check env
  | .checkMasternode env pubKeyMasternode fForce => checkMasternode env m pubKeyMasternode fForce
  | .checkAndRemove env setRequested => checkAndRemove env hs setRequested m
  | .poSe score => { m with vMasternodes := m.vMasternodes.map fun mn => { mn with nPoSeBanScore := score mn } }

def step (hs : Hashes) (m : CMasternodeMan) (e : Event) : Option CMasternodeMan := some (next hs m e)

def Ok (hs : Hashes) (m : CMasternodeMan) : Event → Prop
  | .mnAnnounce env _ a => announceOk env hs m a.read = true
  | .relayBroadcast env a fSafe => if fSafe then announceOk env hs m a.read = true else updateOk hs m a.read = true
  | .updateMasternodeList _ a => updateOk hs m a.read = true
  | .checkAndRemove env setRequested =>
    Meets (fun m reply => some (reprocess env hs m reply)) (fun m reply => replyOk env hs m reply = true)
      (checkAndRemoveSpent env hs setRequested m) (checkAndRemoveSpent env hs setRequested m).mMnbRecoveryGoodReplies.toList
  | _ => True

instance (hs : Hashes) (m : CMasternodeMan) : (e : Event) → Decidable (Ok hs m e)
  | .mnAnnounce env _ a => inferInstanceAs (Decidable (announceOk env hs m a.read = true))
  | .relayBroadcast env a fSafe =>
    inferInstanceAs (Decidable (if fSafe then announceOk env hs m a.read = true else updateOk hs m a.read = true))
  | .updateMasternodeList _ a => inferInstanceAs (Decidable (updateOk hs m a.read = true))
  | .checkAndRemove env setRequested => inferInstanceAs (Decidable (Meets _ _
      (checkAndRemoveSpent env hs setRequested m) (checkAndRemoveSpent env hs setRequested m).mMnbRecoveryGoodReplies.toList))
  | .mnPing .. | .setMasternodeLastPing .. | .sseg .. | .check .. | .checkMasternode .. | .poSe .. => .isTrue trivial

theorem filed_init : CurrentFiled hs .init := by
  have hnone : CMasternodeMan.init.seenIdent = fun _ => none := by
    funext k
    simp [CMasternodeMan.seenIdent, CMasternodeMan.init]
  unfold CurrentFiled
  rw [hnone]
  exact Filed.empty

theorem filed_checkAndRemove (hfree : CollisionFree hs) (h : CurrentFiled hs m) (setRequested : Uint256 → List CNetAddr)
    (hok : Ok hs m (.checkAndRemove env setRequested)) : CurrentFiled hs (checkAndRemove env hs setRequested m) := by
  unfold checkAndRemove
  split
  · exact h
  · have hreplies := run_inv_of_meets (CurrentFiled hs)
      (fun m reply m' hm hreply hstep => by
        cases hstep
        exact filed_reprocess hfree hm hreply) hok (filed_checkAndRemoveSpent hfree h setRequested)
          (run_total (fun _ _ => rfl) _ _)
    exact hreplies

theorem filed_step (hfree : CollisionFree hs) (h : CurrentFiled hs m) {e : Event} (hok : Ok hs m e) :
    CurrentFiled hs (next hs m e) := by
  cases e with
  | mnAnnounce env pfrom a =>
    show CurrentFiled hs (mnAnnounce env hs m pfrom a)
    unfold mnAnnounce
    split
    · exact h
    · exact filed_checkMnb hfree h (some pfrom) hok
  | relayBroadcast env a fSafe =>
    show CurrentFiled hs (relayBroadcast env hs m a fSafe)
    unfold relayBroadcast
    split
    · cases fSafe with
      | true => exact filed_checkMnb hfree h none hok
      | false => exact filed_updateMasternodeList hfree h rfl hok
    · exact h
  | updateMasternodeList env a => exact filed_updateMasternodeList hfree h rfl hok
  | mnPing env mnp => exact filed_mnPing h
  | setMasternodeLastPing vin mnp => exact filed_setMasternodeLastPing h
  | sseg env vin fAsked => exact filed_sseg h fAsked
  | check env => exact filed_check h
  | checkMasternode env pubKeyMasternode fForce => exact filed_checkMasternode h pubKeyMasternode fForce
  | checkAndRemove env setRequested => exact filed_checkAndRemove hfree h setRequested hok
  | poSe score =>
    apply filed_of_same h
    · exact List.map_map
    · rfl

/-- In every run whose broadcasts meet their conditions, every broadcast is under its hash and that of
    each listed masternode is there. -/
theorem consistent_of_meets (hs : Hashes) (hfree : CollisionFree hs) (es : List Event) (hm : Meets (step hs) (Ok hs) .init es) :
    ∀ m, run (step hs) .init es = some m → Consistent hs m := by
  intro m hrun
  apply consistent_of_filed
  apply run_inv_of_meets (CurrentFiled hs) _ hm filed_init hrun
  intro m e m' hfiled hok hstep
  cases hstep
  exact filed_step hfree hfiled hok

theorem sampleHashes_collisionFree : CollisionFree sampleHashes where
  broadcast vin pubKey sigTime vin' pubKey' sigTime' h := by
    have hbytes (l l' : List UInt8) (hl : l.map UInt8.toNat = l'.map UInt8.toNat) : l = l' :=
      List.map_injective_iff.2 (fun _ _ => UInt8.toNat_inj.1) hl
    simp only [sampleHashes, encodeTxIn, Encodable.encode_inj, Prod.mk.injEq] at h
    obtain ⟨⟨hhash, hn, hscript, hsequence⟩, hkey, htime⟩ := h
    obtain ⟨⟨hash, n⟩, scriptSig, nSequence⟩ := vin
    obtain ⟨⟨hash', n'⟩, scriptSig', nSequence'⟩ := vin'
    dsimp only at hhash hn hscript hsequence
    rw [hhash, hn, hbytes _ _ hscript, hsequence, hbytes _ _ hkey, htime]
    exact ⟨rfl, rfl, rfl⟩

def signedAt (sigTime : Int) : Announcement := ⟨inputOf 1, ⟨[10, 0, 0, 1], 32000⟩, [1], [2], [1], sigTime, 80005, nullPing⟩

/-- The masternode is started, and announced again after six minutes. -/
theorem late_broadcast_is_seen : ∃ m, run (step sampleHashes) .init
    [.updateMasternodeList (sampleEnv 1000) (signedAt 1000),
      .mnAnnounce (sampleEnv 1360) [10, 0, 0, 9] (signedAt 1360)] = some m ∧
    Consistent sampleHashes m := by
  refine ⟨_, run_total (fun _ _ => rfl) _ _, ?_⟩
  exact consistent_of_meets sampleHashes sampleHashes_collisionFree _ (by decide +kernel) _ (run_total (fun _ _ => rfl) _ _)

/-- Announced again within five minutes, it is listed as it was, and its broadcast is gone. -/
def earlyRun : List Event :=
  [.updateMasternodeList (sampleEnv 1000) (signedAt 1000), .mnAnnounce (sampleEnv 1100) [10, 0, 0, 9] (signedAt 1100)]

theorem early_broadcast_is_lost :
    ¬ ∀ hs, CollisionFree hs → ∀ (es : List Event) m, run (step hs) .init es = some m → Consistent hs m := by
  intro h
  have hconsistent := h sampleHashes sampleHashes_collisionFree earlyRun _ (run_total (fun _ _ => rfl) CMasternodeMan.init earlyRun)
  have hlisted : (earlyRun.foldl (next sampleHashes) .init).vMasternodes.map (·.getHash sampleHashes) =
      [(signedAt 1000).read.getHash sampleHashes] := by decide +kernel
  obtain ⟨mn, hmn, hhash⟩ := List.mem_map.1 (hlisted ▸ List.mem_singleton_self _)
  obtain ⟨e, he, -⟩ := hconsistent.current mn hmn
  have hgone : ((earlyRun.foldl (next sampleHashes) .init).mapSeenMasternodeBroadcast[
      (signedAt 1000).read.getHash sampleHashes]?).isNone = true := by decide +kernel
  rw [← hhash, he] at hgone
  cases hgone

end Zumy.Announce
