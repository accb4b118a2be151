/-
  Zumy.Payments.SeenVotes — a forged payment vote and the genuine one.

  `ProcessMessage` stores the hash of every new vote before any check, and `CanVote` records
  the height for the masternode before the signature is checked. The hash does not cover
  the signature, so a forged vote that is read keeps the genuine vote with its hash out;
  one that gets as far as `CanVote` also keeps out the masternode's vote for another payee.

  - `unread_forgeries_prevent_nothing`: a run whose forged votes are all unread counts what the
    run without them counts; any other forged vote is stored, and a vote with its hash is
    dropped; one that is in range and valid makes every vote of its masternode for its
    height count for nothing until the masternode's last height changes.
-/
import Zumy.Payments.Tallies

namespace Zumy.Payments

open Lib CMasternodePayments

variable {voteHash : CScript → Int → COutPoint → Uint256} {env : Env} {s s' : CMasternodePayments}

def CMasternodePaymentVote.isSigned (v : CMasternodePaymentVote) (env : Env) : Bool :=
  (env.find v.vinMasternode).any fun mnInfo => v.checkSignature env mnInfo.pubKeyMasternode

def isForged (ev : Env × Event) : Bool :=
  match ev.2 with
  | .paymentVote _ v => !v.isSigned ev.1
  | _ => false

/-- A forged vote arrives while votes are ignored or no block is known, or its hash is stored already. -/
def ForgedUnread (voteHash : CScript → Int → COutPoint → Uint256) (s : CMasternodePayments) (ev : Env × Event) : Prop :=
  match ev.2 with
  | .paymentVote nVersion v => v.isSigned ev.1 = false →
      ev.1.ignoresVotes nVersion = true ∨ s.pCurrentBlockIndex = none ∨
      s.mapMasternodePaymentVotes.contains (v.getHash voteHash) = true
  | _ => True

def Counted (voteHash : CScript → Int → COutPoint → Uint256) (s : CMasternodePayments) (v : CMasternodePaymentVote) : Prop :=
  s.Verified (v.getHash voteHash) v ∧ v.getHash voteHash ∈ s.voteHashes v.nBlockHeight

def CountedAfter (voteHash : CScript → Int → COutPoint → Uint256) (es : List (Env × Event)) (v : CMasternodePaymentVote) :
    Prop := ∃ s, run (step voteHash) init es = some s ∧ Counted voteHash s v

/-! ## Unread forged votes -/

theorem processMessage_unread {nVersion : Int} {v : CMasternodePaymentVote}
    (h : env.ignoresVotes nVersion = true ∨ s.pCurrentBlockIndex = none ∨
      s.mapMasternodePaymentVotes.contains (v.getHash voteHash) = true) : s.processMessage voteHash env nVersion v = s := by
  unfold processMessage
  by_cases hign : env.ignoresVotes nVersion = true
  · rw [if_pos hign]
  · rw [if_neg hign]
    cases ht : s.pCurrentBlockIndex with
    | none => rfl
    | some nHeight =>
      rcases h with hign' | hnone | hseen
      · exact absurd hign' hign
      · rw [ht] at hnone
        cases hnone
      · simp only [hseen, if_true]

theorem step_forgedUnread {ev : Env × Event} (hf : isForged ev = true) (hok : ForgedUnread voteHash s ev) :
    step voteHash s ev = some s := by
  obtain ⟨env, e⟩ := ev
  cases e with
  | paymentVote nVersion v =>
    have hsig : v.isSigned env = false := by simpa [isForged] using hf
    exact congrArg some (processMessage_unread (hok hsig))
  | updatedBlockTip nHeight => cases hf
  | checkAndRemove => cases hf
  | clear => cases hf
  | restart => cases hf

/-! ## A forged vote that is read -/

/-- What a forged vote that is read leaves behind: its hash, without a signature, and, when it
is in range and valid, its height as the last one of its masternode. -/
theorem processMessage_forged {nVersion nHeight : Int} {v : CMasternodePaymentVote} (hsig : v.isSigned env = false)
    (hign : env.ignoresVotes nVersion = false) (ht : s.pCurrentBlockIndex = some nHeight)
    (hseen : s.mapMasternodePaymentVotes.contains (v.getHash voteHash) = false) :
    s.processMessage voteHash env nVersion v =
      if env.inRange nHeight v.nBlockHeight && v.isValid env nHeight then
        ((s.storeSeen voteHash v).canVote v.vinMasternode.prevout v.nBlockHeight).2
      else s.storeSeen voteHash v := by
  have hcheck (t : CMasternodePayments) : t.checkVote voteHash env v = t := by
    unfold checkVote
    cases hfind : env.find v.vinMasternode with
    | none => rfl
    | some mnInfo =>
      have hbad : v.checkSignature env mnInfo.pubKeyMasternode = false := by
        simpa [CMasternodePaymentVote.isSigned, hfind] using hsig
      simp only [hbad, Bool.false_eq_true, if_false]
  simp only [processMessage, hign, ht, hseen, Bool.false_eq_true, if_false, readVote, hcheck, ite_self]
  by_cases hrange : env.inRange nHeight v.nBlockHeight = true
  · by_cases hvalid : v.isValid env nHeight = true
    · simp [hrange, hvalid]
    · simp [hrange, hvalid]
  · simp [hrange]

theorem canVote_votes (s : CMasternodePayments) (o : COutPoint) (h : Int) :
    (s.canVote o h).2.mapMasternodePaymentVotes = s.mapMasternodePaymentVotes ∧
    (s.canVote o h).2.mapMasternodeBlocks = s.mapMasternodeBlocks := by
  unfold canVote
  split <;> exact ⟨rfl, rfl⟩

theorem canVote_last (s : CMasternodePayments) (o : COutPoint) (h : Int) :
    (s.canVote o h).2.mapMasternodesLastVote[o]? = some h := by
  unfold canVote
  by_cases hlast : s.mapMasternodesLastVote[o]? = some h
  · simp [hlast]
  · simp [hlast]

theorem processMessage_last {nVersion : Int} {w : CMasternodePaymentVote} {k : Uint256} {u : CMasternodePaymentVote}
    (hlast : s.mapMasternodesLastVote[w.vinMasternode.prevout]? = some w.nBlockHeight)
    (hu : (s.processMessage voteHash env nVersion w).Verified k u) : s.Verified k u := by
  rcases processMessage_cases voteHash s env nVersion w with hver | ⟨-, hne, -⟩
  · exact hver k u hu
  · exact absurd hlast hne

theorem unread_forgeries_prevent_nothing :
    (∀ (es : List (Env × Event)) (ev : Env × Event) (v : CMasternodePaymentVote),
      Meets (step voteHash) (ForgedUnread voteHash) init es →
      CountedAfter voteHash ((es.filter fun ev => !isForged ev) ++ [ev]) v → CountedAfter voteHash (es ++ [ev]) v) ∧
    ∀ (s : CMasternodePayments) (env : Env) (nVersion : Int) (v : CMasternodePaymentVote), v.isSigned env = false →
      ¬ ForgedUnread voteHash s (env, .paymentVote nVersion v) → ∃ s' nHeight,
      step voteHash s (env, .paymentVote nVersion v) = some s' ∧ s.pCurrentBlockIndex = some nHeight ∧
      (∀ env' nVersion' w, CMasternodePaymentVote.getHash voteHash w = v.getHash voteHash →
        step voteHash s' (env', .paymentVote nVersion' w) = some s') ∧
      ((env.inRange nHeight v.nBlockHeight && v.isValid env nHeight) = true →
        ∀ env' nVersion' w, w.vinMasternode.prevout = v.vinMasternode.prevout → w.nBlockHeight = v.nBlockHeight →
          ∀ k u, (next voteHash s' (env', .paymentVote nVersion' w)).Verified k u → s'.Verified k u) := by
  constructor
  · rintro es ev v hok ⟨s, hs, hcount⟩
    have hsame : run (step voteHash) init es = run (step voteHash) init (es.filter fun ev => !isForged ev) :=
      run_filter_of_meets (fun _ _ hf hunread => step_forgedUnread hf hunread) hok
    refine ⟨s, ?_, hcount⟩
    rw [run_append, hsame, ← run_append]
    exact hs
  · intro s env nVersion v hsig hread
    have hread' : ¬ (env.ignoresVotes nVersion = true ∨ s.pCurrentBlockIndex = none ∨
        s.mapMasternodePaymentVotes.contains (v.getHash voteHash) = true) := fun h => hread fun _ => h
    rw [not_or, not_or, Bool.not_eq_true, Bool.not_eq_true] at hread'
    obtain ⟨hign, ht, hseen⟩ := hread'
    obtain ⟨nHeight, ht⟩ := Option.ne_none_iff_exists'.1 ht
    have hstored : (s.storeSeen voteHash v).mapMasternodePaymentVotes.contains (v.getHash voteHash) = true := by
      simp [storeSeen]
    refine ⟨s.processMessage voteHash env nVersion v, nHeight, rfl, ht, fun env' nVersion' w hw => ?_, fun hpass => ?_⟩
    · refine congrArg some (processMessage_unread (.inr (.inr ?_)))
      rw [hw, processMessage_forged hsig hign ht hseen]
      split
      · rw [(canVote_votes _ _ _).1]
        exact hstored
      · exact hstored
    · intro env' nVersion' w ho hh k u hu
      refine processMessage_last ?_ hu
      rw [processMessage_forged hsig hign ht hseen, if_pos hpass, ho, hh]
      exact canVote_last _ _ _

/-! ## A forged vote that comes first -/

def forgedVote (payee : CScript) : CMasternodePaymentVote := { signedVote 1 10 payee with vchSig := List.replicate 65 0 }

/-- The forged vote is for the payee of the genuine one, and then for another payee. -/
theorem forgery_keeps_vote_out :
    (forgedVote [5]).isSigned network = false ∧ (forgedVote [6]).isSigned network = false ∧
    CountedAfter smallHash firstVote (signedVote 1 10 [5]) ∧
    ¬ CountedAfter smallHash [(network, .updatedBlockTip 5), (network, .paymentVote 70206 (forgedVote [5])),
      (network, .paymentVote 70206 (signedVote 1 10 [5]))] (signedVote 1 10 [5]) ∧
    ¬ CountedAfter smallHash [(network, .updatedBlockTip 5), (network, .paymentVote 70206 (forgedVote [6])),
      (network, .paymentVote 70206 (signedVote 1 10 [5]))] (signedVote 1 10 [5]) := by
  have hnone {es : List (Env × Event)}
      (hes : (es.foldl (next smallHash) init).voteHashes 10 = []) : ¬ CountedAfter smallHash es (signedVote 1 10 [5]) := by
    intro h
    rcases h with ⟨s, hs, -, hlist⟩
    rw [run_step] at hs
    cases hs
    rw [show (signedVote 1 10 [5]).nBlockHeight = 10 from rfl, hes] at hlist
    cases hlist
  refine ⟨by decide, by decide, ⟨_, run_step init firstVote, ⟨?_, rfl⟩, ?_⟩, hnone (by decide), hnone (by decide)⟩
  · decide
  · decide

end Zumy.Payments
