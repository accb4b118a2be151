/-
  Zumy.Payments.VoteHeights — the heights of the stored payment votes (masternode-payments.cpp).

  `ProcessMessage` stores a vote before it compares its height with the tip, and
  `CheckAndRemove` drops a vote only when the tip is more than the storage limit above it. So
  a vote for a height far above the tip is never dropped, and the difference of the two
  heights need not fit an `int`.
-/
import Zumy.Payments.Tallies

namespace Zumy.Payments

open Lib CMasternodePayments

variable {voteHash : CScript → Int → COutPoint → Uint256} {env : Env} {s s' : CMasternodePayments} {v : CMasternodePaymentVote}
  {k : Uint256} {nVersion nHeight : Int}

/-- The values of an `int`. -/
def InInt (n : Int) : Prop := -2 ^ 31 ≤ n ∧ n < 2 ^ 31

instance (n : Int) : Decidable (InInt n) := inferInstanceAs (Decidable (_ ∧ _))

def Stores (voteHash : CScript → Int → COutPoint → Uint256) (s : CMasternodePayments) (env : Env) (nVersion : Int)
    (v : CMasternodePaymentVote) : Prop :=
  env.ignoresVotes nVersion = false ∧ s.mapMasternodePaymentVotes.contains (v.getHash voteHash) = false

/-- Every stored vote has a height that satisfies `p`. -/
def StoredHeights (s : CMasternodePayments) (p : Int → Prop) : Prop :=
  ∀ (k : Uint256) (v : CMasternodePaymentVote), s.mapMasternodePaymentVotes[k]? = some v → p v.nBlockHeight

/-- What one event has to do: the comparisons it makes are exact, and `CheckAndRemove` leaves votes of the
    storage window only. -/
def HeightsBounded (voteHash : CScript → Int → COutPoint → Uint256) (s : CMasternodePayments) (ev : Env × Event)
    (s' : CMasternodePayments) : Prop :=
  ∀ nHeight, s.pCurrentBlockIndex = some nHeight →
    match ev.2 with
    | .paymentVote nVersion v => Stores voteHash s ev.1 nVersion v →
        InInt (nHeight - ev.1.getStorageLimit) ∧ (¬ v.nBlockHeight < nHeight - ev.1.getStorageLimit → InInt (nHeight + 20))
    | .checkAndRemove => StoredHeights s (fun h => InInt (nHeight - h)) ∧
        StoredHeights s' (fun h => nHeight - ev.1.getStorageLimit ≤ h ∧ h ≤ nHeight + 20)
    | _ => True

/-- The tip and the stored votes before an event: the tip is 20 below the end of its range, and at
    `CheckAndRemove` no stored vote is too early, or 2^31 blocks old. -/
def VotesTimely (voteHash : CScript → Int → COutPoint → Uint256) (s : CMasternodePayments) (ev : Env × Event) : Prop :=
  ∀ nHeight, s.pCurrentBlockIndex = some nHeight →
    match ev.2 with
    | .paymentVote nVersion v => Stores voteHash s ev.1 nVersion v →
        InInt (nHeight - ev.1.getStorageLimit) ∧ (v.nBlockHeight < nHeight - ev.1.getStorageLimit ∨ InInt (nHeight + 20))
    | .checkAndRemove => StoredHeights s fun h => h ≤ nHeight + 20 ∧ nHeight - h < 2 ^ 31
    | _ => True

/-! ## Steps -/

theorem getStorageLimit_pos (env : Env) : 5000 ≤ env.getStorageLimit := le_max_right _ _

theorem storedHeights_checkAndRemove (ht : s.pCurrentBlockIndex = some nHeight) (p : Int → Prop) :
    StoredHeights (s.checkAndRemove env) p ↔ StoredHeights s fun h => nHeight - h ≤ env.getStorageLimit → p h := by
  unfold StoredHeights
  simp only [checkAndRemove_vote ht, IsOld]
  constructor
  · intro h k v hv hnew
    exact h k v ⟨hv, by omega⟩
  · rintro h k v ⟨hv, hnew⟩
    exact h k v hv (by omega)

theorem checkAndRemove_bounded_iff (ht : s.pCurrentBlockIndex = some nHeight) :
    (StoredHeights s (fun h => InInt (nHeight - h)) ∧
      StoredHeights (s.checkAndRemove env) (fun h => nHeight - env.getStorageLimit ≤ h ∧ h ≤ nHeight + 20)) ↔
    StoredHeights s fun h => h ≤ nHeight + 20 ∧ nHeight - h < 2 ^ 31 := by
  have hlimit := getStorageLimit_pos env
  rw [storedHeights_checkAndRemove ht]
  constructor
  · rintro ⟨hint, hwindow⟩ k v hv
    have hfits := (hint k v hv).2
    refine ⟨?_, hfits⟩
    by_cases hold : nHeight - v.nBlockHeight ≤ env.getStorageLimit
    · exact (hwindow k v hv hold).2
    · omega
  · intro h
    constructor
    · intro k v hv
      obtain ⟨hhigh, hfits⟩ := h k v hv
      exact ⟨by omega, hfits⟩
    · intro k v hv hnew
      obtain ⟨hhigh, -⟩ := h k v hv
      exact ⟨by omega, hhigh⟩

theorem heightsBounded_iff {ev : Env × Event} (hstep : step voteHash s ev = some s') :
    HeightsBounded voteHash s ev s' ↔ VotesTimely voteHash s ev := by
  obtain ⟨env, e⟩ := ev
  cases hstep
  unfold HeightsBounded VotesTimely
  refine forall_congr' fun nHeight => imp_congr_right fun ht => ?_
  cases e with
  | paymentVote nVersion v =>
    refine imp_congr_right fun _ => and_congr_right fun _ => ?_
    dsimp only
    rw [or_iff_not_imp_left]
  | checkAndRemove => exact checkAndRemove_bounded_iff ht
  | updatedBlockTip nHeight => exact Iff.rfl
  | clear => exact Iff.rfl
  | restart => exact Iff.rfl

/-- The runs in which every comparison is exact and `CheckAndRemove` leaves votes of the storage window only. -/
theorem heights_bounded_iff (voteHash : CScript → Int → COutPoint → Uint256) (s : CMasternodePayments) (es : List (Env × Event)) :
    Along (step voteHash) (HeightsBounded voteHash) s es ↔ Meets (step voteHash) (VotesTimely voteHash) s es :=
  along_iff_meets (fun _ _ _ hstep => heightsBounded_iff hstep) fun _ _ h => by cases h

/-! ## Votes that arrive in time -/

/-- From the tip `nTip` on the tips do not fall and stay in their range, a vote that arrives is for a height from 0
    to 20 above the last tip, and the storage limit is an `int`. -/
def Timely : Int → List (Env × Event) → Prop
  | _, [] => True
  | nTip, (env, .paymentVote _ v) :: es => 0 ≤ v.nBlockHeight ∧ v.nBlockHeight ≤ nTip + 20 ∧ env.getStorageLimit < 2 ^ 31 ∧
    Timely nTip es
  | nTip, (_, .updatedBlockTip nHeight) :: es => nTip ≤ nHeight ∧ nHeight + 20 < 2 ^ 31 ∧ Timely nHeight es
  | nTip, _ :: es => Timely nTip es

/-- The stored heights and the tip, when the last tip was `nTip`. -/
structure UpTo (nTip : Int) (s : CMasternodePayments) : Prop where
  range : 0 ≤ nTip ∧ nTip + 20 < 2 ^ 31
  tip : ∀ nHeight, s.pCurrentBlockIndex = some nHeight → nHeight = nTip
  stored : StoredHeights s fun h => 0 ≤ h ∧ h ≤ nTip + 20

theorem StoredHeights.addPaymentVote {p : Int → Prop} (h : StoredHeights s p) (hv : p v.nBlockHeight) :
    StoredHeights (s.addPaymentVote voteHash env v) p := by
  unfold CMasternodePayments.addPaymentVote
  split
  · intro k w hw
    unfold putVote at hw
    dsimp only at hw
    rw [Std.TreeMap.getElem?_insert] at hw
    split at hw
    · cases hw
      exact hv
    · exact h k w hw
  · exact h

theorem StoredHeights.storeSeen {p : Int → Prop} (h : StoredHeights s p) (hv : p v.nBlockHeight) :
    StoredHeights (s.storeSeen voteHash v) p := by
  intro k w hw
  unfold CMasternodePayments.storeSeen at hw
  dsimp only at hw
  rw [Std.TreeMap.getElem?_insert] at hw
  split at hw
  · cases hw
    exact hv
  · exact h k w hw

theorem StoredHeights.readVote {p : Int → Prop} (h : StoredHeights s p) (hv : p v.nBlockHeight) :
    StoredHeights (s.readVote voteHash env nHeight v) p := by
  have hcan (o : COutPoint) (height : Int) : StoredHeights (s.canVote o height).2 p := by
    unfold canVote
    split
    · exact h
    · exact h
  unfold CMasternodePayments.readVote
  split
  · exact h
  split
  · exact h
  dsimp only
  split
  · exact hcan _ _
  · unfold checkVote
    split
    · exact hcan _ _
    split
    · exact (hcan _ _).addPaymentVote hv
    · exact hcan _ _

theorem StoredHeights.processMessage {p : Int → Prop} (h : StoredHeights s p)
    (hv : ∀ nHeight, s.pCurrentBlockIndex = some nHeight → p v.nBlockHeight) :
    StoredHeights (s.processMessage voteHash env nVersion v) p := by
  unfold CMasternodePayments.processMessage
  split
  · exact h
  split
  · exact h
  · rename_i nHeight ht
    split
    · exact h
    · exact (h.storeSeen (hv nHeight ht)).readVote (hv nHeight ht)

theorem tip_processMessage : (s.processMessage voteHash env nVersion v).pCurrentBlockIndex = s.pCurrentBlockIndex := by
  have hadd (t : CMasternodePayments) : (t.addPaymentVote voteHash env v).pCurrentBlockIndex = t.pCurrentBlockIndex := by
    unfold CMasternodePayments.addPaymentVote
    split <;> rfl
  unfold CMasternodePayments.processMessage
  split
  · rfl
  split
  · rfl
  split
  · rfl
  unfold CMasternodePayments.readVote
  split
  · rfl
  split
  · rfl
  have hcan : ((s.storeSeen voteHash v).canVote v.vinMasternode.prevout v.nBlockHeight).2.pCurrentBlockIndex =
      s.pCurrentBlockIndex := by
    unfold canVote
    split <;> rfl
  dsimp only
  split
  · exact hcan
  · unfold checkVote
    split
    · exact hcan
    split
    · exact (hadd _).trans hcan
    · exact hcan

theorem StoredHeights.mono {p q : Int → Prop} (h : StoredHeights s p) (hpq : ∀ height, p height → q height) : StoredHeights s q :=
  fun k v hv => hpq _ (h k v hv)

theorem UpTo.updatedBlockTip {nTip : Int} (h : UpTo nTip s) (hrises : nTip ≤ nHeight) (hrange : nHeight + 20 < 2 ^ 31) :
    UpTo nHeight (s.updatedBlockTip voteHash env nHeight) := by
  have hwider : StoredHeights s fun height => 0 ≤ height ∧ height ≤ nHeight + 20 :=
    h.stored.mono fun height hstored => ⟨hstored.1, by omega⟩
  have hbefore : StoredHeights { s with pCurrentBlockIndex := some nHeight } (fun height => 0 ≤ height ∧ height ≤ nHeight + 20) :=
    hwider
  have hnonneg := h.range.1
  refine ⟨⟨by omega, hrange⟩, ?_, ?_⟩
  · intro nHeight' ht
    have htip : (s.updatedBlockTip voteHash env nHeight).pCurrentBlockIndex = some nHeight := by
      unfold CMasternodePayments.updatedBlockTip processBlock
      split
      · rfl
      · unfold CMasternodePayments.addPaymentVote
        split <;> rfl
    rw [htip] at ht
    exact (Option.some.inj ht).symm
  · unfold CMasternodePayments.updatedBlockTip processBlock
    split
    · exact hbefore
    · rename_i vote hown
      obtain ⟨-, -, hheight⟩ := ownVote_spec hown
      exact hbefore.addPaymentVote (by rw [hheight]; omega)

theorem timely_step {nTip : Int} {ev : Env × Event} {es : List (Env × Event)} (h : UpTo nTip s) (ht : Timely nTip (ev :: es)) :
    VotesTimely voteHash s ev ∧ ∃ nTip', UpTo nTip' (next voteHash s ev) ∧ Timely nTip' es := by
  obtain ⟨env, e⟩ := ev
  obtain ⟨hlow, hhigh⟩ := h.range
  cases e with
  | paymentVote nVersion v =>
    obtain ⟨hvlow, hvhigh, hlimit, hrest⟩ := ht
    constructor
    · intro nHeight htip _
      have htip := h.tip nHeight htip
      have hpos := getStorageLimit_pos env
      dsimp only at hlimit ⊢
      exact ⟨⟨by omega, by omega⟩, .inr ⟨by omega, by omega⟩⟩
    · refine ⟨nTip, ⟨h.range, fun nHeight htip => h.tip nHeight (tip_processMessage.symm.trans htip), ?_⟩, hrest⟩
      exact h.stored.processMessage fun _ _ => ⟨hvlow, hvhigh⟩
  | updatedBlockTip nHeight =>
    obtain ⟨hrises, hrange, hrest⟩ := ht
    exact ⟨fun _ _ => trivial, nHeight, h.updatedBlockTip hrises hrange, hrest⟩
  | checkAndRemove =>
    constructor
    · intro nHeight htip
      have htip := h.tip nHeight htip
      exact h.stored.mono fun height hstored => ⟨by omega, by omega⟩
    · refine ⟨nTip, ?_, ht⟩
      cases htip : s.pCurrentBlockIndex with
      | none =>
        show UpTo nTip (s.checkAndRemove env)
        unfold CMasternodePayments.checkAndRemove
        rw [htip]
        exact h
      | some nHeight =>
        refine ⟨h.range, fun nHeight' htip' => h.tip nHeight' ?_, ?_⟩
        · rw [← htip']
          show _ = (s.checkAndRemove env).pCurrentBlockIndex
          unfold CMasternodePayments.checkAndRemove
          rw [htip]
          dsimp only
          rw [foldl_removeOld]
          exact htip.symm
        · exact (storedHeights_checkAndRemove htip _).2 (h.stored.mono fun height hstored _ => hstored)
  | clear =>
    refine ⟨fun _ _ => trivial, nTip, ⟨h.range, h.tip, fun k v hv => ?_⟩, ht⟩
    have hnone : (∅ : Map Uint256 CMasternodePaymentVote)[k]? = some v := hv
    simp at hnone
  | restart =>
    refine ⟨fun _ _ => trivial, nTip, ⟨h.range, ?_, h.stored⟩, ht⟩
    intro nHeight htip
    cases htip

/-- While the tip does not fall, votes that are stored in their range are bounded. -/
theorem timely_votes_bounded (voteHash : CScript → Int → COutPoint → Uint256) (es : List (Env × Event)) (ht : Timely 0 es) :
    Along (step voteHash) (HeightsBounded voteHash) init es := by
  refine Iff.mpr (along_iff_meets (fun _ _ _ hstep => heightsBounded_iff hstep) fun _ _ h => by cases h) ?_
  have hinit : UpTo 0 init := by
    refine ⟨by decide, fun nHeight htip => ?_, fun k v hv => ?_⟩
    · cases htip
    · simp [init] at hv
  generalize (0 : Int) = nTip at ht hinit
  generalize init = s at hinit
  induction es generalizing s nTip with
  | nil => trivial
  | cons ev es ih =>
    have hstep : VotesTimely voteHash s ev ∧ ∃ nTip', UpTo nTip' (next voteHash s ev) ∧ Timely nTip' es := timely_step hinit ht
    obtain ⟨hok, nTip', hup, hrest⟩ := hstep
    refine ⟨hok, fun s' hs' => ?_⟩
    cases hs'
    exact ih nTip' hrest _ hup

/-! ## Two votes -/

def visit (nBlockHeight : Int) : List (Env × Event) :=
  [(network, .updatedBlockTip 5), (network, .paymentVote 70206 (signedVote 1 nBlockHeight [5])), (network, .checkAndRemove)]

theorem timely_votes_bounded_visit : Along (step smallHash) (HeightsBounded smallHash) init (visit 15) :=
  timely_votes_bounded smallHash _ ⟨by decide, by decide, by decide, by decide, by decide, trivial⟩

/-- A vote for height 1000 stays stored; one for the lowest height overflows the comparison. -/
theorem early_vote_stays : ¬ Along (step smallHash) (HeightsBounded smallHash) init (visit 1000) ∧
    ¬ Along (step smallHash) (HeightsBounded smallHash) init (visit (-2 ^ 31)) := by
  have hstored (nBlockHeight : Int) (h : Along (step smallHash) (HeightsBounded smallHash) init (visit nBlockHeight)) :
      VotesTimely smallHash (((visit nBlockHeight).take 2).foldl (next smallHash) init) (network, .checkAndRemove) := by
    have hsplit : Along (step smallHash) (HeightsBounded smallHash) init
        ((visit nBlockHeight).take 2 ++ (network, .checkAndRemove) :: []) := h
    exact (heightsBounded_iff rfl).1 (hsplit.of_run (run_total (fun _ _ => rfl) _ _) rfl)
  constructor
  · intro h
    have hlast := hstored 1000 h 5 (by decide +kernel) ((signedVote 1 1000 [5]).getHash smallHash)
      (signedVote 1 1000 [5]).markAsNotVerified (by decide +kernel)
    exact absurd hlast.1 (by decide)
  · intro h
    have hlast := hstored (-2 ^ 31) h 5 (by decide +kernel) ((signedVote 1 (-2 ^ 31) [5]).getHash smallHash)
      (signedVote 1 (-2 ^ 31) [5]).markAsNotVerified (by decide +kernel)
    exact absurd hlast.2 (by decide)

end Zumy.Payments
