/-
  Zumy.Governance.VoteSpacing — the time between two votes of a masternode that an object
  accepts while the rate checks are on.

  `ProcessVote` compares the time now with the time of the instance. It sets the time to move
  on to only on the way that returns, so an accepted vote leaves the old time, which is 0
  from the start: the check refuses a vote in the first hour of 1970 and none after it.

  - `acceptedVotes_eq`: the accepted votes are the ones that pass the other checks.
  - `second_vote_accepted`: two votes of one second.
-/
import Zumy.Governance.Tally

namespace Zumy.Governance

open Lib

/-- A vote that is brought to an object, with what `ProcessVote` reads then. -/
structure VoteAttempt where
  now : Int
  adjustedTime : Int
  isValid : CGovernanceVote → Bool
  nMNIndex : Int
  vote : CGovernanceVote

namespace VoteAttempt

def context (e : VoteAttempt) : VoteContext := ⟨e.now, e.adjustedTime, true, e.isValid⟩

def SameVoter (e f : VoteAttempt) : Prop := e.nMNIndex = f.nMNIndex ∧ e.vote.getSignal = f.vote.getSignal

/-- The vote passes the checks of `ProcessVote` that do not look at earlier votes. -/
def Passes (e : VoteAttempt) : Prop :=
  0 ≤ e.nMNIndex ∧ e.vote.getSignal ≠ voteSignalNone ∧ e.vote.getSignal ≤ maxSupportedVoteSignal ∧ 0 ≤ e.vote.nTime ∧
    governanceUpdateMin ≤ e.now ∧ e.isValid e.vote = true

instance (e f : VoteAttempt) : Decidable (SameVoter e f) := inferInstanceAs (Decidable (_ ∧ _))

instance (e : VoteAttempt) : Decidable e.Passes := inferInstanceAs (Decidable (_ ∧ _))

/-- It is not older than a vote of the same masternode and signal before it that passes. -/
def Current (before : List VoteAttempt) (e : VoteAttempt) : Prop :=
  ∀ f ∈ before, f.Passes → SameVoter f e → f.vote.nTime ≤ e.vote.nTime

instance (before : List VoteAttempt) (e : VoteAttempt) : Decidable (e.Current before) :=
  inferInstanceAs (Decidable (∀ f ∈ before, f.Passes → SameVoter f e → f.vote.nTime ≤ e.vote.nTime))

end VoteAttempt

/-- The votes of a sequence that `ProcessVote` accepts. -/
def acceptedVotes (voteHash : CGovernanceVote → Uint256) : CGovernanceObject → List VoteAttempt → List VoteAttempt
  | _, [] => []
  | o, e :: es =>
    let (answer, o) := o.processVote voteHash e.context e.nMNIndex e.vote
    if answer.isOk then e :: acceptedVotes voteHash o es else acceptedVotes voteHash o es

/-- The votes behind `before` that pass the checks other than the rate check. -/
def passingVotes (before : List VoteAttempt) : List VoteAttempt → List VoteAttempt
  | [] => []
  | e :: es =>
    if e.Passes ∧ e.Current before then e :: passingVotes (before ++ [e]) es else passingVotes (before ++ [e]) es

/-- Any two votes of one masternode for one signal are at least `GOVERNANCE_UPDATE_MIN` seconds apart. -/
def Spaced (l : List VoteAttempt) : Prop :=
  l.Pairwise fun e f => e.SameVoter f → governanceUpdateMin ≤ |f.now - e.now|

variable {voteHash : CGovernanceVote → Uint256} {o : CGovernanceObject} {e : VoteAttempt} {before : List VoteAttempt}

/-! ## One vote -/

theorem processVote_spec (voteHash : CGovernanceVote → Uint256) (o : CGovernanceObject) (e : VoteAttempt) :
    let r := o.processVote voteHash e.context e.nMNIndex e.vote
    let inst := o.voteInstance e.nMNIndex e.vote.getSignal
    (r.1.isOk = true ↔ 0 ≤ e.nMNIndex ∧ e.vote.getSignal ≠ voteSignalNone ∧ e.vote.getSignal ≤ maxSupportedVoteSignal ∧
      inst.nCreationTime ≤ e.vote.nTime ∧ governanceUpdateMin ≤ e.now - inst.nTime ∧ e.isValid e.vote = true) ∧
    ∀ i sig, r.2.voteInstance i sig =
      if r.1.isOk = true ∧ i = e.nMNIndex ∧ sig = e.vote.getSignal then ⟨e.vote.getOutcome, inst.nTime, e.vote.nTime⟩
      else o.voteInstance i sig := by
  intro r inst
  have hkept (o' : CGovernanceObject) (h : o'.mapCurrentMNVotes = (o.putRec e.nMNIndex (o.recVote e.nMNIndex)).mapCurrentMNVotes) (i : Int)
      (sig : Nat) : o'.voteInstance i sig = o.voteInstance i sig := by
    rw [CGovernanceObject.voteInstance_congr h, CGovernanceObject.putRec_voteInstance]
  have hmade (i : Int) (sig : Nat) : (o.putInstance e.nMNIndex e.vote.getSignal inst).voteInstance i sig =
    o.voteInstance i sig := by
    rw [CGovernanceObject.putInstance_voteInstance]
    split
    · next heq =>
      rw [heq.1, heq.2]
    · rfl
  have hr : r = o.processVote voteHash e.context e.nMNIndex e.vote := rfl
  clear_value r
  unfold CGovernanceObject.processVote at hr
  split at hr
  · next hi =>
    subst hr
    refine ⟨⟨fun h => (by cases h), fun h => absurd h.1 (by omega)⟩, fun i sig => ?_⟩
    rw [if_neg fun h => (by cases h.1)]
    exact CGovernanceObject.voteInstance_congr rfl i sig
  next hi =>
  dsimp only at hr
  split at hr
  · next hnone =>
    subst hr
    refine ⟨⟨fun h => (by cases h), fun h => absurd hnone h.2.1⟩, fun i sig => ?_⟩
    rw [if_neg fun h => (by cases h.1)]
    exact hkept _ rfl i sig
  next hnone =>
  split at hr
  · next hunsupported =>
    subst hr
    refine ⟨⟨fun h => (by cases h), fun h => absurd hunsupported (not_lt.2 h.2.2.1)⟩, fun i sig => ?_⟩
    rw [if_neg fun h => (by cases h.1)]
    exact hkept _ rfl i sig
  next hsupported =>
  split at hr
  · next hold =>
    subst hr
    refine ⟨⟨fun h => (by cases h), fun h => absurd hold (not_lt.2 h.2.2.2.1)⟩, fun i sig => ?_⟩
    rw [if_neg fun h => (by cases h.1)]
    exact hmade i sig
  next hnew =>
  split at hr
  · next hoften =>
    subst hr
    rw [Bool.and_eq_true, decide_eq_true_eq] at hoften
    refine ⟨⟨fun h => (by cases h), fun h => absurd hoften.2 (not_lt.2 h.2.2.2.2.1)⟩, fun i sig => ?_⟩
    rw [if_neg fun h => (by cases h.1)]
    exact hmade i sig
  next hrare =>
  split at hr
  · next hbad =>
    subst hr
    refine ⟨⟨fun h => (by cases h), fun h => ?_⟩, fun i sig => ?_⟩
    · have hvalid : e.context.isValid e.vote = true := h.2.2.2.2.2
      rw [hvalid] at hbad
      cases hbad
    · rw [if_neg fun h => (by cases h.1)]
      exact hmade i sig
  next hgood =>
  subst hr
  have hrate : governanceUpdateMin ≤ e.now - inst.nTime := by
    have hon : e.context.fRateChecksEnabled = true := rfl
    rw [hon, Bool.true_and, decide_eq_true_eq, not_lt] at hrare
    exact hrare
  have hvalid : e.context.isValid e.vote = true := by simpa using hgood
  refine ⟨⟨fun _ => ⟨not_lt.1 hi, hnone, not_lt.1 hsupported, not_lt.1 hnew, hrate, hvalid⟩, fun _ => rfl⟩, fun i sig => ?_⟩
  have hput := CGovernanceObject.putInstance_voteInstance o e.nMNIndex i e.vote.getSignal sig ⟨e.vote.getOutcome,
    inst.nTime, e.vote.nTime⟩
  refine Eq.trans ?_ (hput.trans ?_)
  · exact CGovernanceObject.voteInstance_congr rfl i sig
  · exact if_congr (by simp [Except.isOk, Except.toBool]) rfl rfl

/-! ## A sequence of votes -/

/-- What an object has seen of the votes `before`: its instances hold the newest time of those that pass, and never
    a time of the rate check. -/
def Seen (before : List VoteAttempt) (o : CGovernanceObject) : Prop :=
  ∀ i sig, (o.voteInstance i sig).nTime = 0 ∧ ∀ t, (o.voteInstance i sig).nCreationTime ≤ t ↔
    0 ≤ t ∧ ∀ f ∈ before, f.Passes → f.nMNIndex = i → f.vote.getSignal = sig → f.vote.nTime ≤ t

theorem seen_received (hash : Uint256) (nObjectType nTime : Int) (vinMasternode : CTxIn) (vchSig : List UInt8)
    (fUnparsable : Bool) :
    Seen [] (.received hash nObjectType nTime vinMasternode vchSig fUnparsable) := by
  intro i sig
  have hnone : (CGovernanceObject.received hash nObjectType nTime vinMasternode vchSig fUnparsable).voteInstance i sig = .none := by
    simp [CGovernanceObject.voteInstance, CGovernanceObject.recVote, CGovernanceObject.received]
  rw [hnone]
  exact ⟨rfl, fun t => ⟨fun h => ⟨h, fun f hf => absurd hf List.not_mem_nil⟩, fun h => h.1⟩⟩

theorem accepted_iff (hs : Seen before o) :
    (o.processVote voteHash e.context e.nMNIndex e.vote).1.isOk = true ↔ e.Passes ∧ e.Current before := by
  obtain ⟨hzero, hnewest⟩ := hs e.nMNIndex e.vote.getSignal
  rw [(processVote_spec voteHash o e).1, hzero, hnewest, Int.sub_zero]
  constructor
  · rintro ⟨hi, hnone, hsupported, ⟨hpos, hcurrent⟩, hrate, hvalid⟩
    exact ⟨⟨hi, hnone, hsupported, hpos, hrate, hvalid⟩, fun f hf hp hsame => hcurrent f hf hp hsame.1 hsame.2⟩
  · rintro ⟨⟨hi, hnone, hsupported, hpos, hrate, hvalid⟩, hcurrent⟩
    exact ⟨hi, hnone, hsupported, ⟨hpos, fun f hf hp h h' => hcurrent f hf hp ⟨h, h'⟩⟩, hrate, hvalid⟩

theorem seen_processVote (hs : Seen before o) : Seen (before ++ [e]) (o.processVote voteHash e.context e.nMNIndex e.vote).2 := by
  intro i sig
  obtain ⟨hzero, hnewest⟩ := hs i sig
  rw [(processVote_spec voteHash o e).2 i sig]
  split
  · next h =>
    obtain ⟨hok, rfl, rfl⟩ := h
    obtain ⟨hpasses, hcurrent⟩ := (accepted_iff hs).1 hok
    refine ⟨hzero, fun t => ⟨fun ht => ⟨?_, fun f hf hp hi hsig => ?_⟩, fun h => ?_⟩⟩
    · exact hpasses.2.2.2.1.trans ht
    · rcases List.mem_append.1 hf with hf | hf
      · exact (hcurrent f hf hp ⟨hi, hsig⟩).trans ht
      · rw [List.mem_singleton.1 hf]
        exact ht
    · exact h.2 e (by simp) hpasses rfl rfl
  · next h =>
    refine ⟨hzero, fun t => (hnewest t).trans ⟨fun ht => ⟨ht.1, fun f hf hp hi hsig => ?_⟩, fun ht => ⟨ht.1, fun f hf => ht.2 f (by simp [hf])⟩⟩⟩
    rcases List.mem_append.1 hf with hf | hf
    · exact ht.2 f hf hp hi hsig
    · -- it passes and is refused, so the instance holds a newer time
      obtain rfl := List.mem_singleton.1 hf
      by_contra hlt
      apply h
      refine ⟨(accepted_iff hs).2 ⟨hp, fun f' hf' hp' hsame => ?_⟩, hi.symm, hsig.symm⟩
      have := ht.2 f' hf' hp' (hsame.1.trans hi) (hsame.2.trans hsig)
      omega

theorem acceptedVotes_eq (hs : Seen before o) (es : List VoteAttempt) : acceptedVotes voteHash o es = passingVotes before es := by
  induction es generalizing o before with
  | nil => rfl
  | cons e es ih =>
    have hnext : Seen (before ++ [e]) (o.processVote voteHash e.context e.nMNIndex e.vote).2 := seen_processVote hs
    have hrest := ih hnext
    simp only [acceptedVotes, passingVotes, accepted_iff hs, hrest]

/-- The accepted votes of a new object are spaced exactly if those that pass the other checks come spaced. -/
theorem votes_spaced_iff (voteHash : CGovernanceVote → Uint256) (hash : Uint256) (nObjectType nTime : Int) (vinMasternode : CTxIn)
    (vchSig : List UInt8) (fUnparsable : Bool) (es : List VoteAttempt) :
    Spaced (acceptedVotes voteHash (.received hash nObjectType nTime vinMasternode vchSig fUnparsable) es) ↔
      Spaced (passingVotes [] es) := by
  rw [acceptedVotes_eq (seen_received hash nObjectType nTime vinMasternode vchSig fUnparsable)]

/-- Masternode 1 votes on trigger 9 at a time of its choice, all in one second of the node. -/
def attemptAt (nTime : Int) : VoteAttempt := ⟨100000, 100000, fun _ => true, 1, { fundingVote 1 9 with nTime := nTime }⟩

def votedTrigger : CGovernanceObject := .received 9 governanceObjectTrigger 99000 (masternodeVin 1) [] false

theorem second_vote_accepted :
    acceptedVotes smallHash votedTrigger [attemptAt 99000, attemptAt 99001] = [attemptAt 99000, attemptAt 99001] ∧
    ¬ ∀ (voteHash : CGovernanceVote → Uint256) (hash : Uint256) (nObjectType nTime : Int) (vinMasternode : CTxIn)
      (vchSig : List UInt8)
      (fUnparsable : Bool) (es : List VoteAttempt),
      Spaced (acceptedVotes voteHash (.received hash nObjectType nTime vinMasternode vchSig fUnparsable) es) := by
  have haccepted : acceptedVotes smallHash votedTrigger [attemptAt 99000, attemptAt 99001] =
    [attemptAt 99000, attemptAt 99001] := by
    rw [votedTrigger, acceptedVotes_eq (seen_received _ _ _ _ _ _)]
    rfl
  refine ⟨haccepted, fun h => ?_⟩
  have hspaced := h smallHash 9 governanceObjectTrigger 99000 (masternodeVin 1) [] false [attemptAt 99000, attemptAt 99001]
  rw [← votedTrigger, haccepted] at hspaced
  have hgap := (List.pairwise_cons.1 hspaced).1 (attemptAt 99001) (by simp) ⟨rfl, rfl⟩
  exact absurd hgap (by decide)

end Zumy.Governance
