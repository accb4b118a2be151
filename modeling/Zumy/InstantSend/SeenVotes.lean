/-
  Zumy.InstantSend.SeenVotes — a forged vote and the genuine one.

  `ProcessMessage` drops a vote whose hash is in `mapTxLockVotes` and stores the hash of
  every other vote before it is checked. The hash covers the transaction, the outpoint
  and the masternode but not the signature, and a vote that fails the check keeps its
  entry: a forged vote that comes first makes the node drop the genuine one.

  - `forged_votes_prevent_nothing`: a run whose forged votes all arrive while votes are
    ignored, or after their hash was stored, treats every later message as the run
    without them does; any other forged vote is stored, and a vote with its hash is dropped.
  - `forged_vote_prevents`: the run where it costs a genuine vote.
-/
import Zumy.InstantSend.Replay

namespace Zumy.InstantSend

open Lib

variable {voteHash : Uint256 → COutPoint → COutPoint → Uint256} {env : Env} {s s' : CInstantSend}

def isForged (ev : Env × Event) : Bool :=
  match ev.2 with
  | .txLockVote _ v => !v.checkSignature ev.1
  | _ => false

/-- A forged vote arrives while votes are ignored, or its hash is stored already. -/
def ForgedUnread (voteHash : Uint256 → COutPoint → COutPoint → Uint256) (s : CInstantSend) (ev : Env × Event) : Prop :=
  match ev.2 with
  | .txLockVote nVersion v => v.checkSignature ev.1 = false →
      ev.1.ignoresVotes nVersion = true ∨ s.mapTxLockVotes.contains (v.getHash voteHash) = true
  | _ => True

def CountedAfter (voteHash : Uint256 → COutPoint → COutPoint → Uint256) (es : List (Env × Event)) (v : CTxLockVote) : Prop :=
  ∃ s, run (step voteHash) init es = some s ∧ Counted s v

theorem step_forgedUnread {ev : Env × Event} (hf : isForged ev = true) (hok : ForgedUnread voteHash s ev) :
    step voteHash s ev = some s := by
  obtain ⟨env, e⟩ := ev
  cases e with
  | txLockVote nVersion v =>
    have hsig : v.checkSignature env = false := by simpa [isForged] using hf
    rcases hok hsig with hign | hseen
    · simp [step, processMessage, show env.ignoresVotes nVersion = true from hign]
    · simp only [step, processMessage, hseen, if_true, ite_self]
  | txLockRequest tx => cases hf
  | ownLockRequest tx => cases hf
  | checkAndRemove => cases hf
  | notification n => cases hf

theorem step_forged {nVersion : Int} {v : CTxLockVote} (hsig : v.checkSignature env = false)
    (hign : env.ignoresVotes nVersion = false) (hseen : s.mapTxLockVotes.contains (v.getHash voteHash) = false) :
    step voteHash s (env, .txLockVote nVersion v) = some (storeSeen voteHash s (v.received env)) := by
  have hsig' : (v.received env).checkSignature env = false := hsig
  have hinvalid : (v.received env).isValid env = false := by
    rw [Bool.eq_false_iff]
    intro hv
    rw [(CTxLockVote.isValid_iff.1 hv).1] at hsig'
    cases hsig'
  simp [step, processMessage, hign, hseen, processTxLockVote, processTxLockVoteWith, hinvalid]

theorem step_seen {nVersion : Int} {v : CTxLockVote} (hseen : s.mapTxLockVotes.contains (v.getHash voteHash) = true) :
    step voteHash s (env, .txLockVote nVersion v) = some s := by
  simp only [step, processMessage, hseen, if_true, ite_self]

theorem storeSeen_contains (v : CTxLockVote) :
    (storeSeen voteHash s v).mapTxLockVotes.contains (v.getHash voteHash) = true := by
  simp [storeSeen]

theorem forged_votes_prevent_nothing :
    (∀ (es : List (Env × Event)) (ev : Env × Event) (v : CTxLockVote),
      Meets (step voteHash) (ForgedUnread voteHash) init es →
      CountedAfter voteHash ((es.filter fun ev => !isForged ev) ++ [ev]) v → CountedAfter voteHash (es ++ [ev]) v) ∧
    ∀ (s : CInstantSend) (env : Env) (nVersion : Int) (v : CTxLockVote), v.checkSignature env = false →
      ¬ ForgedUnread voteHash s (env, .txLockVote nVersion v) →
      step voteHash s (env, .txLockVote nVersion v) = some (storeSeen voteHash s (v.received env)) ∧
      ∀ env' nVersion' w, CTxLockVote.getHash voteHash w = v.getHash voteHash →
        step voteHash (storeSeen voteHash s (v.received env)) (env', .txLockVote nVersion' w) =
          some (storeSeen voteHash s (v.received env)) := by
  constructor
  · rintro es ev v hok ⟨s, hs, hcount⟩
    have hsame : run (step voteHash) init es = run (step voteHash) init (es.filter fun ev => !isForged ev) :=
      run_filter_of_meets (fun _ _ hf hunread => step_forgedUnread hf hunread) hok
    refine ⟨s, ?_, hcount⟩
    rw [run_append, hsame, ← run_append]
    exact hs
  · intro s env nVersion v hsig hread
    have hread' : env.ignoresVotes nVersion = false ∧ s.mapTxLockVotes.contains (v.getHash voteHash) = false := by
      constructor
      · rw [Bool.eq_false_iff]
        intro hign
        exact hread fun _ => .inl hign
      · rw [Bool.eq_false_iff]
        intro hseen
        exact hread fun _ => .inr hseen
    refine ⟨step_forged hsig hread'.1 hread'.2, fun env' nVersion' w hw => step_seen ?_⟩
    rw [hw]
    exact storeSeen_contains (v.received env)

/-! ## A forged vote that comes first -/

/-- Masternode 1's vote for transaction 1 under a signature that is not its own. -/
def forgedVote : CTxLockVote := { signedVote 1 1 ⟨5, 0⟩ with vchMasternodeSignature := [0] }

theorem forged_vote_prevents :
    forgedVote.checkSignature network = false ∧
    CountedAfter pairHash onePayment (signedVote 1 1 ⟨5, 0⟩) ∧
    ¬ CountedAfter pairHash [(network, .txLockRequest (payment 1 ⟨5, 0⟩)), (network, .txLockVote 70000 forgedVote),
      (network, .txLockVote 70000 (signedVote 1 1 ⟨5, 0⟩))] (signedVote 1 1 ⟨5, 0⟩) := by
  let counted (s : CInstantSend) : Bool :=
    (s.mapTxLockCandidates[(1 : Uint256)]?).any (·.hasMasternodeVoted ⟨5, 0⟩ (masternode 1))
  have hcounted (s : CInstantSend) : Counted s (signedVote 1 1 ⟨5, 0⟩) ↔ counted s = true := by
    simp only [counted, Option.any_eq_true]; rfl
  refine ⟨by decide, ?_, ?_⟩
  · have hwithout : (run (step pairHash) init onePayment).any counted = true := by decide
    obtain ⟨s, hs, hc⟩ := (Option.any_eq_true _ _).1 hwithout
    exact ⟨s, hs, (hcounted s).2 hc⟩
  · intro h
    rcases h with ⟨s, hs, hc⟩
    have hwith : (run (step pairHash) init [(network, .txLockRequest (payment 1 ⟨5, 0⟩)),
      (network, .txLockVote 70000 forgedVote), (network, .txLockVote 70000 (signedVote 1 1 ⟨5, 0⟩))]).any counted = false := by
      decide
    rw [hs, Option.any_some, (hcounted s).1 hc] at hwith
    cases hwith

end Zumy.InstantSend
