/-
  Zumy.InstantSend.OrphanVotes — which orphan votes a lock request leaves behind.

  `ProcessOrphanTxLockVotes` erases a vote whose processing answers true. A vote for a
  candidate answers true once it is counted; a vote for a transaction that is still
  no candidate answers true as "stored", although the replay stores nothing: it is
  erased from `mapTxLockVotesOrphan`, and `mapTxLockVotes` keeps its hash, so it is
  never taken in again. Only a masternode that the rate tracking holds for a spammer
  keeps its orphan votes.
-/
import Zumy.InstantSend.Replay

namespace Zumy.InstantSend

open Lib

variable {voteHash : Uint256 → COutPoint → COutPoint → Uint256} {env : Env} {s s' : CInstantSend}
variable {reprocess : CInstantSend → CTxLockRequest → Option (Bool × CInstantSend)} {kvs : List (Uint256 × CTxLockVote)}

def NoOrphanVoteLost (s s' : CInstantSend) : Prop :=
  ∀ (h : Uint256) (v : CTxLockVote), s.mapTxLockVotesOrphan[h]? = some v →
    s'.mapTxLockVotesOrphan[h]? = some v ∨ Counted s' v

def HeldForSpam (env : Env) (s : CInstantSend) (v : CTxLockVote) : Prop :=
  s.mapTxLockCandidates[v.txHash]? = none → v.isValid env = true → isSpammingOrphanVotes env s v.outpointMasternode = true

theorem HeldForSpam.congr {v : CTxLockVote} (hr : s'.mapMasternodeOrphanVotes = s.mapMasternodeOrphanVotes)
    (hc : (s'.mapTxLockCandidates[v.txHash]?).isSome = (s.mapTxLockCandidates[v.txHash]?).isSome) :
    HeldForSpam env s' v ↔ HeldForSpam env s v := by
  unfold HeldForSpam
  rw [eq_none_iff_of_isSome_eq hc, isSpammingOrphanVotes_congr hr]

/-- The induction is on the votes to replay; the rates and the set of candidates stay,
    so what is held for spam stays. -/
theorem replay_noOrphanVoteLost (hw : Waiting voteHash s kvs) (hheld : ∀ kv ∈ kvs, HeldForSpam env s kv.2)
    (h : run (replayOrphanVote voteHash reprocess env) s kvs = some s') :
    NoOrphanVoteLost s s' ∧ ∀ v, Counted s v → Counted s' v := by
  induction kvs generalizing s with
  | nil => cases h; exact ⟨fun _ _ hv => .inl hv, fun _ hv => hv⟩
  | cons kv kvs ih =>
    obtain ⟨t, ht, hrun⟩ := run_cons_some h
    have hkv := hheld kv (by simp)
    have hrest (kv') (hkv' : kv' ∈ kvs) : HeldForSpam env s kv'.2 := hheld kv' (by simp [hkv'])
    rcases replayOrphanVote_cases hw.head ht with ⟨rfl, -⟩ | ⟨hnone, hv, hno, -⟩ | ⟨-, u, hk, hu⟩
    · exact ih (hw.tail ht) hrest hrun
    · rw [hkv hnone hv] at hno; cases hno
    have hheldu (kv') (hkv' : kv' ∈ kvs) : HeldForSpam env u kv'.2 :=
      (HeldForSpam.congr hk.rates (hk.candidates _)).2 (hrest kv' hkv')
    rcases hu with rfl | ⟨hcount, rfl⟩
    · obtain ⟨hlost, hcounted⟩ := ih (hw.tail ht) hheldu hrun
      exact ⟨fun k v hv => hlost k v (by rw [hk.orphans]; exact hv), fun v hv => hcounted v (hk.counted v hv)⟩
    · obtain ⟨hlost, hcounted⟩ := ih (s := eraseOrphan u kv.1) (hw.tail ht) hheldu hrun
      refine ⟨fun k v hv => ?_, fun v hv => hcounted v (hk.counted v hv)⟩
      by_cases hkk : k = kv.1
      · -- the vote that is erased is counted
        rw [hkk, (hw.2 kv (by simp)).2] at hv
        cases hv
        exact .inr (hcounted kv.2 hcount)
      · apply hlost k v
        rw [eraseOrphan, lookup_erase, if_neg hkk, hk.orphans]
        exact hv

/-- A replay that leaves the votes for no candidate in place found each of them held. -/
theorem replay_heldForSpam (hw : Waiting voteHash s kvs)
    (h : run (replayOrphanVote voteHash reprocess env) s kvs = some s')
    (hkept : ∀ kv ∈ kvs, s.mapTxLockCandidates[kv.2.txHash]? = none → (s'.mapTxLockVotesOrphan[kv.1]?).isSome) :
    ∀ kv ∈ kvs, HeldForSpam env s kv.2 := by
  induction kvs generalizing s with
  | nil => simp
  | cons kv kvs ih =>
    obtain ⟨t, ht, hrun⟩ := run_cons_some h
    have hshrinks : Shrinks t s' := replay_shrinks (hw.tail ht) hrun
    rcases replayOrphanVote_cases hw.head ht with ⟨rfl, hspam⟩ | ⟨hnone, -, -, rfl⟩ | ⟨hcand, u, hk, hu⟩
    · have hrest := ih (hw.tail ht) hrun fun kv' hkv' => hkept kv' (by simp [hkv'])
      intro kv' hkv'
      rcases List.mem_cons.1 hkv' with rfl | hkv'
      · intro _ hv
        exact (hspam hv).2
      · exact hrest kv' hkv'
    · -- an erased vote does not come back
      obtain ⟨v, hv⟩ := Option.isSome_iff_exists.1 (hkept kv (by simp) hnone)
      have hgone := hshrinks kv.1 v hv
      rw [eraseOrphan, lookup_erase, if_pos rfl] at hgone
      cases hgone
    · have hrates : t.mapMasternodeOrphanVotes = s.mapMasternodeOrphanVotes := by
        rcases hu with rfl | ⟨-, rfl⟩ <;> exact hk.rates
      have hcands (txHash : Uint256) : (t.mapTxLockCandidates[txHash]?).isSome = (s.mapTxLockCandidates[txHash]?).isSome := by
        rcases hu with rfl | ⟨-, rfl⟩ <;> exact hk.candidates txHash
      have hrest := ih (hw.tail ht) hrun fun kv' hkv' hnone =>
        hkept kv' (by simp [hkv']) ((eq_none_iff_of_isSome_eq (hcands _)).1 hnone)
      intro kv' hkv'
      rcases List.mem_cons.1 hkv' with rfl | hkv'
      · intro hnone _
        rw [hnone] at hcand
        cases hcand
      · exact (HeldForSpam.congr hrates (hcands _)).1 (hrest kv' hkv')

theorem replay_candidates (hw : Waiting voteHash s kvs)
    (h : run (replayOrphanVote voteHash reprocess env) s kvs = some s') (txHash : Uint256) :
    (s'.mapTxLockCandidates[txHash]?).isSome = (s.mapTxLockCandidates[txHash]?).isSome := by
  induction kvs generalizing s with
  | nil => cases h; rfl
  | cons kv kvs ih =>
    obtain ⟨t, ht, hrun⟩ := run_cons_some h
    rw [ih (hw.tail ht) hrun]
    rcases replayOrphanVote_cases hw.head ht with ⟨rfl, -⟩ | ⟨-, -, -, rfl⟩ | ⟨-, u, hk, rfl | ⟨-, rfl⟩⟩
    · rfl
    · rfl
    · exact hk.candidates txHash
    · exact hk.candidates txHash

/-! ## A request and the orphan votes -/

/-- A request processed to its end, on a reachable state: it loses no orphan vote
    exactly when each one for another transaction that is no candidate is invalid or
    held for spam. -/
theorem no_orphan_vote_lost_iff {es : List (Env × Event)} {T : CTxLockRequest}
    (hreach : run (step voteHash) init es = some s) (hreq : processTxLockRequest voteHash env s T = some (true, s')) :
    NoOrphanVoteLost s s' ↔ ∀ (h : Uint256) (v : CTxLockVote), s.mapTxLockVotesOrphan[h]? = some v →
      v.txHash ≠ T.hash → HeldForSpam env s v := by
  obtain ⟨s₁, s₂, s₃, hs₁, hs₂, hs₃, hs'⟩ := processTxLockRequestWith_true hreq
  have hvote := vote_keeps hs₂
  have hlock := lockIfReady_keeps hs'
  obtain ⟨hT, hother⟩ := createTxLockCandidate_lookup hs₁
  have ho₂ : s₂.mapTxLockVotesOrphan = s.mapTxLockVotesOrphan := by
    rw [hvote.orphans]
    simpa [hs₁] using createTxLockCandidate_orphans env s T
  have hr₂ : s₂.mapMasternodeOrphanVotes = s.mapMasternodeOrphanVotes := by
    rw [hvote.rates]
    simpa [hs₁] using createTxLockCandidate_rates env s T
  have hw : Waiting voteHash s₂ s₂.mapTxLockVotesOrphan.toList := .of_orphans ((run_keyed hreach).of_eq ho₂)
  have hmem {kv : Uint256 × CTxLockVote} : kv ∈ s₂.mapTxLockVotesOrphan.toList ↔ s.mapTxLockVotesOrphan[kv.1]? = some kv.2 := by
    rw [ho₂]; exact Std.TreeMap.mem_toList_iff_getElem?_eq_some
  -- the request's own transaction is a candidate when the replay starts, the others are as before
  have hheld {v : CTxLockVote} (hne : v.txHash ≠ T.hash) : HeldForSpam env s₂ v ↔ HeldForSpam env s v :=
    HeldForSpam.congr hr₂ (by rw [hvote.candidates, hother _ hne])
  constructor
  · intro hlost h v hv hne hnone hvalid
    have hkept : ∀ kv ∈ s₂.mapTxLockVotesOrphan.toList, s₂.mapTxLockCandidates[kv.2.txHash]? = none →
        (s₃.mapTxLockVotesOrphan[kv.1]?).isSome := by
      intro kv hkv hnone
      rcases hlost kv.1 kv.2 (hmem.1 hkv) with hin | ⟨c, hc, -⟩
      · rw [← hlock.orphans, hin]; rfl
      · -- no transaction becomes a candidate in the replay
        have hc' := hlock.candidates kv.2.txHash
        have hc₃ := replay_candidates hw hs₃ kv.2.txHash
        rw [hc] at hc'
        rw [← hc', hnone] at hc₃
        cases hc₃
    exact (hheld hne).1 (replay_heldForSpam hw hs₃ hkept (h, v) (hmem.2 hv)) hnone hvalid
  · intro hall h v hv
    have hheld₂ : ∀ kv ∈ s₂.mapTxLockVotesOrphan.toList, HeldForSpam env s₂ kv.2 := by
      intro kv hkv
      by_cases hne : kv.2.txHash = T.hash
      · intro hnone
        rw [hne, ← eq_none_iff_of_isSome_eq (hvote.candidates T.hash).symm] at hnone
        rw [hnone] at hT
        cases hT
      · exact (hheld hne).2 (hall kv.1 kv.2 (hmem.1 hkv) hne)
    obtain ⟨hlost, -⟩ := replay_noOrphanVoteLost hw hheld₂ hs₃
    rcases hlost h v (by rw [ho₂]; exact hv) with hin | hcount
    · exact .inl (by rw [hlock.orphans]; exact hin)
    · exact .inr (hlock.counted v hcount)

def earlyVote : List (Env × Event) := [(network, .txLockVote 70000 (signedVote 1 2 ⟨5, 0⟩))]

/-- Processing the request of transaction 1 after the early vote for transaction 2. -/
theorem earlyVote_request : ∃ s s', run (step pairHash) init earlyVote = some s ∧
    processTxLockRequest pairHash network s ⟨payment 1 ⟨6, 0⟩, 0⟩ = some (true, s') := by
  have hrun : ((run (step pairHash) init earlyVote).bind fun s =>
      (processTxLockRequest pairHash network s ⟨payment 1 ⟨6, 0⟩, 0⟩).map (·.1)) = some true := by decide
  obtain ⟨s, hs, hreq⟩ := Option.bind_eq_some_iff.1 hrun
  obtain ⟨⟨done, s'⟩, hs', rfl⟩ := Option.map_eq_some_iff.1 hreq
  exact ⟨s, s', hs, hs'⟩

theorem no_orphan_vote_lost_earlyVote : ∃ s s', run (step pairHash) init earlyVote = some s ∧
    processTxLockRequest pairHash network s ⟨payment 1 ⟨6, 0⟩, 0⟩ = some (true, s') ∧
    (NoOrphanVoteLost s s' ↔ ∀ (h : Uint256) (v : CTxLockVote), s.mapTxLockVotesOrphan[h]? = some v →
      v.txHash ≠ 1 → HeldForSpam network s v) := by
  obtain ⟨s, s', hs, hs'⟩ := earlyVote_request
  exact ⟨s, s', hs, hs', no_orphan_vote_lost_iff hs hs'⟩

/-- The early vote is for no candidate and the only one of its masternode: it is erased. -/
theorem request_erases_orphan_vote : ∃ s s', run (step pairHash) init earlyVote = some s ∧
    processTxLockRequest pairHash network s ⟨payment 1 ⟨6, 0⟩, 0⟩ = some (true, s') ∧ ¬ NoOrphanVoteLost s s' := by
  obtain ⟨s, s', hs, hs'⟩ := earlyVote_request
  let h : Uint256 := pairHash 2 ⟨5, 0⟩ (masternode 1)
  have htrace : ((run (step pairHash) init earlyVote).bind fun s =>
      (processTxLockRequest pairHash network s ⟨payment 1 ⟨6, 0⟩, 0⟩).map fun r =>
        (s.mapTxLockVotesOrphan[h]?, r.2.mapTxLockVotesOrphan[h]?, (r.2.mapTxLockCandidates[(2 : Uint256)]?).isSome)) =
      some (some (signedVote 1 2 ⟨5, 0⟩), none, false) := by decide
  simp only [hs, hs', Option.bind_some, Option.map_some, Option.some.injEq, Prod.mk.injEq] at htrace
  obtain ⟨hbefore, hafter, hcand⟩ := htrace
  refine ⟨s, s', hs, hs', fun hlost => ?_⟩
  rcases hlost h _ hbefore with hin | ⟨c, hc, -⟩
  · rw [hafter] at hin; cases hin
  · rw [show (signedVote 1 2 ⟨5, 0⟩).txHash = 2 from rfl] at hc
    rw [hc] at hcand; cases hcand

end Zumy.InstantSend
