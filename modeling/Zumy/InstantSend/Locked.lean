/-
  Zumy.InstantSend.Locked — who removes an entry of `mapLockedOutpoints`.

  A completed candidate locks its outpoints, and its lock is meant to last until the
  block with its own transaction is `nInstantSendKeepLock` blocks deep. `CheckAndRemove`
  erases the outpoints of every expired candidate without comparing the entry's hash,
  so a competing candidate that confirms takes the winner's lock with it.

  - `locked_unique`: of the candidates of one outpoint at most one is locked, in every state.
  - `locks_kept_iff`: over a run, entries are removed only by the expiry of their own
    candidate exactly when no candidate expires on an outpoint locked for a candidate
    that does not expire with it.
  - `competitor_expiry_unlocks`: a run where it does.
-/
import Zumy.InstantSend.Expiry

namespace Zumy.InstantSend

open Lib

variable {voteHash : Uint256 → COutPoint → COutPoint → Uint256}

theorem locked_unique {env₁ env₂ : Env} {s : CInstantSend} {txHash₁ txHash₂ : Uint256} {c₁ c₂ : CTxLockCandidate}
    {o : COutPoint} (h₁ : isLockedInstantSendTransaction env₁ s txHash₁ = true)
    (h₂ : isLockedInstantSendTransaction env₂ s txHash₂ = true)
    (hc₁ : s.mapTxLockCandidates[txHash₁]? = some c₁) (hc₂ : s.mapTxLockCandidates[txHash₂]? = some c₂)
    (ho₁ : (c₁.mapOutPointLocks[o]?).isSome) (ho₂ : (c₂.mapOutPointLocks[o]?).isSome) : txHash₁ = txHash₂ := by
  have locked {env : Env} {txHash : Uint256} {c : CTxLockCandidate}
      (h : isLockedInstantSendTransaction env s txHash = true) (hc : s.mapTxLockCandidates[txHash]? = some c)
      (ho : (c.mapOutPointLocks[o]?).isSome) : s.mapLockedOutpoints[o]? = some txHash := by
    simp only [isLockedInstantSendTransaction, hc] at h
    split at h
    · cases h
    split at h
    · cases h
    · have hall := List.all_eq_true.1 h o (Std.TreeMap.mem_keys.2 (Std.TreeMap.isSome_getElem?_iff_mem.1 ho))
      simpa [CInstantSend.getLockedOutPointTxHash] using hall
  exact Option.some.inj ((locked h₁ hc₁ ho₁).symm.trans (locked h₂ hc₂ ho₂))

/-- The step keeps every lock entry whose own candidate does not expire in it. -/
def LocksKept (s : CInstantSend) (ev : Env × Event) (s' : CInstantSend) : Prop :=
  ∀ (o : COutPoint) (txHash : Uint256), s.mapLockedOutpoints[o]? = some txHash →
    s'.mapLockedOutpoints[o]? = some txHash ∨ ev.2 = .checkAndRemove ∧ Expires ev.1 s txHash

/-- Where a candidate expires, the candidate its outpoint is locked for expires too. -/
def ExpiresWithOwner (s : CInstantSend) (ev : Env × Event) : Prop :=
  ev.2 = .checkAndRemove → ∀ (o : COutPoint) (txHash : Uint256), s.mapLockedOutpoints[o]? = some txHash →
    ExpiresOn ev.1 s o → Expires ev.1 s txHash

theorem Move.locked_kept {env : Env} {ok : VoteCond} {s s' : CInstantSend} {o : COutPoint} {txHash : Uint256}
    (hs : s.mapLockedOutpoints[o]? = some txHash) (h : Move env ok s s') : s'.mapLockedOutpoints[o]? = some txHash := by
  cases h with
  | book _ _ hl => rw [hl]; exact hs
  | confirm => exact hs
  | create => exact hs
  | refuse => exact hs
  | count => exact hs
  | own => exact hs
  | lock c =>
    unfold lockTransactionInputs
    split
    · exact hs
    · simp only [lookup_foldl_insertIfNew, hs, Option.some_or]

theorem locksKept_iff {s s' : CInstantSend} {ev : Env × Event} (h : step voteHash s ev = some s') :
    LocksKept s ev s' ↔ ExpiresWithOwner s ev := by
  by_cases hexp : ev.2 = .checkAndRemove
  · simp only [step, hexp, Option.some.injEq] at h
    subst h
    simp only [LocksKept, ExpiresWithOwner, hexp, checkAndRemove_locked, true_and, true_imp_iff]
    apply forall₂_congr
    intro o txHash
    constructor
    · intro hk hl ho
      exact (hk hl).resolve_left fun hno => hno.2 ho
    · intro hk hl
      by_cases ho : ExpiresOn ev.1 s o
      · exact .inr (hk hl ho)
      · exact .inl ⟨hl, ho⟩
  · have hchain : Chain ev.1 (fun _ _ _ => True) s s' := step_moves hexp (eventMeets_of_forall (fun _ _ _ => trivial) s ev) h
    simp only [LocksKept, ExpiresWithOwner, hexp, false_and, or_false, false_imp_iff, iff_true]
    intro o txHash hl
    exact chain_inv (fun t => t.mapLockedOutpoints[o]? = some txHash) (fun t t' ht hm => hm.locked_kept ht) hchain hl

def AtMostOneLocked (s : CInstantSend) : Prop :=
  ∀ env₁ env₂ txHash₁ txHash₂ c₁ c₂ (o : COutPoint), isLockedInstantSendTransaction env₁ s txHash₁ = true →
    isLockedInstantSendTransaction env₂ s txHash₂ = true → s.mapTxLockCandidates[txHash₁]? = some c₁ →
    s.mapTxLockCandidates[txHash₂]? = some c₂ → (c₁.mapOutPointLocks[o]?).isSome → (c₂.mapOutPointLocks[o]?).isSome →
    txHash₁ = txHash₂

theorem locks_kept_iff (es : List (Env × Event)) :
    (Along (step voteHash) LocksKept init es ↔ Meets (step voteHash) ExpiresWithOwner init es) ∧
      ∀ s, run (step voteHash) init es = some s → AtMostOneLocked s := by
  refine ⟨along_iff_meets (fun s ev s' h => locksKept_iff h) ?_, ?_⟩
  · intro s ev hnone hexp
    simp [step, hexp] at hnone
  · intro s _ env₁ env₂ txHash₁ txHash₂ c₁ c₂ o
    exact locked_unique

/-! ## A competitor's expiry takes the lock -/

/-- Transactions 1 and 2 spend one outpoint; 2 collects its votes and is locked; 1 is in
    block 100. -/
def competitorTrace : List (Env × Event) :=
  let o : COutPoint := ⟨5, 0⟩
  [(network, .txLockRequest (payment 1 o)), (network, .txLockRequest (payment 2 o))] ++
    (List.range 10).map (fun k => (network, .txLockVote 70000 (signedVote (k + 1) 2 o))) ++
    [(network, .notification (.syncTransaction (payment 1 o) (some (some 100)))),
     (network, .notification (.updatedBlockTip (some 125)))]

theorem competitor_expiry_unlocks : ∃ s s', run (step pairHash) init competitorTrace = some s ∧
    step pairHash s (network, .checkAndRemove) = some s' ∧ ¬ LocksKept s (network, .checkAndRemove) s' := by
  let o : COutPoint := ⟨5, 0⟩
  obtain ⟨s, hs⟩ : ∃ s, run (step pairHash) init competitorTrace = some s := Option.isSome_iff_exists.1 (by decide)
  have htrace : (run (step pairHash) init competitorTrace).map (fun s =>
      (s.mapLockedOutpoints[o]?, (s.mapTxLockCandidates[(2 : Uint256)]?).map (·.nConfirmedHeight),
        (checkAndRemove network s).mapLockedOutpoints[o]?)) = some (some 2, some (-1), none) := by decide
  simp only [hs, Option.map_some, Option.some.injEq, Prod.mk.injEq] at htrace
  obtain ⟨hlocked, hheight, hgone⟩ := htrace
  refine ⟨s, checkAndRemove network s, hs, rfl, fun hkept => ?_⟩
  rcases hkept o 2 hlocked with h | ⟨-, nHeight, c, -, hc, hexp⟩
  · rw [hgone] at h; cases h
  · -- candidate 2 is unconfirmed, so it never expires
    rw [hc] at hheight
    simp [isExpired, Option.some.inj hheight] at hexp

end Zumy.InstantSend
