/-
  Zumy.InstantSend.Expiry — what `CheckAndRemove` keeps, lookup by lookup.

  A candidate expires once its transaction has been in a block for more than
  `nInstantSendKeepLock` blocks. Its removal drops every entry of its outpoints in
  `mapLockedOutpoints` and `mapVotedOutpoints`, without looking at the transaction the
  entry names.
-/
import Zumy.InstantSend.Moves

namespace Zumy.InstantSend

open Lib

/-- Candidate `txHash` expires at the tip. -/
def Expires (env : Env) (s : CInstantSend) (txHash : Uint256) : Prop :=
  ∃ nHeight c, s.pCurrentBlockIndex = some nHeight ∧ s.mapTxLockCandidates[txHash]? = some c ∧
    isExpired env c.nConfirmedHeight nHeight = true

def ExpiresOn (env : Env) (s : CInstantSend) (o : COutPoint) : Prop :=
  ∃ txHash c, Expires env s txHash ∧ s.mapTxLockCandidates[txHash]? = some c ∧ (c.mapOutPointLocks[o]?).isSome

variable {env : Env} {s : CInstantSend}

theorem foldl_removeCandidate_candidates (L : List (Uint256 × CTxLockCandidate)) :
    (L.foldl removeCandidate s).mapTxLockCandidates =
      (L.map (·.1)).foldl (fun m txHash => m.erase txHash) s.mapTxLockCandidates := by
  rw [List.foldl_map]
  exact (List.foldl_hom _ fun _ _ => rfl).symm

theorem foldl_removeCandidate_locked (L : List (Uint256 × CTxLockCandidate)) :
    (L.foldl removeCandidate s).mapLockedOutpoints =
      (L.flatMap (·.2.mapOutPointLocks.keys)).foldl (fun m o => m.erase o) s.mapLockedOutpoints := by
  rw [List.foldl_flatMap]
  exact (List.foldl_hom _ fun _ _ => rfl).symm

theorem foldl_removeCandidate_voted (L : List (Uint256 × CTxLockCandidate)) :
    (L.foldl removeCandidate s).mapVotedOutpoints =
      (L.flatMap (·.2.mapOutPointLocks.keys)).foldl (fun m o => m.erase o) s.mapVotedOutpoints := by
  rw [List.foldl_flatMap]
  exact (List.foldl_hom _ fun _ _ => rfl).symm

theorem foldl_removeCandidate_orphans (L : List (Uint256 × CTxLockCandidate)) :
    (L.foldl removeCandidate s).mapTxLockVotesOrphan = s.mapTxLockVotesOrphan := by
  induction L generalizing s with
  | nil => rfl
  | cons kv L ih => exact ih

theorem mem_expiredCandidates {nHeight : Int} {kv : Uint256 × CTxLockCandidate} :
    kv ∈ expiredCandidates env s nHeight ↔
      s.mapTxLockCandidates[kv.1]? = some kv.2 ∧ isExpired env kv.2.nConfirmedHeight nHeight = true := by
  obtain ⟨txHash, c⟩ := kv
  simp [expiredCandidates]

theorem expires_iff {nHeight : Int} (htip : s.pCurrentBlockIndex = some nHeight) {txHash : Uint256} :
    Expires env s txHash ↔ txHash ∈ (expiredCandidates env s nHeight).map (·.1) := by
  simp [Expires, htip, mem_expiredCandidates]

theorem expiresOn_iff {nHeight : Int} (htip : s.pCurrentBlockIndex = some nHeight) {o : COutPoint} :
    ExpiresOn env s o ↔ o ∈ (expiredCandidates env s nHeight).flatMap (·.2.mapOutPointLocks.keys) := by
  simp only [ExpiresOn, List.mem_flatMap, Prod.exists, mem_expiredCandidates, Std.TreeMap.mem_keys,
    ← Std.TreeMap.isSome_getElem?_iff_mem]
  constructor
  · intro h
    rcases h with ⟨txHash, c, ⟨n, c', hn, hc', hexp⟩, hc, ho⟩
    rw [htip] at hn; cases hn
    rw [hc] at hc'; cases hc'
    exact ⟨txHash, c, ⟨hc, hexp⟩, ho⟩
  · intro h
    rcases h with ⟨txHash, c, ⟨hc, hexp⟩, ho⟩
    exact ⟨txHash, c, ⟨nHeight, c, htip, hc, hexp⟩, hc, ho⟩

/-! ## What is kept -/

theorem checkAndRemove_candidates (txHash : Uint256) (c : CTxLockCandidate) :
    (checkAndRemove env s).mapTxLockCandidates[txHash]? = some c ↔
      s.mapTxLockCandidates[txHash]? = some c ∧ ¬ Expires env s txHash := by
  unfold checkAndRemove
  split
  · rename_i htip; simp [Expires, htip]
  · rename_i nHeight htip
    simp only [foldl_removeCandidate_candidates, lookup_foldl_erase, expires_iff htip]
    split <;> rename_i h <;> simp only [h, reduceCtorEq, not_true, not_false_iff, and_true, and_false]

theorem checkAndRemove_locked (o : COutPoint) (txHash : Uint256) :
    (checkAndRemove env s).mapLockedOutpoints[o]? = some txHash ↔
      s.mapLockedOutpoints[o]? = some txHash ∧ ¬ ExpiresOn env s o := by
  unfold checkAndRemove
  split
  · rename_i htip; simp [ExpiresOn, Expires, htip]
  · rename_i nHeight htip
    simp only [foldl_removeCandidate_locked, lookup_foldl_erase, expiresOn_iff htip]
    split <;> rename_i h <;> simp only [h, reduceCtorEq, not_true, not_false_iff, and_true, and_false]

theorem checkAndRemove_voted (o : COutPoint) (hashes : HashSet) :
    (checkAndRemove env s).mapVotedOutpoints[o]? = some hashes ↔
      s.mapVotedOutpoints[o]? = some hashes ∧ ¬ ExpiresOn env s o := by
  unfold checkAndRemove
  split
  · rename_i htip; simp [ExpiresOn, Expires, htip]
  · rename_i nHeight htip
    simp only [foldl_removeCandidate_voted, lookup_foldl_erase, expiresOn_iff htip]
    split <;> rename_i h <;> simp only [h, reduceCtorEq, not_true, not_false_iff, and_true, and_false]

theorem checkAndRemove_orphans {nVoteHash : Uint256} {v : CTxLockVote}
    (h : (checkAndRemove env s).mapTxLockVotesOrphan[nVoteHash]? = some v) : s.mapTxLockVotesOrphan[nVoteHash]? = some v := by
  simp only [checkAndRemove] at h
  split at h
  · exact h
  · rw [lookup_filter, foldl_removeCandidate_orphans] at h
    exact (Option.filter_eq_some_iff.1 h).1

end Zumy.InstantSend
