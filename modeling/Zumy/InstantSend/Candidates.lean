/-
  Zumy.InstantSend.Candidates — what the operations on candidates and on the voted
  outpoints do, lookup by lookup. Later modules use these and do not unfold the
  operations again.
-/
import Zumy.Lib.OrdMap
import Zumy.InstantSend.Process

namespace Zumy.InstantSend

open Lib

/-! ## Votes of a candidate -/

theorem COutPointLock.addVote_eq_some {l l' : COutPointLock} {v : CTxLockVote} (h : l.addVote v = some l') :
    l.hasMasternodeVoted v.outpointMasternode = false ∧
      l' = { l with mapMasternodeVotes := l.mapMasternodeVotes.insertIfNew v.outpointMasternode v } := by
  unfold COutPointLock.addVote at h
  split at h
  · cases h
  · rename_i hc
    cases h
    exact ⟨Bool.eq_false_iff.2 hc, rfl⟩

theorem CTxLockCandidate.addVote_eq_some {c c' : CTxLockCandidate} {v : CTxLockVote} (h : c.addVote v = some c') :
    ∃ l l', c.mapOutPointLocks[v.outpoint]? = some l ∧ l.addVote v = some l' ∧
      c' = { c with mapOutPointLocks := c.mapOutPointLocks.insert v.outpoint l' } := by
  unfold CTxLockCandidate.addVote at h
  split at h
  · cases h
  · rename_i l hl
    obtain ⟨l', hl', rfl⟩ := Option.map_eq_some_iff.1 h
    exact ⟨l, l', hl, hl', rfl⟩

/-- A vote is refused by a candidate that lacks its outpoint or has its masternode's vote. -/
theorem CTxLockCandidate.addVote_eq_none {c : CTxLockCandidate} {v : CTxLockVote} (h : c.addVote v = none) :
    c.mapOutPointLocks[v.outpoint]? = none ∨ c.hasMasternodeVoted v.outpoint v.outpointMasternode = true := by
  unfold CTxLockCandidate.addVote at h
  split at h
  · rename_i hl; exact .inl hl
  · rename_i l hl
    refine .inr ?_
    simp only [Option.map_eq_none_iff, COutPointLock.addVote] at h
    split at h
    · rename_i hc; simpa [CTxLockCandidate.hasMasternodeVoted, hl, COutPointLock.hasMasternodeVoted] using hc
    · cases h

theorem CTxLockCandidate.hasMasternodeVoted_iff {c : CTxLockCandidate} {o mn : COutPoint} :
    c.hasMasternodeVoted o mn = true ↔
      ∃ l, c.mapOutPointLocks[o]? = some l ∧ ∃ v, l.mapMasternodeVotes[mn]? = some v := by
  unfold CTxLockCandidate.hasMasternodeVoted
  split
  · rename_i hl; simp [hl]
  · rename_i l hl
    simp only [hl, COutPointLock.hasMasternodeVoted, contains_iff, Option.some.injEq, exists_eq_left']

section
variable {c c' : CTxLockCandidate} {v : CTxLockVote} {o mn : COutPoint}

theorem CTxLockCandidate.addVote_request (h : c.addVote v = some c') : c'.txLockRequest = c.txLockRequest := by
  obtain ⟨l, l', -, -, rfl⟩ := CTxLockCandidate.addVote_eq_some h; rfl

theorem CTxLockCandidate.addVote_not_voted (h : c.addVote v = some c') :
    c.hasMasternodeVoted v.outpoint v.outpointMasternode = false := by
  obtain ⟨l, l', hl, hadd, -⟩ := CTxLockCandidate.addVote_eq_some h
  simpa [CTxLockCandidate.hasMasternodeVoted, hl] using (COutPointLock.addVote_eq_some hadd).1

theorem CTxLockCandidate.hasMasternodeVoted_addVote (h : c.addVote v = some c') :
    c'.hasMasternodeVoted o mn = true ↔
      c.hasMasternodeVoted o mn = true ∨ (o = v.outpoint ∧ mn = v.outpointMasternode) := by
  obtain ⟨l, l', hl, hadd, rfl⟩ := CTxLockCandidate.addVote_eq_some h
  obtain ⟨hno, rfl⟩ := COutPointLock.addVote_eq_some hadd
  rw [COutPointLock.hasMasternodeVoted, contains_eq_false_iff] at hno
  simp only [CTxLockCandidate.hasMasternodeVoted_iff, lookup_insert]
  by_cases ho : o = v.outpoint
  · subst ho
    simp only [if_true, hl, Option.some.injEq, exists_eq_left', lookup_insertIfNew, true_and]
    by_cases hm : mn = v.outpointMasternode
    · subst hm; simp [hno]
    · simp [hm]
  · simp [ho]

theorem CTxLockCandidate.mem_locks_addVote (h : c.addVote v = some c') :
    (c'.mapOutPointLocks[o]?).isSome = (c.mapOutPointLocks[o]?).isSome := by
  obtain ⟨l, l', hl, hadd, rfl⟩ := CTxLockCandidate.addVote_eq_some h
  simp only [lookup_insert]
  split
  · rename_i ho; subst ho; simp [hl]
  · rfl

end

theorem COutPointLock.isReady_iff {l : COutPointLock} :
    l.isReady = true ↔ signaturesRequired ≤ l.mapMasternodeVotes.size := decide_eq_true_iff

theorem CTxLockCandidate.isAllOutPointsReady_iff {c : CTxLockCandidate} :
    c.isAllOutPointsReady = true ↔ c.mapOutPointLocks.isEmpty = false ∧
      ∀ (o : COutPoint) (l : COutPointLock), c.mapOutPointLocks[o]? = some l →
        signaturesRequired ≤ l.mapMasternodeVotes.size := by
  simp [CTxLockCandidate.isAllOutPointsReady, COutPointLock.isReady_iff]

/-! ## New candidates -/

theorem foldl_addOutPointLock_request (os : List COutPoint) (c : CTxLockCandidate) :
    (os.foldl CTxLockCandidate.addOutPointLock c).txLockRequest = c.txLockRequest := by
  induction os generalizing c with
  | nil => rfl
  | cons o os ih => exact ih _

theorem foldl_addOutPointLock_locks (os : List COutPoint) (c : CTxLockCandidate) (o : COutPoint) :
    (os.foldl CTxLockCandidate.addOutPointLock c).mapOutPointLocks[o]? =
      (c.mapOutPointLocks[o]?).or (if o ∈ os then some ⟨o, ∅⟩ else none) := by
  induction os generalizing c with
  | nil => simp
  | cons x os ih =>
    rw [List.foldl_cons, ih]
    simp only [CTxLockCandidate.addOutPointLock, lookup_insertIfNew]
    by_cases hx : o = x
    · subst hx
      cases h : c.mapOutPointLocks[o]? <;> simp
    · simp [hx]

@[simp] theorem CTxLockCandidate.ofRequest_request (T : CTxLockRequest) :
    (CTxLockCandidate.ofRequest T).txLockRequest = T := foldl_addOutPointLock_request _ _

@[simp] theorem CTxLockCandidate.ofRequest_locks (T : CTxLockRequest) (o : COutPoint) :
    (CTxLockCandidate.ofRequest T).mapOutPointLocks[o]? =
      if o ∈ T.vin.map CTxIn.prevout then some ⟨o, ∅⟩ else none := by
  rw [CTxLockCandidate.ofRequest, foldl_addOutPointLock_locks]
  simp

theorem CTxLockCandidate.ofRequest_not_voted (T : CTxLockRequest) (o mn : COutPoint) :
    (CTxLockCandidate.ofRequest T).hasMasternodeVoted o mn = false := by
  unfold CTxLockCandidate.hasMasternodeVoted
  rw [CTxLockCandidate.ofRequest_locks]
  split <;> rename_i h <;> split at h <;> cases h <;> rfl

/-! ## The voted outpoints -/

def openVoted (m : Map COutPoint HashSet) (o : COutPoint) (txHash : Uint256) : Map COutPoint HashSet :=
  match m[o]? with
  | none => m.insertIfNew o ((∅ : HashSet).insert txHash)
  | some _ => m

theorem openVoted_getElem? (m : Map COutPoint HashSet) (o : COutPoint) (txHash : Uint256) (x : COutPoint) :
    (openVoted m o txHash)[x]? = if x = o ∧ m[o]? = none then some ((∅ : HashSet).insert txHash) else m[x]? := by
  unfold openVoted
  split <;> rename_i h
  · rw [lookup_insertIfNew]
  · simp [h]

theorem addVotedOutpoint_getElem? (m : Map COutPoint HashSet) (o : COutPoint) (txHash : Uint256) (x : COutPoint) :
    (addVotedOutpoint m o txHash)[x]? = if x = o then some ((m[o]?.getD ∅).insert txHash) else m[x]? := by
  unfold addVotedOutpoint
  split <;> rename_i h
  · simp [lookup_insertIfNew, h]
  · simp [lookup_modify, h]

section
variable {s : CInstantSend} {o mn : COutPoint} {hashes : List Uint256}

theorem hasVotedAny_eq_false (h : hasVotedAny s o mn hashes = some false) :
    ∀ hash ∈ hashes, ∀ c, s.mapTxLockCandidates[hash]? = some c → c.hasMasternodeVoted o mn = false := by
  induction hashes with
  | nil => simp
  | cons x xs ih =>
    simp only [hasVotedAny] at h
    split at h
    · cases h
    · rename_i c hc
      split at h
      · cases h
      · rename_i hno
        intro hash hmem c' hc'
        rcases List.mem_cons.1 hmem with rfl | hmem
        · rw [hc] at hc'; cases hc'; simpa using hno
        · exact ih h hash hmem c' hc'

theorem hasVotedAny_isSome (h : ∀ hash ∈ hashes, (s.mapTxLockCandidates[hash]?).isSome) :
    (hasVotedAny s o mn hashes).isSome := by
  induction hashes with
  | nil => rfl
  | cons x xs ih =>
    obtain ⟨c, hc⟩ := Option.isSome_iff_exists.1 (h x (by simp))
    simp only [hasVotedAny, hc]
    split
    · rfl
    · exact ih fun hash hm => h hash (by simp [hm])

end

end Zumy.InstantSend
