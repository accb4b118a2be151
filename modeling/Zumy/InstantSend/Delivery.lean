/-
  Zumy.InstantSend.Delivery — a node that gets a request and votes for it.

  In a quiet node (online, not a masternode itself, nothing to resolve in the chain) the
  request of a valid transaction followed by valid votes for it counts every vote,
  whatever their order and however often they come (`deliver`). Enough of them on every
  input make the candidate ready (`ready_of_counted`).
-/
import Zumy.InstantSend.Replay

namespace Zumy.InstantSend

open Lib

structure Quiet (env : Env) : Prop where
  online : env.ignoresVotes minInstantsendProtoVersion = false
  relaysTxes : env.fBlocksOnly = false
  observer : env.fMasterNode = false
  settled : ∀ s T, env.resolveChain s T = (true, [])

def Ready (s : CInstantSend) (T : CTransaction) : Prop :=
  ∃ c, s.mapTxLockCandidates[T.hash]? = some c ∧ c.txLockRequest.toCTransaction = T ∧ c.isAllOutPointsReady = true

def CTransaction.prevouts (T : CTransaction) : List COutPoint := T.vin.map CTxIn.prevout

variable {voteHash : Uint256 → COutPoint → COutPoint → Uint256} {env : Env} {s s' : CInstantSend} {T : CTransaction}

/-- The state of a node that has seen nothing but the request and votes for it. -/
structure Delivering (voteHash : Uint256 → COutPoint → COutPoint → Uint256) (T : CTransaction) (s : CInstantSend) : Prop where
  candidate : ∃ c, s.mapTxLockCandidates[T.hash]? = some c ∧ c.txLockRequest.toCTransaction = T ∧
    ∀ o : COutPoint, (c.mapOutPointLocks[o]?).isSome ↔ o ∈ CTransaction.prevouts T
  voted : ∀ (o : COutPoint) (hashes : HashSet) (txHash : Uint256), s.mapVotedOutpoints[o]? = some hashes →
    txHash ∈ hashes → txHash = T.hash
  seen : ∀ v : CTxLockVote, v.txHash = T.hash → s.mapTxLockVotes.contains (v.getHash voteHash) = true → Counted s v

theorem isAllOutPointsReady_ofRequest {R : CTxLockRequest} (hvin : R.vin ≠ []) :
    (CTxLockCandidate.ofRequest R).isAllOutPointsReady = false := by
  rw [Bool.eq_false_iff]
  intro hready
  obtain ⟨txin, vin, hcons⟩ := List.exists_cons_of_ne_nil hvin
  have hlock : (CTxLockCandidate.ofRequest R).mapOutPointLocks[txin.prevout]? = some ⟨txin.prevout, ∅⟩ := by
    rw [CTxLockCandidate.ofRequest_locks, if_pos (by simp [hcons])]
  have hsize := (CTxLockCandidate.isAllOutPointsReady_iff.1 hready).2 _ _ hlock
  simp [signaturesRequired] at hsize

variable (voteHash) in
theorem step_request (hq : Quiet env) (hvin : T.vin ≠ [])
    (hvalid : ∀ fRequireUnspent, CTxLockRequest.isValid env ⟨T, env.now⟩ fRequireUnspent = true) :
    ∃ s, step voteHash init (env, .txLockRequest T) = some s ∧ Delivering voteHash T s := by
  let R : CTxLockRequest := ⟨T, env.now⟩
  let s₁ : CInstantSend := { init with mapTxLockCandidates := init.mapTxLockCandidates.insertIfNew T.hash (.ofRequest R) }
  have hcreate : createTxLockCandidate env init R = (true, s₁) := by
    simp only [createTxLockCandidate, R, hvalid, Bool.not_true, Bool.false_eq_true, if_false]
    rfl
  have hcand : s₁.mapTxLockCandidates[T.hash]? = some (.ofRequest R) := by
    rw [show s₁.mapTxLockCandidates = init.mapTxLockCandidates.insertIfNew T.hash (.ofRequest R) from rfl, lookup_insertIfNew]
    simp [init]
  have hvote : vote voteHash env s₁ T.hash = some s₁ := by simp [vote, hq.observer]
  have hready : isInstantSendReadyToLock env s₁ T.hash = false := by
    simp only [isInstantSendReadyToLock, hcand]
    split
    · rfl
    · exact isAllOutPointsReady_ofRequest hvin
  have hreq : processTxLockRequest voteHash env init R = some (true, s₁) := by
    have hreplay (reprocess) : processOrphanTxLockVotes voteHash reprocess env s₁ = some s₁ := rfl
    have hlock : lockIfReady voteHash env s₁ T.hash = some s₁ := by simp [lockIfReady, hready]
    have hlocked : init.hasLockedInput R = false := by simp [CInstantSend.hasLockedInput, init]
    simp only [processTxLockRequest, processTxLockRequestN, processTxLockRequestWith, hlocked, hcreate, Bool.not_true,
      Bool.false_eq_true, if_false]
    rw [show R.hash = T.hash from rfl, hvote, Option.bind_some, hreplay, Option.bind_some, hlock, Option.map_some]
  have hdeliv : Delivering voteHash T s₁ := by
    refine ⟨⟨_, hcand, by simp [R], fun o => ?_⟩, fun o hashes txHash hv => by simp [s₁, init] at hv,
      fun v _ hv => by simp [s₁, init] at hv⟩
    rw [CTxLockCandidate.ofRequest_locks]
    simp [CTransaction.prevouts, R]
  simp only [step, processLockRequestMessage, hq.relaysTxes, Bool.false_eq_true, if_false]
  rw [show (⟨T, env.now⟩ : CTxLockRequest) = R from rfl, hreq, Option.map_some]
  refine ⟨_, rfl, ?_⟩
  simp only [Bool.not_true, Bool.false_eq_true, if_false]
  repeat' split
  all_goals exact ⟨hdeliv.candidate, hdeliv.voted, hdeliv.seen⟩

variable (voteHash s) in
theorem addVoteToCandidate_quiet (hq : Quiet env) {c c' : CTxLockCandidate} {v : CTxLockVote} (hadd : c.addVote v = some c') :
    ∃ r, addVoteToCandidate voteHash env s c v = r ∧
      r.2.mapTxLockCandidates = s.mapTxLockCandidates.insert v.txHash c' ∧
      r.2.mapVotedOutpoints = s.mapVotedOutpoints ∧ r.2.mapTxLockVotes = s.mapTxLockVotes := by
  refine ⟨_, rfl, ?_⟩
  have hres (t : CInstantSend) : (resolveConflicts voteHash env t c').2 = t := by
    simp only [resolveConflicts, hq.settled, List.foldl_nil]
    repeat' split
    all_goals rfl
  simp only [addVoteToCandidate, hadd]
  split
  · exact ⟨rfl, rfl, rfl⟩
  split
  · simp only [lockTransactionInputs, hres]
    split <;> exact ⟨rfl, rfl, rfl⟩
  · rw [hres]; exact ⟨rfl, rfl, rfl⟩

variable (voteHash) in
theorem delivered (hq : Quiet env) {c : CTxLockCandidate} {v : CTxLockVote}
    (hc : s.mapTxLockCandidates[v.txHash]? = some c) (ho : (c.mapOutPointLocks[v.outpoint]?).isSome) :
    ∃ d, (addVoteToCandidate voteHash env s c v).2.mapTxLockCandidates[v.txHash]? = some d ∧
      d.txLockRequest = c.txLockRequest ∧
      (∀ o : COutPoint, (d.mapOutPointLocks[o]?).isSome = (c.mapOutPointLocks[o]?).isSome) ∧
      (∀ o mn, d.hasMasternodeVoted o mn = true ↔
        c.hasMasternodeVoted o mn = true ∨ (o = v.outpoint ∧ mn = v.outpointMasternode)) ∧
      (addVoteToCandidate voteHash env s c v).2.mapVotedOutpoints = s.mapVotedOutpoints ∧
      (addVoteToCandidate voteHash env s c v).2.mapTxLockVotes = s.mapTxLockVotes := by
  cases hadd : c.addVote v with
  | none =>
    have hvoted : c.hasMasternodeVoted v.outpoint v.outpointMasternode = true :=
      (CTxLockCandidate.addVote_eq_none hadd).resolve_left fun hnone => by rw [hnone] at ho; cases ho
    simp only [addVoteToCandidate, hadd]
    refine ⟨c, hc, rfl, fun _ => rfl, fun o mn => ⟨.inl, ?_⟩, trivial, trivial⟩
    intro hboth
    rcases hboth with h | ⟨rfl, rfl⟩
    · exact h
    · exact hvoted
  | some c' =>
    obtain ⟨r, rfl, hcands, hv, hseen⟩ := addVoteToCandidate_quiet voteHash s hq hadd
    exact ⟨c', by rw [hcands, lookup_insert, if_pos rfl], CTxLockCandidate.addVote_request hadd,
      fun _ => CTxLockCandidate.mem_locks_addVote hadd, fun _ _ => CTxLockCandidate.hasMasternodeVoted_addVote hadd, hv, hseen⟩

theorem step_vote (hq : Quiet env) (hinj : ∀ t o mn t' o' mn', voteHash t o mn = voteHash t' o' mn' → t = t' ∧ o = o' ∧ mn = mn')
    (hs : Delivering voteHash T s) {v : CTxLockVote} (htx : v.txHash = T.hash) (ho : v.outpoint ∈ CTransaction.prevouts T)
    (hvalid : v.isValid env = true) :
    ∃ s', step voteHash s (env, .txLockVote minInstantsendProtoVersion v) = some s' ∧ Delivering voteHash T s' ∧
      Counted s' v ∧ ∀ w : CTxLockVote, w.txHash = T.hash → Counted s w → Counted s' w := by
  cases hseen : s.mapTxLockVotes.contains (v.getHash voteHash) with
  | true => exact ⟨s, by simp only [step, processMessage, hseen, if_true, ite_self], hs, hs.seen v htx hseen, fun _ _ h => h⟩
  | false =>
    obtain ⟨c, hc, hT, hspends⟩ := hs.candidate
    let s₁ : CInstantSend := storeSeen voteHash s (v.received env)
    have hc₁ : s₁.mapTxLockCandidates[v.txHash]? = some c := by rw [htx]; exact hc
    -- the only hash voted is the vote's own
    have hconf : hasVotedAny s₁ v.outpoint v.outpointMasternode ((votedHashes s₁ v.outpoint).filter (· != v.txHash)) =
      some false := by
      have hnil : (votedHashes s₁ v.outpoint).filter (· != v.txHash) = [] := by
        rw [List.filter_eq_nil_iff]
        intro txHash hm
        unfold votedHashes at hm
        split at hm
        · cases hm
        · rename_i hashes hh
          rw [htx, hs.voted v.outpoint hashes txHash hh (Std.TreeSet.mem_toList.1 hm)]
          simp
      rw [hnil]
      rfl
    let s₂ : CInstantSend := { s₁ with mapVotedOutpoints := openVoted s₁.mapVotedOutpoints v.outpoint v.txHash }
    have hproc : step voteHash s (env, .txLockVote minInstantsendProtoVersion v) =
        some (addVoteToCandidate voteHash env s₂ c (v.received env)).2 := by
      have hcall : processTxLockVote voteHash env s₁ (v.received env) =
          processCandidateVote voteHash env s₁ c (v.received env) := by
        have hv : (v.received env).isValid env = true := hvalid
        simp only [processTxLockVote, processTxLockVoteWith, hv, Bool.not_true, Bool.false_eq_true, if_false]
        rw [show (v.received env).txHash = v.txHash from rfl, hc₁]
      rw [processCandidateVote_eq, show (v.received env).outpoint = v.outpoint from rfl,
        show (v.received env).outpointMasternode = v.outpointMasternode from rfl,
        show (v.received env).txHash = v.txHash from rfl, hconf] at hcall
      simp only [step, processMessage, hq.online, hseen, Bool.false_eq_true, if_false]
      rw [show processTxLockVote voteHash env (storeSeen voteHash s (v.received env)) (v.received env) = _ from hcall]
      rfl
    obtain ⟨d, hd, hdreq, hdlocks, hdvoted, hvoted, hvotes⟩ := delivered voteHash (s := s₂) hq hc₁
      (v := v.received env) ((hspends v.outpoint).2 ho)
    have hcounted {w : CTxLockVote} (hw : w.txHash = T.hash)
        (h : d.hasMasternodeVoted w.outpoint w.outpointMasternode = true) :
        Counted (addVoteToCandidate voteHash env s₂ c (v.received env)).2 w := ⟨d, by rw [hw, ← htx]; exact hd, h⟩
    have hmono (w : CTxLockVote) (hw : w.txHash = T.hash) (h : Counted s w) :
        Counted (addVoteToCandidate voteHash env s₂ c (v.received env)).2 w := by
      obtain ⟨c', hc', hm⟩ := h
      rw [hw, hc] at hc'
      cases hc'
      exact hcounted hw ((hdvoted _ _).2 (.inl hm))
    have hself := hcounted htx ((hdvoted _ _).2 (.inr ⟨rfl, rfl⟩))
    refine ⟨_, hproc, ⟨⟨d, by rw [← htx]; exact hd, by rw [hdreq]; exact hT, fun o => by rw [hdlocks]; exact hspends o⟩, ?_, ?_⟩,
      hself, hmono⟩
    · intro o hashes txHash hv hm
      rw [hvoted, openVoted_getElem?] at hv
      split at hv
      · cases hv
        rw [← htx]
        exact (by simpa using hm : v.txHash = txHash).symm
      · exact hs.voted o hashes txHash hv hm
    · intro w hw hin
      rw [hvotes] at hin
      simp only [s₂, s₁, storeSeen, contains_iff, lookup_insertIfNew] at hin
      split at hin
      · rename_i hsame
        obtain ⟨-, ho', hmn'⟩ := hinj _ _ _ _ _ _ hsame.1
        exact hcounted hw ((hdvoted _ _).2 (.inr ⟨ho', hmn'⟩))
      · exact hmono w hw (hs.seen w hw (contains_iff.2 hin))

/-- The induction is on the votes; what was counted stays counted. -/
theorem run_votes (hq : Quiet env) (hinj : ∀ t o mn t' o' mn', voteHash t o mn = voteHash t' o' mn' → t = t' ∧ o = o' ∧ mn = mn')
    {votes : List CTxLockVote} (hs : Delivering voteHash T s) (hvotes : ∀ v ∈ votes, v.txHash = T.hash ∧
      v.outpoint ∈ CTransaction.prevouts T ∧ v.isValid env = true) :
    ∃ s', run (step voteHash) s (votes.map fun v => (env, .txLockVote minInstantsendProtoVersion v)) = some s' ∧
      Delivering voteHash T s' ∧ (∀ v ∈ votes, Counted s' v) ∧ ∀ w : CTxLockVote, w.txHash = T.hash → Counted s w →
        Counted s' w := by
  induction votes generalizing s with
  | nil => exact ⟨s, rfl, hs, by simp, fun _ _ h => h⟩
  | cons v votes ih =>
    obtain ⟨htx, ho, hvalid⟩ := hvotes v (by simp)
    obtain ⟨t, ht, hdt, hvt, hmono⟩ := step_vote hq hinj hs htx ho hvalid
    obtain ⟨s', hrun, hds, hall, hmono'⟩ := ih hdt fun w hw => hvotes w (by simp [hw])
    refine ⟨s', by rw [List.map_cons, run_cons, ht]; exact hrun, hds, fun w hw => ?_, fun w hw h => hmono' w hw (hmono w hw h)⟩
    rcases List.mem_cons.1 hw with rfl | hw
    · exact hmono' w htx hvt
    · exact hall w hw

theorem deliver (hq : Quiet env) (hinj : ∀ t o mn t' o' mn', voteHash t o mn = voteHash t' o' mn' → t = t' ∧ o = o' ∧ mn = mn')
    (hvin : T.vin ≠ []) (hvalid : ∀ fRequireUnspent, CTxLockRequest.isValid env ⟨T, env.now⟩ fRequireUnspent = true)
    (votes : List CTxLockVote) (hvotes : ∀ v ∈ votes, v.txHash = T.hash ∧ v.outpoint ∈ CTransaction.prevouts T ∧
      v.isValid env = true) :
    ∃ s, run (step voteHash) init ((env, .txLockRequest T) ::
        votes.map fun v => (env, .txLockVote minInstantsendProtoVersion v)) = some s ∧
      Delivering voteHash T s ∧ ∀ v ∈ votes, Counted s v := by
  obtain ⟨s₁, hs₁, hd⟩ := step_request voteHash hq hvin hvalid
  obtain ⟨s, hrun, hds, hall, -⟩ := run_votes hq hinj hd hvotes
  exact ⟨s, by rw [run_cons, hs₁]; exact hrun, hds, hall⟩

theorem ready_of_counted (hs : Delivering voteHash T s) (hvin : T.vin ≠ []) (signers : COutPoint → Finset COutPoint)
    (hcard : ∀ o ∈ CTransaction.prevouts T, signaturesRequired ≤ (signers o).card)
    (hcounted : ∀ o ∈ CTransaction.prevouts T, ∀ mn ∈ signers o, ∃ v, Counted s v ∧ v.txHash = T.hash ∧ v.outpoint = o ∧
      v.outpointMasternode = mn) : Ready s T := by
  obtain ⟨c, hc, hT, hspends⟩ := hs.candidate
  refine ⟨c, hc, hT, CTxLockCandidate.isAllOutPointsReady_iff.2 ⟨?_, fun o l hl => ?_⟩⟩
  · obtain ⟨txin, vin, hcons⟩ := List.exists_cons_of_ne_nil hvin
    have hin : (c.mapOutPointLocks[txin.prevout]?).isSome :=
      (hspends _).2 (by simp [CTransaction.prevouts, hcons])
    rw [Bool.eq_false_iff]
    intro hempty
    rw [Std.TreeMap.getElem?_of_isEmpty hempty] at hin
    cases hin
  · have ho : o ∈ CTransaction.prevouts T := (hspends o).1 (by rw [hl]; rfl)
    have hsub : signers o ⊆ l.mapMasternodeVotes.keys.toFinset := by
      intro mn hmn
      obtain ⟨v, ⟨c', hc', hv⟩, htx, rfl, rfl⟩ := hcounted o ho mn hmn
      rw [htx, hc] at hc'
      cases hc'
      obtain ⟨l', hl', w, hw⟩ := CTxLockCandidate.hasMasternodeVoted_iff.1 hv
      rw [hl] at hl'
      cases hl'
      rw [List.mem_toFinset, Std.TreeMap.mem_keys, ← Std.TreeMap.isSome_getElem?_iff_mem, hw]
      rfl
    have hle := Finset.card_le_card hsub
    rw [card_keys_toFinset] at hle
    exact (hcard o ho).trans hle

end Zumy.InstantSend
