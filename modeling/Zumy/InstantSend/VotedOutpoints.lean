/-
  Zumy.InstantSend.VotedOutpoints — the hashes of `mapVotedOutpoints` are candidates.

  `ProcessTxLockVote` looks up every hash voted on its outpoint and dereferences what it
  finds. A candidate's expiry erases the sets of its own outpoints, so the lookups are
  defined as long as a hash is only in sets of its candidate's outpoints. A valid vote
  for a candidate on an outpoint that is not one of its inputs opens a set there before
  `AddVote` refuses it, and that set outlives the candidate.
-/
import Zumy.InstantSend.Replay

namespace Zumy.InstantSend

open Lib

def OpensOwnOutpoint : VoteCond := fun s c v =>
  s.mapVotedOutpoints[v.outpoint]? = none → (c.mapOutPointLocks[v.outpoint]?).isSome

def VotedAreCandidates (s : CInstantSend) : Prop :=
  ∀ (o : COutPoint) (hashes : HashSet) (txHash : Uint256), s.mapVotedOutpoints[o]? = some hashes → txHash ∈ hashes →
    (s.mapTxLockCandidates[txHash]?).isSome

def VotedSpend (s : CInstantSend) : Prop :=
  ∀ (o : COutPoint) (hashes : HashSet) (txHash : Uint256), s.mapVotedOutpoints[o]? = some hashes → txHash ∈ hashes →
    ∃ c, s.mapTxLockCandidates[txHash]? = some c ∧ (c.mapOutPointLocks[o]?).isSome

theorem VotedSpend.candidates {s : CInstantSend} (hs : VotedSpend s) : VotedAreCandidates s := by
  intro o hashes txHash hv hm
  obtain ⟨c, hc, -⟩ := hs o hashes txHash hv hm
  rw [hc]
  rfl

variable {voteHash : Uint256 → COutPoint → COutPoint → Uint256} {env : Env} {s s' : CInstantSend}

def SpendsKept (s s' : CInstantSend) : Prop :=
  ∀ (txHash : Uint256) c (o : COutPoint), s.mapTxLockCandidates[txHash]? = some c → (c.mapOutPointLocks[o]?).isSome →
    ∃ c', s'.mapTxLockCandidates[txHash]? = some c' ∧ (c'.mapOutPointLocks[o]?).isSome

theorem SpendsKept.of_insert {txHash : Uint256} {c c' : CTxLockCandidate} {v : CTxLockVote}
    (hc : s.mapTxLockCandidates[txHash]? = some c) (hadd : c.addVote v = some c')
    (hs' : s'.mapTxLockCandidates = s.mapTxLockCandidates.insert txHash c') : SpendsKept s s' := by
  intro h d o hd ho
  rw [hs', lookup_insert]
  by_cases he : h = txHash
  · subst he
    rw [hc] at hd
    cases hd
    exact ⟨c', by rw [if_pos rfl], by rw [CTxLockCandidate.mem_locks_addVote hadd]; exact ho⟩
  · exact ⟨d, by rw [if_neg he]; exact hd, ho⟩

theorem VotedSpend.of_opened {o : COutPoint} {txHash : Uint256} {c : CTxLockCandidate} (hs : VotedSpend s)
    (hc : s'.mapTxLockCandidates[txHash]? = some c) (ho : s.mapVotedOutpoints[o]? = none → (c.mapOutPointLocks[o]?).isSome)
    (hk : SpendsKept s s') (hv : s'.mapVotedOutpoints = openVoted s.mapVotedOutpoints o txHash) : VotedSpend s' := by
  intro x hashes h hx hm
  rw [hv, openVoted_getElem?] at hx
  split at hx
  · rename_i hopen
    cases hx
    have he : txHash = h := by simpa using hm
    subst he
    exact ⟨c, hc, by rw [hopen.1]; exact ho hopen.2⟩
  · obtain ⟨d, hd, hdo⟩ := hs x hashes h hx hm
    exact hk h d x hd hdo

theorem Move.votedSpend (hs : VotedSpend s) (h : Move env OpensOwnOutpoint s s') : VotedSpend s' := by
  cases h with
  | book hc hv _ =>
    unfold VotedSpend
    rw [hc, hv]
    exact hs
  | confirm txHash nHeightNew =>
    intro o hashes h hv hm
    obtain ⟨c, hc, ho⟩ := hs o hashes h hv hm
    simp only [lookup_modify]
    by_cases he : h = txHash
    · subst he
      exact ⟨{ c with nConfirmedHeight := nHeightNew }, by rw [if_pos rfl, hc, Option.map_some], ho⟩
    · exact ⟨c, by rw [if_neg he]; exact hc, ho⟩
  | create T _ _ hnew =>
    intro o hashes h hv hm
    obtain ⟨c, hc, ho⟩ := hs o hashes h hv hm
    have hne : h ≠ T.hash := by rintro rfl; rw [hnew] at hc; cases hc
    exact ⟨c, by simp only [lookup_insertIfNew, hne, false_and, if_false]; exact hc, ho⟩
  | refuse v c _ hc hok _ => exact hs.of_opened hc hok (fun _ d _ hd ho => ⟨d, hd, ho⟩) rfl
  | count v c c' _ hc hok _ hadd =>
    obtain ⟨l, -, hl, -, -⟩ := CTxLockCandidate.addVote_eq_some hadd
    have ho : (c'.mapOutPointLocks[v.outpoint]?).isSome := by
      rw [CTxLockCandidate.mem_locks_addVote hadd, hl]; rfl
    exact hs.of_opened (by simp only [lookup_insert, if_true]) (fun _ => ho) (.of_insert hc hadd rfl) rfl
  | own v c c' _ hc _ hadd =>
    obtain ⟨l, -, hl, -, -⟩ := CTxLockCandidate.addVote_eq_some hadd
    have hk : SpendsKept s { s with
        mapTxLockCandidates := s.mapTxLockCandidates.insert v.txHash c'
        mapVotedOutpoints := addVotedOutpoint s.mapVotedOutpoints v.outpoint v.txHash } := .of_insert hc hadd rfl
    intro x hashes h hx hm
    simp only [addVotedOutpoint_getElem?] at hx
    split at hx
    · rename_i he
      subst he
      cases hx
      rcases Std.TreeSet.mem_insert.1 hm with heq | hm
      · have heq' : v.txHash = h := by simpa using heq
        subst heq'
        exact hk v.txHash c v.outpoint hc (by rw [hl]; rfl)
      · cases hv : s.mapVotedOutpoints[v.outpoint]? with
        | none => simp [hv] at hm
        | some old =>
          obtain ⟨d, hd, ho⟩ := hs v.outpoint old h hv (by simpa [hv] using hm)
          exact hk h d v.outpoint hd ho
    · obtain ⟨d, hd, ho⟩ := hs x hashes h hx hm
      exact hk h d x hd ho
  | lock c =>
    unfold lockTransactionInputs
    split <;> exact hs

/-- An expired candidate takes the sets of its outpoints with it, so no set is left with its hash. -/
theorem checkAndRemove_votedSpend (hs : VotedSpend s) : VotedSpend (checkAndRemove env s) := by
  intro o hashes txHash hv hm
  obtain ⟨hv, hno⟩ := (checkAndRemove_voted o hashes).1 hv
  obtain ⟨c, hc, ho⟩ := hs o hashes txHash hv hm
  exact ⟨c, (checkAndRemove_candidates txHash c).2 ⟨hc, fun hexp => hno ⟨txHash, c, hexp, hc, ho⟩⟩, ho⟩

theorem step_votedSpend {ev : Env × Event} (hs : VotedSpend s) (hok : EventMeets voteHash OpensOwnOutpoint s ev)
    (h : step voteHash s ev = some s') : VotedSpend s' := by
  by_cases hexp : ev.2 = .checkAndRemove
  · simp only [step, hexp, Option.some.injEq] at h
    rw [← h]
    exact checkAndRemove_votedSpend hs
  · exact chain_inv VotedSpend (fun _ _ ht hm => hm.votedSpend ht) (step_moves hexp hok h) hs

/-! ## Every lookup is defined -/

theorem hasVotedAny_defined (hs : VotedSpend s) (o mn : COutPoint) (p : Uint256 → Bool) :
    (hasVotedAny s o mn ((votedHashes s o).filter p)).isSome := by
  apply hasVotedAny_isSome
  intro txHash hm
  have hm' := (List.mem_filter.1 hm).1
  unfold votedHashes at hm'
  split at hm'
  · cases hm'
  · rename_i hashes hv
    exact hs.candidates o hashes txHash hv (Std.TreeSet.mem_toList.1 hm')

theorem processCandidateVote_defined (hs : VotedSpend s) (c : CTxLockCandidate) (v : CTxLockVote) :
    (processCandidateVote voteHash env s c v).isSome := by
  rw [processCandidateVote_eq, Option.isSome_map]
  exact hasVotedAny_defined hs _ _ _

variable (voteHash env) in
theorem voteOutpoint_defined (hs : VotedSpend s) (txHash : Uint256) (o : COutPoint) :
    (voteOutpoint voteHash env s txHash o).isSome := by
  obtain ⟨fVoted, hf⟩ := Option.isSome_iff_exists.1 (hasVotedAny_defined hs o env.activeMasternode fun _ => true)
  rw [List.filter_true] at hf
  simp only [voteOutpoint, hf, Option.bind_some]
  repeat' split
  all_goals rfl

theorem voteLoop_defined (hs : VotedSpend s) (txHash : Uint256) (os : List COutPoint) :
    (voteLoop voteHash env s txHash os).isSome := by
  induction os generalizing s with
  | nil => rfl
  | cons o os ih =>
    obtain ⟨r, hr⟩ := Option.isSome_iff_exists.1 (voteOutpoint_defined voteHash env hs txHash o)
    have hs' : VotedSpend r.2 := chain_inv VotedSpend (fun _ _ ht hm => hm.votedSpend ht) (voteOutpoint_moves hr) hs
    simp only [voteLoop, hr, Option.bind_some]
    split
    · exact ih hs'
    · rfl

theorem lockIfReady_defined (txHash : Uint256) : (lockIfReady voteHash env s txHash).isSome := by
  unfold lockIfReady
  split
  · rfl
  · rename_i hready
    cases hc : s.mapTxLockCandidates[txHash]? with
    | none => simp [isInstantSendReadyToLock, hc] at hready
    | some c => rfl

theorem replay_defined {reprocess : CInstantSend → CTxLockRequest → Option (Bool × CInstantSend)}
    {kvs : List (Uint256 × CTxLockVote)} (hw : Waiting voteHash s kvs) (hs : VotedSpend s)
    (hstep : ∀ t kv t', VotedSpend t → CallMeets OpensOwnOutpoint env t kv.2 →
      replayOrphanVote voteHash reprocess env t kv = some t' → VotedSpend t')
    (hok : Meets (replayOrphanVote voteHash reprocess env) (fun t kv => CallMeets OpensOwnOutpoint env t kv.2) s kvs) :
    (run (replayOrphanVote voteHash reprocess env) s kvs).isSome := by
  induction kvs generalizing s with
  | nil => rfl
  | cons kv kvs ih =>
    have hdef : (replayOrphanVote voteHash reprocess env s kv).isSome := by
      unfold replayOrphanVote
      rw [processTxLockVoteWith_seen hw.head, Option.isSome_map]
      split
      · rfl
      split
      · rfl
      · exact processCandidateVote_defined hs _ _
    obtain ⟨t, ht⟩ := Option.isSome_iff_exists.1 hdef
    rw [run_cons, ht, Option.bind_some]
    exact ih (hw.tail ht) (hstep s kv t hs hok.1 ht) (hok.2 t ht)

theorem processTxLockRequest_defined {T : CTxLockRequest} (hk : OrphansKeyed voteHash s) (hs : VotedSpend s)
    (hok : RequestMeets voteHash (processTxLockRequestN voteHash env 0) OpensOwnOutpoint env s T) :
    (processTxLockRequest voteHash env s T).isSome := by
  have inv {t t' : CInstantSend} (hc : Chain env OpensOwnOutpoint t t') (ht : VotedSpend t) : VotedSpend t' :=
    chain_inv VotedSpend (fun _ _ ht hm => hm.votedSpend ht) hc ht
  have heq : processTxLockRequest voteHash env s T =
      processTxLockRequestWith voteHash (processTxLockRequestN voteHash env 0) env s T := rfl
  simp only [heq, processTxLockRequestWith]
  split
  · rfl
  rename_i hlocked
  split
  · rfl
  rename_i hcreated
  have hs₁ : createTxLockCandidate env s T = (true, (createTxLockCandidate env s T).2) :=
    Prod.ext (by simpa using hcreated) rfl
  have hv₁ : VotedSpend (createTxLockCandidate env s T).2 := inv (createTxLockCandidate_moves T) hs
  have hvote : (vote voteHash env (createTxLockCandidate env s T).2 T.hash).isSome := by
    obtain ⟨c, hc⟩ := Option.isSome_iff_exists.1 (createTxLockCandidate_lookup hs₁).1
    simp only [vote, hc]
    split
    · rfl
    · exact voteLoop_defined hv₁ _ _
  obtain ⟨s₂, hs₂⟩ := Option.isSome_iff_exists.1 hvote
  have hk₂ : OrphansKeyed voteHash s₂ := (hk.of_eq (createTxLockCandidate_orphans _ _ T)).of_eq (vote_keeps hs₂).orphans
  have hreplay := replay_defined (.of_orphans hk₂) (inv (vote_moves hs₂) hv₁)
    (fun t kv t' ht hcall hst => inv (replayOrphanVote_moves hcall hst) ht)
    (hok (by simpa using hlocked) _ hs₁ s₂ hs₂)
  obtain ⟨s₃, hs₃⟩ := Option.isSome_iff_exists.1 hreplay
  simp only [hs₂, Option.bind_some, processOrphanTxLockVotes, hs₃, Option.isSome_map]
  exact lockIfReady_defined T.hash

theorem processTxLockVote_defined {v : CTxLockVote} (hk : OrphansKeyed voteHash s) (hs : VotedSpend s)
    (horphan : OrphanMeets voteHash OpensOwnOutpoint env s v) : (processTxLockVote voteHash env s v).isSome := by
  simp only [processTxLockVote, processTxLockVoteWith, processOrphanVote]
  split
  · rfl
  split
  · rename_i hnone
    split
    · rename_i hnew
      split
      · rename_i T hT
        rw [Option.isSome_map]
        exact processTxLockRequest_defined (hk.storeOrphan v) hs (horphan hnone (by simpa using hnew) T hT)
      · rfl
    · rfl
  · exact processCandidateVote_defined hs _ _

theorem step_defined {ev : Env × Event} (hk : OrphansKeyed voteHash s) (hs : VotedSpend s)
    (hok : EventMeets voteHash OpensOwnOutpoint s ev) : (step voteHash s ev).isSome := by
  obtain ⟨env, e⟩ := ev
  cases e with
  | txLockVote nVersion v =>
    simp only [step, processMessage]
    split
    · rfl
    rename_i hign
    split
    · rfl
    rename_i hseen
    have hk' : OrphansKeyed voteHash (storeSeen voteHash s (v.received env)) := hk.of_eq rfl
    obtain ⟨-, horphan⟩ := hok (Bool.eq_false_iff.2 hign) (Bool.eq_false_iff.2 hseen)
    rw [Option.isSome_map]
    exact processTxLockVote_defined hk' hs horphan
  | txLockRequest tx =>
    simp only [step, processLockRequestMessage]
    split
    · rfl
    rename_i hb
    rw [Option.isSome_map]
    exact processTxLockRequest_defined hk hs (hok (Bool.eq_false_iff.2 hb))
  | ownLockRequest tx =>
    simp only [step, Option.isSome_map]
    exact processTxLockRequest_defined hk hs hok
  | checkAndRemove => rfl
  | notification n => rfl

/-- A run whose votes open sets only on outpoints of their candidates is defined in every
    step, and the voted hashes of the state it reaches are candidates. -/
theorem voted_are_candidates {es : List (Env × Event)}
    (hok : Meets (step voteHash) (EventMeets voteHash OpensOwnOutpoint) init es) :
    ∃ s, run (step voteHash) init es = some s ∧ VotedAreCandidates s := by
  let I (s : CInstantSend) : Prop := OrphansKeyed voteHash s ∧ VotedSpend s
  have hinit : I init := ⟨fun k v hv => by simp [init] at hv, fun o hashes txHash hv => by simp [init] at hv⟩
  have hstep (s ev s') (hs : I s) (hm : EventMeets voteHash OpensOwnOutpoint s ev) (h : step voteHash s ev = some s') :
      I s' := ⟨step_keyed hs.1 h, step_votedSpend hs.2 hm h⟩
  have hdef : (run (step voteHash) init es).isSome :=
    run_isSome_of_meets I hstep (fun s ev hs hm => step_defined hs.1 hs.2 hm) hok hinit
  obtain ⟨s, hs⟩ := Option.isSome_iff_exists.1 hdef
  exact ⟨s, hs, (run_inv_of_meets I hstep hok hinit hs).2.candidates⟩

theorem voted_are_candidates_onePayment :
    ∃ s, run (step pairHash) init onePayment = some s ∧ VotedAreCandidates s :=
  voted_are_candidates (onePayment_meets fun _ _ _ hspends _ => hspends)

/-! ## A set that outlives its candidate -/

/-- Masternode 1 votes for transaction 1 on an outpoint it does not spend; transaction 1
    confirms and expires; transaction 2 spends that outpoint. -/
def foreignTrace : List (Env × Event) :=
  [(network, .txLockRequest (payment 1 ⟨5, 0⟩)), (network, .txLockVote 70000 (signedVote 1 1 ⟨6, 0⟩)),
   (network, .notification (.syncTransaction (payment 1 ⟨5, 0⟩) (some (some 100)))),
   (network, .notification (.updatedBlockTip (some 125))), (network, .checkAndRemove),
   (network, .txLockRequest (payment 2 ⟨6, 0⟩))]

/-- The set of the foreign outpoint still names transaction 1, which is no candidate, and
    the next vote for transaction 2 dereferences `end()`. -/
theorem foreign_outpoint_dangles : ∃ s, run (step pairHash) init foreignTrace = some s ∧ ¬ VotedAreCandidates s ∧
    step pairHash s (network, .txLockVote 70000 (signedVote 2 2 ⟨6, 0⟩)) = none := by
  obtain ⟨s, hs⟩ : ∃ s, run (step pairHash) init foreignTrace = some s := Option.isSome_iff_exists.1 (by decide)
  have htrace : (run (step pairHash) init foreignTrace).map (fun s =>
      ((s.mapVotedOutpoints[(⟨6, 0⟩ : COutPoint)]?).any (·.contains 1), (s.mapTxLockCandidates[(1 : Uint256)]?).isSome,
        (step pairHash s (network, .txLockVote 70000 (signedVote 2 2 ⟨6, 0⟩))).isNone)) = some (true, false, true) := by
    decide +kernel
  simp only [hs, Option.map_some, Option.some.injEq, Prod.mk.injEq] at htrace
  obtain ⟨hvoted, hcand, hnone⟩ := htrace
  refine ⟨s, hs, fun hall => ?_, by simpa using hnone⟩
  obtain ⟨hashes, hv, hm⟩ := (Option.any_eq_true _ _).1 hvoted
  rw [hall _ hashes 1 hv hm] at hcand
  cases hcand

end Zumy.InstantSend
