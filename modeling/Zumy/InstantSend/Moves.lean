/-
  Zumy.InstantSend.Moves — the elementary changes of the lock state, and that every
  operation but `CheckAndRemove` is a chain of them.

  `Move env ok` says once what can happen to the candidates, the voted outpoints and
  the locked outpoints; an invariant of these three is proved on the seven moves and
  carried over any operation by `Lib.chain_inv`. `ok` is a condition on the state, the
  candidate and the vote at a call of `ProcessTxLockVote`: the moves that count a
  received vote carry it, so a chain remembers the condition its calls met.

  - `EventMeets`: every `ProcessTxLockVote` call of an event, replayed votes included,
    starts in a state that satisfies `ok`.
  - `step_moves`: an event that is not an expiry and meets `ok` is a chain of moves.
-/
import Zumy.InstantSend.Candidates

namespace Zumy.InstantSend

open Lib Relation

abbrev VoteCond := CInstantSend → CTxLockCandidate → CTxLockVote → Prop

def NoConflict (s : CInstantSend) (v : CTxLockVote) (others : List Uint256) : Prop :=
  ∀ hash ∈ others, ∀ c, s.mapTxLockCandidates[hash]? = some c →
    c.hasMasternodeVoted v.outpoint v.outpointMasternode = false

inductive Move (env : Env) (ok : VoteCond) : CInstantSend → CInstantSend → Prop
  /-- Bookkeeping: seen and orphan votes, requests, rates and the tip. -/
  | book {s s' : CInstantSend} : s'.mapTxLockCandidates = s.mapTxLockCandidates →
      s'.mapVotedOutpoints = s.mapVotedOutpoints → s'.mapLockedOutpoints = s.mapLockedOutpoints → Move env ok s s'
  | confirm (s : CInstantSend) (txHash : Uint256) (nHeightNew : Int) :
      Move env ok s { s with mapTxLockCandidates :=
        s.mapTxLockCandidates.modify txHash fun c => { c with nConfirmedHeight := nHeightNew } }
  | create (s : CInstantSend) (T : CTxLockRequest) (fRequireUnspent : Bool) : T.isValid env fRequireUnspent = true →
      s.mapTxLockCandidates[T.hash]? = none → Move env ok s { s with mapTxLockCandidates := s.mapTxLockCandidates.insertIfNew T.hash (.ofRequest T) }
  /-- A received vote opens its outpoint's set and is then refused by its candidate. -/
  | refuse (s : CInstantSend) (v : CTxLockVote) (c : CTxLockCandidate) : v.isValid env = true →
      s.mapTxLockCandidates[v.txHash]? = some c → ok s c v → c.addVote v = none →
      Move env ok s { s with mapVotedOutpoints := openVoted s.mapVotedOutpoints v.outpoint v.txHash }
  /-- A received vote is counted; an outpoint that has a set keeps it as it is. -/
  | count (s : CInstantSend) (v : CTxLockVote) (c c' : CTxLockCandidate) : v.isValid env = true →
      s.mapTxLockCandidates[v.txHash]? = some c → ok s c v →
      NoConflict s v ((votedHashes s v.outpoint).filter (· != v.txHash)) → c.addVote v = some c' →
      Move env ok s { s with
        mapTxLockCandidates := s.mapTxLockCandidates.insert v.txHash c'
        mapVotedOutpoints := openVoted s.mapVotedOutpoints v.outpoint v.txHash }
  /-- The node counts its own vote and its hash joins the outpoint's set. -/
  | own (s : CInstantSend) (v : CTxLockVote) (c c' : CTxLockCandidate) : v.isValid env = true →
      s.mapTxLockCandidates[v.txHash]? = some c → NoConflict s v (votedHashes s v.outpoint) → c.addVote v = some c' →
      Move env ok s { s with
        mapTxLockCandidates := s.mapTxLockCandidates.insert v.txHash c'
        mapVotedOutpoints := addVotedOutpoint s.mapVotedOutpoints v.outpoint v.txHash }
  | lock (s : CInstantSend) (c : CTxLockCandidate) : Move env ok s (lockTransactionInputs s c)

abbrev Chain (env : Env) (ok : VoteCond) : CInstantSend → CInstantSend → Prop := ReflTransGen (Move env ok)

variable {voteHash : Uint256 → COutPoint → COutPoint → Uint256} {env : Env} {ok : VoteCond} {s s' : CInstantSend}

theorem Chain.book (hc : s'.mapTxLockCandidates = s.mapTxLockCandidates)
    (hv : s'.mapVotedOutpoints = s.mapVotedOutpoints) (hl : s'.mapLockedOutpoints = s.mapLockedOutpoints) :
    Chain env ok s s' := .single (.book hc hv hl)

/-! ## Notifications and locks -/

theorem notify_moves (n : Notification) : Chain env ok s (notify voteHash env.now s n) := by
  cases n with
  | updatedBlockTip pindex => exact .book rfl rfl rfl
  | syncTransaction tx pblock =>
    simp only [notify, syncTransaction]
    split
    · exact .refl
    split
    · exact .refl
    · exact (ReflTransGen.single (Move.confirm s tx.hash _)).tail (.book rfl rfl rfl)

theorem notifications_moves (ns : List Notification) : Chain env ok s (ns.foldl (notify voteHash env.now) s) := by
  induction ns generalizing s with
  | nil => exact .refl
  | cons n ns ih => exact (notify_moves n).trans ih

variable (voteHash env ok s) in
theorem resolveConflicts_moves (c : CTxLockCandidate) : Chain env ok s (resolveConflicts voteHash env s c).2 := by
  unfold resolveConflicts
  split
  · exact .refl
  split
  · exact .refl
  · exact notifications_moves _

/-! ## Votes -/

theorem CTxLockVote.isValid_iff {v : CTxLockVote} :
    v.isValid env = true ↔ v.checkSignature env = true ∧ ∃ nPrevoutHeight,
      env.prevoutHeight v.outpoint = some nPrevoutHeight ∧
      env.getMasternodeRank v.outpointMasternode (nPrevoutHeight + 4) ≠ -1 ∧
      env.getMasternodeRank v.outpointMasternode (nPrevoutHeight + 4) ≤ signaturesTotal := by
  unfold CTxLockVote.isValid
  have hinfo : v.checkSignature env = true → (env.masternodeInfo v.outpointMasternode).isNone = false := by
    unfold CTxLockVote.checkSignature
    split <;> simp_all
  split
  · rename_i h
    simp only [Bool.false_eq_true, false_iff]
    intro hv
    rw [hinfo hv.1] at h
    cases h
  · split <;> rename_i hh
    · simp [hh]
    · simp only [hh, Option.some.injEq, exists_eq_left', ne_eq]
      grind

/-- A call of `ProcessTxLockVote` that reaches a candidate meets the condition. -/
def CallMeets (ok : VoteCond) (env : Env) (s : CInstantSend) (v : CTxLockVote) : Prop :=
  v.isValid env = true → ∀ c, s.mapTxLockCandidates[v.txHash]? = some c → ok s c v

/-- The two branches of the source on `mapVotedOutpoints` in one: an absent entry has
    no hash to conflict with. -/
theorem processCandidateVote_eq (c : CTxLockCandidate) (v : CTxLockVote) :
    processCandidateVote voteHash env s c v =
      (hasVotedAny s v.outpoint v.outpointMasternode ((votedHashes s v.outpoint).filter (· != v.txHash))).map
        fun fConflict => if fConflict then (false, s) else
          addVoteToCandidate voteHash env
            { s with mapVotedOutpoints := openVoted s.mapVotedOutpoints v.outpoint v.txHash } c v := by
  unfold processCandidateVote votedHashes openVoted
  split <;> rename_i h <;> simp [h, hasVotedAny]

theorem processCandidateVote_moves {c : CTxLockCandidate} {v : CTxLockVote} {r : Bool × CInstantSend}
    (hv : v.isValid env = true) (hc : s.mapTxLockCandidates[v.txHash]? = some c) (hok : ok s c v)
    (h : processCandidateVote voteHash env s c v = some r) : Chain env ok s r.2 := by
  rw [processCandidateVote_eq] at h
  obtain ⟨fConflict, hconf, rfl⟩ := Option.map_eq_some_iff.1 h
  cases fConflict with
  | true => exact .refl
  | false =>
    simp only [Bool.false_eq_true, if_false, addVoteToCandidate]
    split
    · rename_i hnone; exact .single (.refuse s v c hv hc hok hnone)
    · rename_i c' hadd
      have hcount := ReflTransGen.single (Move.count s v c c' hv hc hok (hasVotedAny_eq_false hconf) hadd)
      split
      · exact hcount
      have hres := hcount.trans (resolveConflicts_moves voteHash env ok _ c')
      split
      · exact hres.tail (.lock _ _)
      · exact hres

theorem CTxLockVote.sign_eq_some {v v' : CTxLockVote} (h : v.sign env = some v') :
    ∃ sig, v' = { v with vchMasternodeSignature := sig } := by
  unfold CTxLockVote.sign at h
  split at h
  · cases h
  · split at h
    · cases h
    · exact ⟨_, (Option.some.inj h).symm⟩

theorem own_isValid {v : CTxLockVote} (hu : env.getUTXOHeight v.outpoint ≠ -1)
    (hr : env.getMasternodeRank v.outpointMasternode (env.getUTXOHeight v.outpoint + 4) ≠ -1)
    (ht : ¬ env.getMasternodeRank v.outpointMasternode (env.getUTXOHeight v.outpoint + 4) > signaturesTotal)
    (hs : v.checkSignature env = true) : v.isValid env = true :=
  CTxLockVote.isValid_iff.2 ⟨hs, _, by simp [Env.prevoutHeight, hu], hr, not_lt.1 ht⟩

/-- One turn of `Vote`'s loop does nothing, or makes a vote of the active masternode
    that its candidate refuses or counts. -/
theorem voteOutpoint_cases {txHash : Uint256} {o : COutPoint} {r : Bool × CInstantSend}
    (h : voteOutpoint voteHash env s txHash o = some r) :
    r.2 = s ∨ ∃ v : CTxLockVote, v.isValid env = true ∧ v.txHash = txHash ∧
      (r.2 = storeSeen voteHash s v ∨ ∃ c c', s.mapTxLockCandidates[v.txHash]? = some c ∧
        NoConflict s v (votedHashes s v.outpoint) ∧ c.addVote v = some c' ∧
        r.2 = { storeSeen voteHash s v with
          mapTxLockCandidates := s.mapTxLockCandidates.insert v.txHash c'
          mapVotedOutpoints := addVotedOutpoint s.mapVotedOutpoints v.outpoint v.txHash }) := by
  simp only [voteOutpoint] at h
  split at h
  · cases h; exact .inl rfl
  rename_i hu
  split at h
  · cases h; exact .inl rfl
  rename_i hr
  split at h
  · cases h; exact .inl rfl
  rename_i ht
  obtain ⟨fVoted, hvoted, h⟩ := Option.bind_eq_some_iff.1 h
  split at h
  · cases h; exact .inl rfl
  rename_i hf
  split at h
  · cases h; exact .inl rfl
  rename_i v hsign
  obtain ⟨sig, rfl⟩ := CTxLockVote.sign_eq_some hsign
  split at h
  · cases h; exact .inl rfl
  rename_i hsig
  have hval := own_isValid hu hr ht (by simpa using hsig)
  refine .inr ⟨_, hval, rfl, ?_⟩
  split at h
  · cases h; exact .inl rfl
  · rename_i c' hadd
    cases h
    obtain ⟨c, hc, hadd⟩ := Option.bind_eq_some_iff.1 hadd
    exact .inr ⟨c, c', hc, hasVotedAny_eq_false (Bool.eq_false_iff.2 hf ▸ hvoted), hadd, rfl⟩

theorem voteOutpoint_moves {txHash : Uint256} {o : COutPoint} {r : Bool × CInstantSend}
    (h : voteOutpoint voteHash env s txHash o = some r) : Chain env ok s r.2 := by
  rcases voteOutpoint_cases h with hr | ⟨v, hv, -, hr | ⟨c, c', hc, hno, hadd, hr⟩⟩ <;> rw [hr]
  · exact .book rfl rfl rfl
  · exact (ReflTransGen.single (Move.own s v c c' hv hc hno hadd)).tail (.book rfl rfl rfl)

theorem voteLoop_moves {txHash : Uint256} {os : List COutPoint} (h : voteLoop voteHash env s txHash os = some s') :
    Chain env ok s s' := by
  induction os generalizing s with
  | nil => cases h; exact .refl
  | cons o os ih =>
    obtain ⟨r, hr, h⟩ := Option.bind_eq_some_iff.1 h
    split at h
    · exact (voteOutpoint_moves hr).trans (ih h)
    · cases h; exact voteOutpoint_moves hr

theorem vote_moves {txHash : Uint256} (h : vote voteHash env s txHash = some s') : Chain env ok s s' := by
  unfold vote at h
  split at h
  · cases h; exact .refl
  split at h
  · cases h
  · exact voteLoop_moves h

theorem trackOrphanVote_moves (mn : COutPoint) : Chain env ok s (trackOrphanVote env s mn).2 := by
  simp only [trackOrphanVote]
  split
  · exact .refl
  · exact .book rfl rfl rfl

theorem createTxLockCandidate_moves (T : CTxLockRequest) : Chain env ok s (createTxLockCandidate env s T).2 := by
  simp only [createTxLockCandidate]
  split
  · exact .refl
  rename_i hvalid
  split
  · rename_i hnone; exact .single (.create s T _ (by simpa using hvalid) hnone)
  · exact .refl

theorem lockIfReady_moves {txHash : Uint256} (h : lockIfReady voteHash env s txHash = some s') : Chain env ok s s' := by
  unfold lockIfReady at h
  split at h
  · cases h; exact .refl
  · obtain ⟨c, -, rfl⟩ := Option.map_eq_some_iff.1 h
    have hres := resolveConflicts_moves voteHash env ok s c
    simp only
    split
    · exact hres.tail (.lock _ _)
    · exact hres

/-! ## Calls of `ProcessTxLockVote` -/

section
variable (voteHash)
variable (reprocess : CInstantSend → CTxLockRequest → Option (Bool × CInstantSend))

def RequestMeets (ok : VoteCond) (env : Env) (s : CInstantSend) (T : CTxLockRequest) : Prop :=
  s.hasLockedInput T = false → ∀ s₁, createTxLockCandidate env s T = (true, s₁) →
    ∀ s₂, vote voteHash env s₁ T.hash = some s₂ →
      Meets (replayOrphanVote voteHash reprocess env) (fun t kv => CallMeets ok env t kv.2) s₂ s₂.mapTxLockVotesOrphan.toList

def OrphanMeets (ok : VoteCond) (env : Env) (s : CInstantSend) (v : CTxLockVote) : Prop :=
  s.mapTxLockCandidates[v.txHash]? = none → s.mapTxLockVotesOrphan.contains (v.getHash voteHash) = false →
    ∀ T, ((storeOrphan voteHash s v).lockRequestSeen v.txHash).filter
        (isEnoughOrphanVotesForTx (storeOrphan voteHash s v)) = some T →
      RequestMeets voteHash (processTxLockRequestN voteHash env 0) ok env (storeOrphan voteHash s v) T

def EventMeets (ok : VoteCond) (s : CInstantSend) (ev : Env × Event) : Prop :=
  match ev.2 with
  | .txLockVote nVersion v =>
    let v' := v.received ev.1
    ev.1.ignoresVotes nVersion = false → s.mapTxLockVotes.contains (v.getHash voteHash) = false →
      CallMeets ok ev.1 (storeSeen voteHash s v') v' ∧ OrphanMeets voteHash ok ev.1 (storeSeen voteHash s v') v'
  | .txLockRequest tx =>
    ev.1.fBlocksOnly = false → RequestMeets voteHash (processTxLockRequestN voteHash ev.1 0) ok ev.1 s ⟨tx, ev.1.now⟩
  | .ownLockRequest tx => RequestMeets voteHash (processTxLockRequestN voteHash ev.1 0) ok ev.1 s ⟨tx, ev.1.now⟩
  | .checkAndRemove => True
  | .notification _ => True

end

theorem eventMeets_of_forall (hok : ∀ s c v, ok s c v) (s : CInstantSend) (ev : Env × Event) :
    EventMeets voteHash ok s ev := by
  have hrequest (reprocess : CInstantSend → CTxLockRequest → Option (Bool × CInstantSend)) (env : Env)
      (t : CInstantSend) (T : CTxLockRequest) : RequestMeets voteHash reprocess ok env t T :=
    fun _ _ _ _ _ => meets_of_forall fun _ _ _ _ _ => hok _ _ _
  obtain ⟨env, e⟩ := ev
  cases e with
  | txLockVote => exact fun _ _ => ⟨fun _ _ _ => hok _ _ _, fun _ _ _ _ => hrequest _ _ _ _⟩
  | txLockRequest => exact fun _ => hrequest _ _ _ _
  | ownLockRequest => exact hrequest _ _ _ _
  | checkAndRemove => trivial
  | notification => trivial

variable {reprocess : CInstantSend → CTxLockRequest → Option (Bool × CInstantSend)}

theorem processOrphanVote_moves {v : CTxLockVote} {r : Bool × CInstantSend}
    (hre : s.mapTxLockVotesOrphan.contains (v.getHash voteHash) = false → ∀ T r,
      ((storeOrphan voteHash s v).lockRequestSeen v.txHash).filter
        (isEnoughOrphanVotesForTx (storeOrphan voteHash s v)) = some T →
      reprocess (storeOrphan voteHash s v) T = some r → Chain env ok (storeOrphan voteHash s v) r.2)
    (h : processOrphanVote voteHash reprocess env s v = some r) : Chain env ok s r.2 := by
  have hstore : Chain env ok s (storeOrphan voteHash s v) := .book rfl rfl rfl
  simp only [processOrphanVote] at h
  split at h
  · rename_i hnew
    split at h
    · rename_i T hT
      obtain ⟨r', hr', rfl⟩ := Option.map_eq_some_iff.1 h
      exact hstore.trans (hre (by simpa using hnew) T r' hT hr')
    · cases h; exact hstore.trans (trackOrphanVote_moves _)
  · cases h; exact trackOrphanVote_moves _

theorem replayOrphanVote_moves {kv : Uint256 × CTxLockVote} (hok : CallMeets ok env s kv.2)
    (h : replayOrphanVote voteHash (processTxLockRequestN voteHash env 0) env s kv = some s') : Chain env ok s s' := by
  obtain ⟨r, hr, rfl⟩ := Option.map_eq_some_iff.1 h
  have hvote : Chain env ok s r.2 := by
    unfold processTxLockVoteWith at hr
    split at hr
    · cases hr; exact .refl
    rename_i hv
    split at hr
    · exact processOrphanVote_moves (fun _ T r _ hT => by cases hT) hr
    · rename_i c hc
      exact processCandidateVote_moves (by simpa using hv) hc (hok (by simpa using hv) c hc) hr
  split
  · exact hvote.tail (.book rfl rfl rfl)
  · exact hvote

theorem processTxLockRequest_moves {T : CTxLockRequest} {r : Bool × CInstantSend}
    (hok : RequestMeets voteHash (processTxLockRequestN voteHash env 0) ok env s T)
    (h : processTxLockRequest voteHash env s T = some r) : Chain env ok s r.2 := by
  simp only [processTxLockRequest, processTxLockRequestN, processTxLockRequestWith] at h
  split at h
  · cases h; exact .refl
  rename_i hlocked
  have hcreate : Chain env ok s (createTxLockCandidate env s T).2 := createTxLockCandidate_moves T
  split at h
  · cases h; exact hcreate
  rename_i hcreated
  obtain ⟨s₂, hs₂, h⟩ := Option.bind_eq_some_iff.1 h
  obtain ⟨s₃, hs₃, h⟩ := Option.bind_eq_some_iff.1 h
  obtain ⟨s₄, hs₄, rfl⟩ := Option.map_eq_some_iff.1 h
  have hmeets := hok (by simpa using hlocked) _ (Prod.ext (by simpa using hcreated) rfl) s₂ hs₂
  have hreplay := run_rel (fun t kv t' hcall ht => replayOrphanVote_moves hcall ht) hmeets hs₃
  exact ((hcreate.trans (vote_moves hs₂)).trans hreplay).trans (lockIfReady_moves hs₄)

theorem processTxLockVote_moves {v : CTxLockVote} {r : Bool × CInstantSend} (hcall : CallMeets ok env s v)
    (horphan : OrphanMeets voteHash ok env s v) (h : processTxLockVote voteHash env s v = some r) :
    Chain env ok s r.2 := by
  unfold processTxLockVote processTxLockVoteWith at h
  split at h
  · cases h; exact .refl
  rename_i hv
  split at h
  · rename_i hnone
    exact processOrphanVote_moves (fun hnew T r hT hr => processTxLockRequest_moves (horphan hnone hnew T hT) hr) h
  · rename_i c hc
    exact processCandidateVote_moves (by simpa using hv) hc (hcall (by simpa using hv) c hc) h

theorem step_moves {ev : Env × Event} (hexp : ev.2 ≠ .checkAndRemove) (hok : EventMeets voteHash ok s ev)
    (h : step voteHash s ev = some s') : Chain ev.1 ok s s' := by
  obtain ⟨env, e⟩ := ev
  cases e with
  | txLockVote nVersion v =>
    simp only [step, processMessage] at h
    split at h
    · cases h; exact .refl
    rename_i hign
    split at h
    · cases h; exact .refl
    rename_i hseen
    obtain ⟨r, hr, rfl⟩ := Option.map_eq_some_iff.1 h
    obtain ⟨hcall, horphan⟩ := hok (Bool.eq_false_iff.2 hign) (Bool.eq_false_iff.2 hseen)
    have hstore : Chain env ok s (storeSeen voteHash s (v.received env)) := .book rfl rfl rfl
    exact hstore.trans (processTxLockVote_moves hcall horphan hr)
  | txLockRequest tx =>
    simp only [step, processLockRequestMessage] at h
    split at h
    · cases h; exact .refl
    rename_i hb
    obtain ⟨r, hr, rfl⟩ := Option.map_eq_some_iff.1 h
    have hreq := processTxLockRequest_moves (hok (by simpa using hb)) hr
    split
    · exact hreq
    split
    · exact hreq
    split
    · exact hreq.tail (.book rfl rfl rfl)
    · exact hreq
    · exact hreq.tail (.book rfl rfl rfl)
  | ownLockRequest tx =>
    obtain ⟨r, hr, rfl⟩ := Option.map_eq_some_iff.1 h
    exact processTxLockRequest_moves hok hr
  | checkAndRemove => exact absurd rfl hexp
  | notification n => cases h; exact notify_moves n

end Zumy.InstantSend
