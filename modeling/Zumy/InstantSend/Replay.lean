/-
  Zumy.InstantSend.Replay — the replay of the orphan votes.

  A replayed vote is already in `mapTxLockVotesOrphan`, so processing it stores nothing
  and processes no request: the replay is the same for every depth of the mutual
  recursion (`processTxLockRequestN_depth`).

  `Keeps s s'`: the orphan votes, the rates and the set of candidates are the same and
  no counted vote is gone. Everything but the orphan branch keeps (`replayOrphanVote_cases`):
  one turn of the replay does nothing, or counts a vote, or erases a vote that is for no
  candidate.
-/
import Zumy.InstantSend.Expiry

namespace Zumy.InstantSend

open Lib

def Counted (s : CInstantSend) (v : CTxLockVote) : Prop :=
  ∃ c, s.mapTxLockCandidates[v.txHash]? = some c ∧ c.hasMasternodeVoted v.outpoint v.outpointMasternode = true

structure Keeps (s s' : CInstantSend) : Prop where
  orphans : s'.mapTxLockVotesOrphan = s.mapTxLockVotesOrphan
  rates : s'.mapMasternodeOrphanVotes = s.mapMasternodeOrphanVotes
  candidates : ∀ txHash : Uint256, (s'.mapTxLockCandidates[txHash]?).isSome = (s.mapTxLockCandidates[txHash]?).isSome
  counted : ∀ v, Counted s v → Counted s' v

theorem Keeps.refl (s : CInstantSend) : Keeps s s := ⟨rfl, rfl, fun _ => rfl, fun _ h => h⟩

theorem Keeps.trans {s t u : CInstantSend} (h₁ : Keeps s t) (h₂ : Keeps t u) : Keeps s u :=
  ⟨h₂.orphans.trans h₁.orphans, h₂.rates.trans h₁.rates, fun txHash => (h₂.candidates txHash).trans (h₁.candidates txHash),
    fun v h => h₂.counted v (h₁.counted v h)⟩

variable {voteHash : Uint256 → COutPoint → COutPoint → Uint256} {env : Env} {s s' : CInstantSend}

theorem Keeps.of_eq (hc : s'.mapTxLockCandidates = s.mapTxLockCandidates)
    (ho : s'.mapTxLockVotesOrphan = s.mapTxLockVotesOrphan) (hr : s'.mapMasternodeOrphanVotes = s.mapMasternodeOrphanVotes) :
    Keeps s s' := ⟨ho, hr, fun _ => by rw [hc], fun v h => by unfold Counted; rw [hc]; exact h⟩

theorem Keeps.of_addVote {v : CTxLockVote} {c c' : CTxLockCandidate} (hc : s.mapTxLockCandidates[v.txHash]? = some c)
    (hadd : c.addVote v = some c') (hcands : s'.mapTxLockCandidates = s.mapTxLockCandidates.insert v.txHash c')
    (ho : s'.mapTxLockVotesOrphan = s.mapTxLockVotesOrphan) (hr : s'.mapMasternodeOrphanVotes = s.mapMasternodeOrphanVotes) :
    Keeps s s' := by
  refine ⟨ho, hr, fun txHash => ?_, fun w hw => ?_⟩
  · rw [hcands, lookup_insert]
    split
    · rename_i h; rw [h, hc]; rfl
    · rfl
  · obtain ⟨d, hd, hvoted⟩ := hw
    simp only [Counted, hcands, lookup_insert]
    by_cases h : w.txHash = v.txHash
    · rw [h, hc] at hd
      cases hd
      exact ⟨c', by rw [if_pos h], (CTxLockCandidate.hasMasternodeVoted_addVote hadd).2 (.inl hvoted)⟩
    · exact ⟨d, by rw [if_neg h]; exact hd, hvoted⟩

theorem notify_keeps (now : Int) (n : Notification) : Keeps s (notify voteHash now s n) := by
  cases n with
  | updatedBlockTip pindex => exact .of_eq rfl rfl rfl
  | syncTransaction tx pblock =>
    simp only [notify, syncTransaction]
    split
    · exact .refl s
    split
    · exact .refl s
    refine ⟨rfl, rfl, fun txHash => ?_, fun v hv => ?_⟩
    · simp only [lookup_modify]
      split
      · rename_i h; rw [h, Option.isSome_map]
      · rfl
    · obtain ⟨c, hc, hvoted⟩ := hv
      simp only [Counted, lookup_modify]
      by_cases h : v.txHash = tx.hash
      · rw [h] at hc
        exact ⟨{ c with nConfirmedHeight := (pblock.bind id).getD (-1) }, by rw [if_pos h, hc, Option.map_some], hvoted⟩
      · exact ⟨c, by rw [if_neg h]; exact hc, hvoted⟩

theorem notifications_keeps (now : Int) (ns : List Notification) : Keeps s (ns.foldl (notify voteHash now) s) := by
  induction ns generalizing s with
  | nil => exact .refl s
  | cons n ns ih => exact (notify_keeps now n).trans ih

variable (voteHash env s) in
theorem resolveConflicts_keeps (c : CTxLockCandidate) : Keeps s (resolveConflicts voteHash env s c).2 := by
  unfold resolveConflicts
  split
  · exact .refl s
  split
  · exact .refl s
  exact notifications_keeps env.now _

theorem lockTransactionInputs_keeps (c : CTxLockCandidate) : Keeps s (lockTransactionInputs s c) := by
  unfold lockTransactionInputs
  split
  · exact .refl s
  · exact .of_eq rfl rfl rfl

variable (voteHash env) in
theorem addVoteToCandidate_keeps {v : CTxLockVote} {c : CTxLockCandidate} (hc : s.mapTxLockCandidates[v.txHash]? = some c) :
    Keeps s (addVoteToCandidate voteHash env s c v).2 ∧
      ((addVoteToCandidate voteHash env s c v).1 = true → Counted (addVoteToCandidate voteHash env s c v).2 v) := by
  unfold addVoteToCandidate
  split
  · exact ⟨.refl s, fun h => by cases h⟩
  rename_i c' hadd
  have hs' : Keeps s { s with mapTxLockCandidates := s.mapTxLockCandidates.insert v.txHash c' } :=
    .of_addVote hc hadd rfl rfl rfl
  have hcount : Counted { s with mapTxLockCandidates := s.mapTxLockCandidates.insert v.txHash c' } v :=
    ⟨c', by simp only [lookup_insert, if_true], (CTxLockCandidate.hasMasternodeVoted_addVote hadd).2 (.inr ⟨rfl, rfl⟩)⟩
  split
  · exact ⟨hs', fun _ => hcount⟩
  have hres := resolveConflicts_keeps voteHash env { s with mapTxLockCandidates := s.mapTxLockCandidates.insert v.txHash c' } c'
  simp only
  split
  · have hlock := hres.trans (lockTransactionInputs_keeps c')
    exact ⟨hs'.trans hlock, fun _ => hlock.counted v hcount⟩
  · exact ⟨hs'.trans hres, fun _ => hres.counted v hcount⟩

theorem processCandidateVote_keeps {v : CTxLockVote} {c : CTxLockCandidate} {r : Bool × CInstantSend}
    (hc : s.mapTxLockCandidates[v.txHash]? = some c) (h : processCandidateVote voteHash env s c v = some r) :
    Keeps s r.2 ∧ (r.1 = true → Counted r.2 v) := by
  rw [processCandidateVote_eq] at h
  obtain ⟨fConflict, -, rfl⟩ := Option.map_eq_some_iff.1 h
  cases fConflict with
  | true => exact ⟨.refl s, fun h => by cases h⟩
  | false =>
    have hopen : Keeps s { s with mapVotedOutpoints := openVoted s.mapVotedOutpoints v.outpoint v.txHash } := .of_eq rfl rfl rfl
    obtain ⟨hkeeps, hcount⟩ := addVoteToCandidate_keeps voteHash env
      (s := { s with mapVotedOutpoints := openVoted s.mapVotedOutpoints v.outpoint v.txHash }) hc
    exact ⟨hopen.trans hkeeps, hcount⟩

/-! ## One replayed vote -/

theorem isSpammingOrphanVotes_congr (h : s'.mapMasternodeOrphanVotes = s.mapMasternodeOrphanVotes) (mn : COutPoint) :
    isSpammingOrphanVotes env s' mn = isSpammingOrphanVotes env s mn := by
  unfold isSpammingOrphanVotes CInstantSend.getAverageMasternodeOrphanVoteTime
  rw [h]

def eraseOrphan (s : CInstantSend) (nVoteHash : Uint256) : CInstantSend :=
  { s with mapTxLockVotesOrphan := s.mapTxLockVotesOrphan.erase nVoteHash }

theorem processTxLockVoteWith_seen {reprocess : CInstantSend → CTxLockRequest → Option (Bool × CInstantSend)}
    {v : CTxLockVote} (hin : s.mapTxLockVotesOrphan.contains (v.getHash voteHash) = true) :
    processTxLockVoteWith voteHash reprocess env s v =
      if !v.isValid env then some (false, s)
      else match s.mapTxLockCandidates[v.txHash]? with
        | none => some (trackOrphanVote env s v.outpointMasternode)
        | some c => processCandidateVote voteHash env s c v := by
  unfold processTxLockVoteWith processOrphanVote
  cases s.mapTxLockCandidates[v.txHash]? with
  | none => simp only [hin, Bool.not_true, Bool.false_eq_true, if_false]
  | some c => rfl

section
variable {reprocess : CInstantSend → CTxLockRequest → Option (Bool × CInstantSend)} {kv : Uint256 × CTxLockVote}

theorem replayOrphanVote_cases (hin : s.mapTxLockVotesOrphan.contains (kv.2.getHash voteHash) = true)
    (h : replayOrphanVote voteHash reprocess env s kv = some s') :
    (s' = s ∧ (kv.2.isValid env = true → s.mapTxLockCandidates[kv.2.txHash]? = none ∧
      isSpammingOrphanVotes env s kv.2.outpointMasternode = true)) ∨
    (s.mapTxLockCandidates[kv.2.txHash]? = none ∧ kv.2.isValid env = true ∧
      isSpammingOrphanVotes env s kv.2.outpointMasternode = false ∧
      s' = eraseOrphan { s with mapMasternodeOrphanVotes :=
        s.mapMasternodeOrphanVotes.insert kv.2.outpointMasternode (env.now + 60 * 10) } kv.1) ∨
    ((s.mapTxLockCandidates[kv.2.txHash]?).isSome ∧
      ∃ t, Keeps s t ∧ (s' = t ∨ (Counted t kv.2 ∧ s' = eraseOrphan t kv.1))) := by
  unfold replayOrphanVote at h
  rw [processTxLockVoteWith_seen hin] at h
  obtain ⟨r, hr, rfl⟩ := Option.map_eq_some_iff.1 h
  split at hr
  · rename_i hv
    cases hr
    exact .inl ⟨rfl, fun hv' => by simp [hv'] at hv⟩
  rename_i hv
  split at hr
  · rename_i hnone
    simp only [trackOrphanVote] at hr
    split at hr <;> rename_i hspam <;> cases hr
    · exact .inl ⟨rfl, fun _ => ⟨hnone, hspam⟩⟩
    · exact .inr (.inl ⟨hnone, by simpa using hv, by simpa using hspam, rfl⟩)
  · rename_i c hc
    obtain ⟨hkeeps, hcount⟩ := processCandidateVote_keeps hc hr
    refine .inr (.inr ⟨by rw [hc]; rfl, r.2, hkeeps, ?_⟩)
    split
    · rename_i hr'; exact .inr ⟨hcount hr', rfl⟩
    · exact .inl rfl

end

/-! ## The replay -/

def Waiting (voteHash : Uint256 → COutPoint → COutPoint → Uint256) (s : CInstantSend)
    (kvs : List (Uint256 × CTxLockVote)) : Prop :=
  (kvs.map (·.1)).Nodup ∧ ∀ kv ∈ kvs, kv.1 = kv.2.getHash voteHash ∧ s.mapTxLockVotesOrphan[kv.1]? = some kv.2

def OrphansKeyed (voteHash : Uint256 → COutPoint → COutPoint → Uint256) (s : CInstantSend) : Prop :=
  ∀ (h : Uint256) (v : CTxLockVote), s.mapTxLockVotesOrphan[h]? = some v → h = v.getHash voteHash

theorem Waiting.of_orphans (hs : OrphansKeyed voteHash s) : Waiting voteHash s s.mapTxLockVotesOrphan.toList := by
  refine ⟨?_, fun kv hkv => ?_⟩
  · rw [Std.TreeMap.map_fst_toList_eq_keys]; exact Std.TreeMap.nodup_keys
  · have hkv' := Std.TreeMap.mem_toList_iff_getElem?_eq_some.1 hkv
    exact ⟨hs kv.1 kv.2 hkv', hkv'⟩

/-- A turn of the replay only shrinks the orphan votes, by its own vote at most. -/
theorem replayOrphanVote_orphans {reprocess : CInstantSend → CTxLockRequest → Option (Bool × CInstantSend)}
    {kv : Uint256 × CTxLockVote} (hin : s.mapTxLockVotesOrphan.contains (kv.2.getHash voteHash) = true)
    (h : replayOrphanVote voteHash reprocess env s kv = some s') :
    s'.mapTxLockVotesOrphan = s.mapTxLockVotesOrphan ∨ s'.mapTxLockVotesOrphan = s.mapTxLockVotesOrphan.erase kv.1 := by
  rcases replayOrphanVote_cases hin h with ⟨rfl, -⟩ | ⟨-, -, -, rfl⟩ | ⟨-, t, hk, rfl | ⟨-, rfl⟩⟩
  · exact .inl rfl
  · exact .inr rfl
  · exact .inl hk.orphans
  · exact .inr (by rw [eraseOrphan, hk.orphans])

theorem Waiting.head {kv : Uint256 × CTxLockVote} {kvs : List (Uint256 × CTxLockVote)}
    (hw : Waiting voteHash s (kv :: kvs)) : s.mapTxLockVotesOrphan.contains (kv.2.getHash voteHash) = true := by
  obtain ⟨hkey, hin⟩ := hw.2 kv (by simp)
  rw [← hkey]
  exact contains_iff.2 ⟨_, hin⟩

theorem Waiting.tail {reprocess : CInstantSend → CTxLockRequest → Option (Bool × CInstantSend)}
    {kv : Uint256 × CTxLockVote} {kvs : List (Uint256 × CTxLockVote)} (hw : Waiting voteHash s (kv :: kvs))
    (h : replayOrphanVote voteHash reprocess env s kv = some s') : Waiting voteHash s' kvs := by
  obtain ⟨hnot, hnodup⟩ := List.nodup_cons.1 hw.1
  refine ⟨hnodup, fun kv' hkv' => ?_⟩
  obtain ⟨hkey, hin⟩ := hw.2 kv' (by simp [hkv'])
  refine ⟨hkey, ?_⟩
  have hmem : kv'.1 ∈ kvs.map (·.1) := List.mem_map_of_mem hkv'
  have hne : kv'.1 ≠ kv.1 := by
    intro he
    rw [he] at hmem
    exact hnot hmem
  rcases replayOrphanVote_orphans hw.head h with ho | ho
  · rw [ho]; exact hin
  · rw [ho, lookup_erase, if_neg hne]; exact hin

theorem replay_reprocess {r₁ r₂ : CInstantSend → CTxLockRequest → Option (Bool × CInstantSend)}
    {kvs : List (Uint256 × CTxLockVote)} (hw : Waiting voteHash s kvs) :
    run (replayOrphanVote voteHash r₁ env) s kvs = run (replayOrphanVote voteHash r₂ env) s kvs := by
  induction kvs generalizing s with
  | nil => rfl
  | cons kv kvs ih =>
    have hstep : replayOrphanVote voteHash r₁ env s kv = replayOrphanVote voteHash r₂ env s kv := by
      unfold replayOrphanVote
      rw [processTxLockVoteWith_seen hw.head, processTxLockVoteWith_seen hw.head]
    rw [run_cons, run_cons, hstep]
    cases hs : replayOrphanVote voteHash r₂ env s kv with
    | none => rfl
    | some t => exact ih (hw.tail hs)

/-! ## The rest of a request -/

theorem voteOutpoint_keeps {txHash : Uint256} {o : COutPoint} {r : Bool × CInstantSend}
    (h : voteOutpoint voteHash env s txHash o = some r) : Keeps s r.2 := by
  rcases voteOutpoint_cases h with hr | ⟨v, -, -, hr | ⟨c, c', hc, -, hadd, hr⟩⟩ <;> rw [hr]
  · exact .refl s
  · exact .of_eq rfl rfl rfl
  · exact .of_addVote hc hadd rfl rfl rfl

theorem voteLoop_keeps {txHash : Uint256} {os : List COutPoint} (h : voteLoop voteHash env s txHash os = some s') :
    Keeps s s' := by
  induction os generalizing s with
  | nil => cases h; exact .refl _
  | cons o os ih =>
    obtain ⟨r, hr, h⟩ := Option.bind_eq_some_iff.1 h
    split at h
    · exact (voteOutpoint_keeps hr).trans (ih h)
    · cases h; exact voteOutpoint_keeps hr

theorem vote_keeps {txHash : Uint256} (h : vote voteHash env s txHash = some s') : Keeps s s' := by
  unfold vote at h
  split at h
  · cases h; exact .refl _
  split at h
  · cases h
  · exact voteLoop_keeps h

theorem lockIfReady_keeps {txHash : Uint256} (h : lockIfReady voteHash env s txHash = some s') : Keeps s s' := by
  unfold lockIfReady at h
  split at h
  · cases h; exact .refl _
  · obtain ⟨c, -, rfl⟩ := Option.map_eq_some_iff.1 h
    have hres := resolveConflicts_keeps voteHash env s c
    simp only
    split
    · exact hres.trans (lockTransactionInputs_keeps c)
    · exact hres

variable (env s) in
@[simp] theorem createTxLockCandidate_orphans (T : CTxLockRequest) :
    (createTxLockCandidate env s T).2.mapTxLockVotesOrphan = s.mapTxLockVotesOrphan := by
  unfold createTxLockCandidate
  split
  · rfl
  split <;> rfl

variable (env s) in
@[simp] theorem createTxLockCandidate_rates (T : CTxLockRequest) :
    (createTxLockCandidate env s T).2.mapMasternodeOrphanVotes = s.mapMasternodeOrphanVotes := by
  unfold createTxLockCandidate
  split
  · rfl
  split <;> rfl

/-- A request that is accepted is a candidate; the other candidates stay as they are. -/
theorem createTxLockCandidate_lookup {T : CTxLockRequest} (h : createTxLockCandidate env s T = (true, s')) :
    (s'.mapTxLockCandidates[T.hash]?).isSome ∧ ∀ txHash : Uint256,
      txHash ≠ T.hash → s'.mapTxLockCandidates[txHash]? = s.mapTxLockCandidates[txHash]? := by
  unfold createTxLockCandidate at h
  split at h
  · cases h
  split at h <;> rename_i hc <;> cases h
  · exact ⟨by simp, fun txHash hne => by simp [lookup_insertIfNew, hne]⟩
  · exact ⟨by rw [hc]; rfl, fun _ _ => rfl⟩

theorem processTxLockRequestWith_true {reprocess : CInstantSend → CTxLockRequest → Option (Bool × CInstantSend)}
    {T : CTxLockRequest} (h : processTxLockRequestWith voteHash reprocess env s T = some (true, s')) :
    ∃ s₁ s₂ s₃, createTxLockCandidate env s T = (true, s₁) ∧ vote voteHash env s₁ T.hash = some s₂ ∧
      processOrphanTxLockVotes voteHash reprocess env s₂ = some s₃ ∧ lockIfReady voteHash env s₃ T.hash = some s' := by
  simp only [processTxLockRequestWith] at h
  split at h
  · cases h
  split at h
  · rename_i hno; cases h
  rename_i hcreated
  obtain ⟨s₂, hs₂, h⟩ := Option.bind_eq_some_iff.1 h
  obtain ⟨s₃, hs₃, h⟩ := Option.bind_eq_some_iff.1 h
  obtain ⟨s₄, hs₄, h⟩ := Option.map_eq_some_iff.1 h
  cases h
  exact ⟨_, s₂, s₃, Prod.ext (by simpa using hcreated) rfl, hs₂, hs₃, hs₄⟩

/-! ## One level of the recursion is enough -/

theorem OrphansKeyed.of_eq (hs : OrphansKeyed voteHash s) (ho : s'.mapTxLockVotesOrphan = s.mapTxLockVotesOrphan) :
    OrphansKeyed voteHash s' := by
  unfold OrphansKeyed
  rw [ho]
  exact hs

theorem OrphansKeyed.storeOrphan (hs : OrphansKeyed voteHash s) (v : CTxLockVote) :
    OrphansKeyed voteHash (storeOrphan voteHash s v) := by
  intro h w hw
  simp only [InstantSend.storeOrphan, lookup_insert] at hw
  split at hw
  · rename_i he; cases hw; exact he
  · exact hs h w hw

variable (env) in
theorem processTxLockRequestN_depth (hs : OrphansKeyed voteHash s) (n : Nat) (T : CTxLockRequest) :
    processTxLockRequestN voteHash env (n + 1) s T = processTxLockRequest voteHash env s T := by
  simp only [processTxLockRequest, processTxLockRequestN, processTxLockRequestWith]
  split
  · rfl
  split
  · rfl
  cases hvote : vote voteHash env (createTxLockCandidate env s T).2 T.hash with
  | none => rfl
  | some s₂ =>
    have hs₂ : OrphansKeyed voteHash s₂ := (hs.of_eq (createTxLockCandidate_orphans _ _ T)).of_eq (vote_keeps hvote).orphans
    simp only [Option.bind_some, processOrphanTxLockVotes]
    rw [replay_reprocess (Waiting.of_orphans hs₂)]

theorem processTxLockVote_depth (hs : OrphansKeyed voteHash s) (n : Nat) (v : CTxLockVote) :
    processTxLockVoteWith voteHash (processTxLockRequestN voteHash env (n + 1)) env s v =
      processTxLockVote voteHash env s v := by
  have hre (T : CTxLockRequest) := processTxLockRequestN_depth env (hs.storeOrphan v) n T
  simp only [processTxLockVote, processTxLockVoteWith, processOrphanVote, hre]

theorem requestMeets_of_no_orphans {reprocess : CInstantSend → CTxLockRequest → Option (Bool × CInstantSend)}
    {ok : VoteCond} (T : CTxLockRequest) (ho : s.mapTxLockVotesOrphan.toList = []) :
    RequestMeets voteHash reprocess ok env s T := by
  intro _ s₁ hs₁ s₂ hs₂
  have ho₁ : s₁.mapTxLockVotesOrphan = s.mapTxLockVotesOrphan := by
    simpa [hs₁] using createTxLockCandidate_orphans env s T
  rw [(vote_keeps hs₂).orphans, ho₁, ho]
  trivial

/-! ## Orphan votes stay under their hashes -/

/-- Every orphan vote of `s'` is one of `s`. -/
def Shrinks (s s' : CInstantSend) : Prop :=
  ∀ (h : Uint256) (v : CTxLockVote), s'.mapTxLockVotesOrphan[h]? = some v → s.mapTxLockVotesOrphan[h]? = some v

theorem Shrinks.of_eq (ho : s'.mapTxLockVotesOrphan = s.mapTxLockVotesOrphan) : Shrinks s s' := by
  intro h v hv
  rwa [← ho]

theorem Shrinks.trans {t : CInstantSend} (h₁ : Shrinks s t) (h₂ : Shrinks t s') : Shrinks s s' :=
  fun h v hv => h₁ h v (h₂ h v hv)

theorem OrphansKeyed.shrinks (hs : OrphansKeyed voteHash s) (h : Shrinks s s') : OrphansKeyed voteHash s' :=
  fun k v hv => hs k v (h k v hv)

theorem replay_shrinks {reprocess : CInstantSend → CTxLockRequest → Option (Bool × CInstantSend)}
    {kvs : List (Uint256 × CTxLockVote)} (hw : Waiting voteHash s kvs)
    (h : run (replayOrphanVote voteHash reprocess env) s kvs = some s') : Shrinks s s' := by
  induction kvs generalizing s with
  | nil => cases h; exact fun _ _ hv => hv
  | cons kv kvs ih =>
    obtain ⟨t, ht, hrun⟩ := run_cons_some h
    refine Shrinks.trans ?_ (ih (hw.tail ht) hrun)
    intro k v hv
    rcases replayOrphanVote_orphans hw.head ht with ho | ho
    · rwa [← ho]
    · rw [ho, lookup_erase] at hv
      split at hv
      · cases hv
      · exact hv

theorem processTxLockRequest_shrinks (hs : OrphansKeyed voteHash s) {T : CTxLockRequest} {r : Bool × CInstantSend}
    (h : processTxLockRequest voteHash env s T = some r) : Shrinks s r.2 := by
  obtain ⟨done, s'⟩ := r
  cases done with
  | true =>
    obtain ⟨s₁, s₂, s₃, hs₁, hs₂, hs₃, hs'⟩ := processTxLockRequestWith_true h
    have ho₁ : s₁.mapTxLockVotesOrphan = s.mapTxLockVotesOrphan := by
      simpa [hs₁] using createTxLockCandidate_orphans env s T
    have ho₂ : s₂.mapTxLockVotesOrphan = s.mapTxLockVotesOrphan := (vote_keeps hs₂).orphans.trans ho₁
    have hreplay : Shrinks s₂ s₃ := replay_shrinks (Waiting.of_orphans (hs.of_eq ho₂)) hs₃
    exact ((Shrinks.of_eq ho₂).trans hreplay).trans (.of_eq (lockIfReady_keeps hs').orphans)
  | false =>
    simp only [processTxLockRequest, processTxLockRequestN, processTxLockRequestWith] at h
    split at h
    · cases h; exact .of_eq rfl
    split at h
    · cases h; exact .of_eq (createTxLockCandidate_orphans _ _ T)
    · obtain ⟨s₂, -, h⟩ := Option.bind_eq_some_iff.1 h
      obtain ⟨s₃, -, h⟩ := Option.bind_eq_some_iff.1 h
      obtain ⟨s₄, -, h⟩ := Option.map_eq_some_iff.1 h
      cases h

theorem processTxLockVote_keyed (hs : OrphansKeyed voteHash s) {v : CTxLockVote} {r : Bool × CInstantSend}
    (h : processTxLockVote voteHash env s v = some r) : OrphansKeyed voteHash r.2 := by
  have htrack (t : CInstantSend) (mn : COutPoint) :
      (trackOrphanVote env t mn).2.mapTxLockVotesOrphan = t.mapTxLockVotesOrphan := by
    simp only [trackOrphanVote]
    split <;> rfl
  simp only [processTxLockVote, processTxLockVoteWith, processOrphanVote] at h
  split at h
  · cases h; exact hs
  split at h
  · split at h
    · split at h
      · obtain ⟨r', hr', rfl⟩ := Option.map_eq_some_iff.1 h
        have hshrinks := processTxLockRequest_shrinks (hs.storeOrphan v) hr'
        exact (hs.storeOrphan v).shrinks hshrinks
      · cases h; exact (hs.storeOrphan v).of_eq (htrack _ _)
    · cases h; exact hs.of_eq (htrack _ _)
  · rename_i c hc
    exact hs.of_eq (processCandidateVote_keeps hc h).1.orphans

theorem step_keyed (hs : OrphansKeyed voteHash s) {ev : Env × Event} (h : step voteHash s ev = some s') :
    OrphansKeyed voteHash s' := by
  obtain ⟨env, e⟩ := ev
  cases e with
  | txLockVote nVersion v =>
    simp only [step, processMessage] at h
    split at h
    · cases h; exact hs
    split at h
    · cases h; exact hs
    obtain ⟨r, hr, rfl⟩ := Option.map_eq_some_iff.1 h
    have hseen : OrphansKeyed voteHash (storeSeen voteHash s (v.received env)) := hs.of_eq rfl
    exact processTxLockVote_keyed hseen hr
  | txLockRequest tx =>
    simp only [step, processLockRequestMessage] at h
    split at h
    · cases h; exact hs
    obtain ⟨r, hr, rfl⟩ := Option.map_eq_some_iff.1 h
    have hr' := hs.shrinks (processTxLockRequest_shrinks hs hr)
    split
    · exact hr'
    split
    · exact hr'
    split
    · exact hr'.of_eq rfl
    · exact hr'
    · exact hr'.of_eq rfl
  | ownLockRequest tx =>
    obtain ⟨r, hr, rfl⟩ := Option.map_eq_some_iff.1 h
    exact hs.shrinks (processTxLockRequest_shrinks hs hr)
  | checkAndRemove =>
    cases h
    exact hs.shrinks fun _ _ hv => checkAndRemove_orphans hv
  | notification n => cases h; exact hs.of_eq (notify_keeps env.now n).orphans

theorem run_keyed {es : List (Env × Event)} (h : run (step voteHash) init es = some s) : OrphansKeyed voteHash s :=
  run_inv (OrphansKeyed voteHash) (fun _ _ _ hs hst => step_keyed hs hst) (fun k v hv => by simp [init] at hv) h

/-- In every state that is reached the calls are at most one in the other: a deeper recursion answers the same. -/
theorem recursion_ends {es : List (Env × Event)} (h : run (step voteHash) init es = some s) (env : Env) (n : Nat) :
    (∀ T, processTxLockRequestN voteHash env (n + 1) s T = processTxLockRequest voteHash env s T) ∧
      ∀ v, processTxLockVoteWith voteHash (processTxLockRequestN voteHash env (n + 1)) env s v = processTxLockVote voteHash env s v :=
  ⟨processTxLockRequestN_depth env (run_keyed h) n, processTxLockVote_depth (run_keyed h) n⟩

theorem recursion_ends_onePayment : ∃ s, run (step pairHash) init onePayment = some s ∧
    ∀ T, processTxLockRequestN pairHash network 2 s T = processTxLockRequest pairHash network s T := by
  obtain ⟨s, hs⟩ := Option.isSome_iff_exists.1 (show (run (step pairHash) init onePayment).isSome = true by decide)
  exact ⟨s, hs, (recursion_ends hs network 1).1⟩

/-- The vote of `onePayment` finds its candidate on its outpoint and no voted outpoints. -/
theorem onePayment_meets {ok : VoteCond} (hok : ∀ t c, t.mapVotedOutpoints.isEmpty = true →
    (c.mapOutPointLocks[(⟨5, 0⟩ : COutPoint)]?).isSome → ok t c (signedVote 1 1 ⟨5, 0⟩)) :
    Meets (step pairHash) (EventMeets pairHash ok) init onePayment := by
  refine ⟨fun _ => requestMeets_of_no_orphans _ rfl, fun t ht => ⟨fun _ _ => ?_, fun _ _ => trivial⟩⟩
  have hfacts : (step pairHash init (network, .txLockRequest (payment 1 ⟨5, 0⟩))).map (fun t =>
      (t.mapVotedOutpoints.isEmpty,
        (t.mapTxLockCandidates[(1 : Uint256)]?).map fun c => (c.mapOutPointLocks[(⟨5, 0⟩ : COutPoint)]?).isSome)) =
      some (true, some true) := by decide
  rw [ht, Option.map_some, Option.some.injEq, Prod.mk.injEq] at hfacts
  obtain ⟨hvoted, hspends⟩ := hfacts
  refine ⟨fun _ c (hc : t.mapTxLockCandidates[(1 : Uint256)]? = some c) => hok _ c hvoted ?_, fun hnone _ _ _ => ?_⟩
  · rw [hc] at hspends
    exact Option.some.inj hspends
  · rw [show t.mapTxLockCandidates[(1 : Uint256)]? = none from hnone] at hspends
    cases hspends

end Zumy.InstantSend
