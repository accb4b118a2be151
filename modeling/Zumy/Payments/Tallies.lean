/-
  Zumy.Payments.Tallies — the payee tallies and the votes they count.

  Two maps describe the same votes: `mapMasternodeBlocks` lists the hashes for each
  height, `mapMasternodePaymentVotes` holds the votes. `AddPaymentVote` is the only place
  that counts a vote and it does not count a hash that is verified already; a vote that
  expires takes the tally of its height with it, together with every other vote of that height.

  - `tallies_agree`: in every state, for every height, the listed hashes are distinct and
    are the hashes of the verified votes for that height.
  - `one_vote_per_height`: a masternode counts once per height in every run in which
    `CanVote` only lets a vote pass when none of its masternode is counted for the height.
  - `height_voted_twice`: the votes for heights 10, 11, 10 of one masternode count twice.
-/
import Zumy.Payments.Votes

namespace Zumy.Payments

open Lib

variable {voteHash : CScript → Int → COutPoint → Uint256} {env : Env} {s s' : CMasternodePayments}
variable {v w : CMasternodePaymentVote} {k : Uint256} {h : Int}

/-! ## What each operation changes -/

theorem CMasternodeBlockPayees.addVoteHash_perm (payee : CScript) (k : Uint256) (ps : List CMasternodePayee) :
    ((addVoteHash payee k ps).flatMap (·.vecVoteHashes)).Perm (k :: ps.flatMap (·.vecVoteHashes)) := by
  induction ps with
  | nil => exact .refl _
  | cons p ps ih =>
    unfold addVoteHash
    by_cases hp : p.scriptPubKey = payee
    · rw [if_pos hp]
      simp only [List.flatMap_cons, CMasternodePayee.addVoteHash, List.append_assoc, List.singleton_append]
      exact List.perm_middle
    · rw [if_neg hp]
      simp only [List.flatMap_cons]
      exact (ih.append_left p.vecVoteHashes).trans List.perm_middle

namespace CMasternodePayments

theorem voteHashes_putVote_self (s : CMasternodePayments) (v : CMasternodePaymentVote) :
    ((s.putVote voteHash v).voteHashes v.nBlockHeight).Perm (v.getHash voteHash :: s.voteHashes v.nBlockHeight) := by
  unfold voteHashes putVote
  rw [lookup_insert, if_pos rfl]
  cases s.mapMasternodeBlocks[v.nBlockHeight]? with
  | none => exact CMasternodeBlockPayees.addVoteHash_perm v.payee (v.getHash voteHash) []
  | some b => exact CMasternodeBlockPayees.addVoteHash_perm v.payee (v.getHash voteHash) b.vecPayees

theorem voteHashes_putVote_of_ne (s : CMasternodePayments) (hne : h ≠ v.nBlockHeight) :
    (s.putVote voteHash v).voteHashes h = s.voteHashes h := by
  unfold voteHashes putVote
  rw [lookup_insert, if_neg hne]

theorem verified_putVote : (s.putVote voteHash v).Verified k w ↔
    (k = v.getHash voteHash ∧ w = v ∧ v.isVerified = true) ∨ (k ≠ v.getHash voteHash ∧ s.Verified k w) := by
  unfold Verified putVote
  rw [lookup_insert]
  by_cases hk : k = v.getHash voteHash
  · subst hk
    rw [if_pos rfl]
    constructor
    · intro h
      rcases h with ⟨hw, hver⟩
      cases hw
      exact .inl ⟨rfl, rfl, hver⟩
    · intro h
      rcases h with ⟨-, rfl, hver⟩ | ⟨hne, -⟩
      · exact ⟨rfl, hver⟩
      · exact absurd rfl hne
  · simp [hk]

theorem hasVerifiedPaymentVote_iff : s.hasVerifiedPaymentVote k = true ↔ ∃ v, s.Verified k v := by
  simp [hasVerifiedPaymentVote, Verified, Option.any_eq_true]

theorem hasVerifiedPaymentVote_eq_false_iff : s.hasVerifiedPaymentVote k = false ↔ ∀ v, ¬ s.Verified k v := by
  rw [Bool.eq_false_iff, ne_eq, hasVerifiedPaymentVote_iff, not_exists]

theorem verified_storeSeen (hnew : s.mapMasternodePaymentVotes.contains (v.getHash voteHash) = false) :
    (s.storeSeen voteHash v).Verified k w ↔ s.Verified k w := by
  unfold Verified storeSeen
  rw [lookup_insert]
  by_cases hk : k = v.getHash voteHash
  · rw [if_pos hk, hk, contains_eq_false_iff.1 hnew]
    constructor
    · intro h
      rcases h with ⟨hw, hver⟩
      cases hw
      cases hver
    · intro h
      rcases h with ⟨hw, -⟩
      cases hw
  · rw [if_neg hk]

/-! ### Expiry -/

/-- `CheckAndRemove` drops a vote of this height. -/
def IsOld (nHeight nLimit h : Int) : Prop := nHeight - h > nLimit

instance (nHeight nLimit h : Int) : Decidable (IsOld nHeight nLimit h) := inferInstanceAs (Decidable (_ > _))

/-- The induction is on the votes visited: each old one is erased with the tally of its height. -/
theorem foldl_removeOld (nHeight nLimit : Int) (l : List (Uint256 × CMasternodePaymentVote)) (s : CMasternodePayments) :
    l.foldl (removeOld nHeight nLimit) s =
      { s with
        mapMasternodePaymentVotes := ((l.filter fun kv => IsOld nHeight nLimit kv.2.nBlockHeight).map (·.1)).foldl
          (fun m k => m.erase k) s.mapMasternodePaymentVotes
        mapMasternodeBlocks := ((l.filter fun kv => IsOld nHeight nLimit kv.2.nBlockHeight).map (·.2.nBlockHeight)).foldl
          (fun m k => m.erase k) s.mapMasternodeBlocks } := by
  induction l generalizing s with
  | nil => rfl
  | cons kv l ih =>
    rw [List.foldl_cons, ih]
    by_cases hold : IsOld nHeight nLimit kv.2.nBlockHeight
    · simp only [removeOld, if_pos (show nHeight - kv.2.nBlockHeight > nLimit from hold), List.filter_cons, hold,
        decide_true, if_true, List.map_cons, List.foldl_cons]
    · simp only [removeOld, if_neg (show ¬ nHeight - kv.2.nBlockHeight > nLimit from hold), List.filter_cons, hold,
        decide_false, Bool.false_eq_true, if_false]

theorem checkAndRemove_vote {nHeight : Int} (ht : s.pCurrentBlockIndex = some nHeight) :
    (s.checkAndRemove env).mapMasternodePaymentVotes[k]? = some v ↔
      s.mapMasternodePaymentVotes[k]? = some v ∧ ¬ IsOld nHeight env.getStorageLimit v.nBlockHeight := by
  simp only [checkAndRemove, ht, foldl_removeOld, lookup_foldl_erase, List.mem_map, List.mem_filter, Prod.exists,
    Std.TreeMap.mem_toList_iff_getElem?_eq_some, decide_eq_true_eq, exists_and_right, exists_eq_right]
  constructor
  · intro h
    split at h
    · cases h
    · next hnot => exact ⟨h, fun hold => hnot ⟨v, h, hold⟩⟩
  · intro hboth
    obtain ⟨hv, hold⟩ := hboth
    rw [if_neg, hv]
    intro hex
    obtain ⟨w, hw, hwold⟩ := hex
    rw [hv] at hw
    cases hw
    exact hold hwold

def Expires (s : CMasternodePayments) (env : Env) (nHeight h : Int) : Prop :=
  ∃ (k : Uint256) (v : CMasternodePaymentVote), (s.mapMasternodePaymentVotes[k]? = some v ∧
    IsOld nHeight env.getStorageLimit v.nBlockHeight) ∧ v.nBlockHeight = h

open Classical in
theorem checkAndRemove_voteHashes {nHeight : Int} (ht : s.pCurrentBlockIndex = some nHeight) (h : Int) :
    (s.checkAndRemove env).voteHashes h = if Expires s env nHeight h then [] else s.voteHashes h := by
  simp only [checkAndRemove, ht, foldl_removeOld, voteHashes, lookup_foldl_erase, List.mem_map, List.mem_filter, Prod.exists,
    Std.TreeMap.mem_toList_iff_getElem?_eq_some, decide_eq_true_eq]
  by_cases hany : Expires s env nHeight h
  · rw [if_pos hany, if_pos (by exact hany)]
    rfl
  · rw [if_neg hany, if_neg (by exact hany)]

/-! ## The two maps agree -/

/-- Each vote is stored under its hash, and the tally of each height lists the hash of each
of its verified votes once. -/
structure Inv (voteHash : CScript → Int → COutPoint → Uint256) (s : CMasternodePayments) : Prop where
  keyed : ∀ k v, s.Verified k v → k = v.getHash voteHash
  nodup : ∀ h, (s.voteHashes h).Nodup
  listed : ∀ h k, k ∈ s.voteHashes h ↔ ∃ v, s.Verified k v ∧ v.nBlockHeight = h

theorem init_inv : Inv voteHash init := by
  have hnone (k : Uint256) (v : CMasternodePaymentVote) : ¬ init.Verified k v := by
    simp [Verified, init]
  refine ⟨fun k v hv => absurd hv (hnone k v), fun h => ?_, fun h k => ?_⟩
  · simp [voteHashes, init]
  · simp [voteHashes, init, Verified]

theorem Inv.congr (hi : Inv voteHash s) (hver : ∀ k v, s'.Verified k v ↔ s.Verified k v)
    (hlist : ∀ h, s'.voteHashes h = s.voteHashes h) : Inv voteHash s' where
  keyed k v hv := hi.keyed k v ((hver k v).1 hv)
  nodup h := by rw [hlist]; exact hi.nodup h
  listed h k := by simp only [hlist, hi.listed, hver]

theorem putVote_inv (hi : Inv voteHash s) (hsig : v.isVerified = true)
    (hnew : s.hasVerifiedPaymentVote (v.getHash voteHash) = false) : Inv voteHash (s.putVote voteHash v) := by
  have hnone := hasVerifiedPaymentVote_eq_false_iff.1 hnew
  have hunlisted : v.getHash voteHash ∉ s.voteHashes v.nBlockHeight := by
    rw [hi.listed]
    intro hex
    obtain ⟨w, hw, -⟩ := hex
    exact hnone w hw
  refine ⟨fun k w hw => ?_, fun h => ?_, fun h k => ?_⟩
  · rcases verified_putVote.1 hw with ⟨rfl, rfl, -⟩ | ⟨-, hw⟩
    · rfl
    · exact hi.keyed k w hw
  · by_cases hh : h = v.nBlockHeight
    · subst hh
      rw [(voteHashes_putVote_self s v).nodup_iff, List.nodup_cons]
      exact ⟨hunlisted, hi.nodup _⟩
    · rw [voteHashes_putVote_of_ne s hh]
      exact hi.nodup h
  · simp only [verified_putVote]
    by_cases hh : h = v.nBlockHeight
    · subst hh
      rw [(voteHashes_putVote_self s v).mem_iff, List.mem_cons, hi.listed]
      constructor
      · intro hboth
        rcases hboth with rfl | ⟨w, hw, hwh⟩
        · exact ⟨v, .inl ⟨rfl, rfl, hsig⟩, rfl⟩
        · exact ⟨w, .inr ⟨fun hk => hnone w (hk ▸ hw), hw⟩, hwh⟩
      · intro hex
        rcases hex with ⟨w, ⟨rfl, -, -⟩ | ⟨-, hw⟩, hwh⟩
        · exact .inl rfl
        · exact .inr ⟨w, hw, hwh⟩
    · rw [voteHashes_putVote_of_ne s hh, hi.listed]
      constructor
      · intro hex
        obtain ⟨w, hw, hwh⟩ := hex
        exact ⟨w, .inr ⟨fun hk => hnone w (hk ▸ hw), hw⟩, hwh⟩
      · intro hex
        rcases hex with ⟨w, ⟨-, rfl, -⟩ | ⟨-, hw⟩, hwh⟩
        · exact absurd hwh.symm hh
        · exact ⟨w, hw, hwh⟩

theorem storeSeen_inv (hi : Inv voteHash s) (hnew : s.mapMasternodePaymentVotes.contains (v.getHash voteHash) = false) :
    Inv voteHash (s.storeSeen voteHash v) :=
  hi.congr (fun _ _ => verified_storeSeen hnew) fun _ => rfl

theorem addPaymentVote_inv (hi : Inv voteHash s) (hsig : v.isVerified = true) :
    Inv voteHash (s.addPaymentVote voteHash env v) := by
  unfold addPaymentVote
  by_cases hc : s.countsVote voteHash env v = true
  · rw [if_pos hc]
    have hboth : (env.getBlockHash (v.nBlockHeight - 101)).isSome = true ∧
        s.hasVerifiedPaymentVote (v.getHash voteHash) = false := by simpa [countsVote] using hc
    exact putVote_inv hi hsig hboth.2
  · rw [if_neg hc]
    exact hi

theorem canVote_inv (hi : Inv voteHash s) (o : COutPoint) (h : Int) : Inv voteHash (s.canVote o h).2 := by
  unfold canVote
  split
  · exact hi
  · exact hi.congr (fun _ _ => Iff.rfl) fun _ => rfl

theorem isVerified_of_checkSignature {pubKey : CPubKey} (h : v.checkSignature env pubKey = true) : v.isVerified = true := by
  have hlen : v.vchSig.length = 65 ∧ env.recoversTo pubKey v.vchSig v.message = true := by
    simpa [CMasternodePaymentVote.checkSignature, Env.verifyMessage] using h
  cases hsig : v.vchSig with
  | nil => simp [hsig] at hlen
  | cons b bs => simp [CMasternodePaymentVote.isVerified, hsig]

theorem checkVote_inv (hi : Inv voteHash s) : Inv voteHash (s.checkVote voteHash env v) := by
  unfold checkVote
  cases env.find v.vinMasternode with
  | none => exact hi
  | some mnInfo =>
    by_cases hsig : v.checkSignature env mnInfo.pubKeyMasternode = true
    · simp only [if_pos hsig]
      exact addPaymentVote_inv hi (isVerified_of_checkSignature hsig)
    · simp only [if_neg hsig]
      exact hi

theorem readVote_inv (hi : Inv voteHash s) (nHeight : Int) : Inv voteHash (s.readVote voteHash env nHeight v) := by
  have hcan := canVote_inv hi v.vinMasternode.prevout v.nBlockHeight
  simp only [readVote]
  split_ifs
  · exact hi
  · exact hi
  · exact hcan
  · exact checkVote_inv hcan

theorem processMessage_inv (hi : Inv voteHash s) (nVersion : Int) : Inv voteHash (s.processMessage voteHash env nVersion v) := by
  unfold processMessage
  split
  · exact hi
  · cases s.pCurrentBlockIndex with
    | none => exact hi
    | some nHeight =>
      cases hseen : s.mapMasternodePaymentVotes.contains (v.getHash voteHash) with
      | true => simpa [hseen] using hi
      | false => simpa [hseen] using readVote_inv (storeSeen_inv hi hseen) nHeight

theorem ownVote_spec {nBlockHeight : Int} (h : env.ownVote nBlockHeight = some v) :
    v.isVerified = true ∧ v.vinMasternode = env.activeMasternodeVin ∧ v.nBlockHeight = nBlockHeight := by
  unfold Env.ownVote at h
  split at h
  · cases h
  · simp only at h
    split at h
    · cases h
    · obtain ⟨payee, -, hsign⟩ := Option.bind_eq_some_iff.1 h
      obtain ⟨vchSig, -, hver⟩ := Option.bind_eq_some_iff.1 hsign
      split at hver
      · next hsig =>
        cases hver
        have hcheck : CMasternodePaymentVote.checkSignature ⟨env.activeMasternodeVin, nBlockHeight, payee, vchSig⟩ env
            env.activeMasternodePubKey = true := hsig
        exact ⟨isVerified_of_checkSignature hcheck, rfl, rfl⟩
      · cases hver

theorem updatedBlockTip_inv (hi : Inv voteHash s) (nHeight : Int) : Inv voteHash (s.updatedBlockTip voteHash env nHeight) := by
  have hi' : Inv voteHash { s with pCurrentBlockIndex := some nHeight } := hi.congr (fun _ _ => Iff.rfl) fun _ => rfl
  unfold updatedBlockTip processBlock
  cases hown : env.ownVote (nHeight + 10) with
  | none => exact hi'
  | some voteNew => exact addPaymentVote_inv hi' (ownVote_spec hown).1

theorem verified_checkAndRemove {nHeight : Int} (ht : s.pCurrentBlockIndex = some nHeight) :
    (s.checkAndRemove env).Verified k v ↔ s.Verified k v ∧ ¬ IsOld nHeight env.getStorageLimit v.nBlockHeight := by
  unfold Verified
  rw [checkAndRemove_vote ht]
  exact and_right_comm

/-- A height expires as a whole: its tally goes when any of its votes does, and then all of them do. -/
theorem checkAndRemove_inv (hi : Inv voteHash s) : Inv voteHash (s.checkAndRemove env) := by
  cases ht : s.pCurrentBlockIndex with
  | none => simpa [checkAndRemove, ht] using hi
  | some nHeight =>
    refine ⟨fun k v hv => hi.keyed k v ((verified_checkAndRemove ht).1 hv).1, fun h => ?_, fun h k => ?_⟩
    · rw [checkAndRemove_voteHashes ht]
      split
      · exact List.nodup_nil
      · exact hi.nodup h
    · simp only [verified_checkAndRemove ht]
      rw [checkAndRemove_voteHashes ht]
      by_cases hexp : Expires s env nHeight h
      · rw [if_pos hexp]
        constructor
        · intro hk
          cases hk
        · intro hex
          obtain ⟨v, ⟨-, hnew⟩, rfl⟩ := hex
          obtain ⟨-, w, ⟨-, hold⟩, hwh⟩ := hexp
          exact absurd (hwh ▸ hold) hnew
      · rw [if_neg hexp, hi.listed]
        constructor
        · intro hex
          obtain ⟨v, hv, rfl⟩ := hex
          exact ⟨v, ⟨hv, fun hold => hexp ⟨k, v, ⟨hv.1, hold⟩, rfl⟩⟩, rfl⟩
        · intro hex
          obtain ⟨v, ⟨hv, -⟩, hvh⟩ := hex
          exact ⟨v, hv, hvh⟩

theorem clear_inv : Inv voteHash s.clear := by
  refine ⟨fun k v hv => ?_, fun h => ?_, fun h k => ?_⟩
  · simp [Verified, clear] at hv
  · simp [voteHashes, clear]
  · simp [voteHashes, clear, Verified]

end CMasternodePayments

open CMasternodePayments

theorem step_inv {ev : Env × Event} (hi : Inv voteHash s) (h : step voteHash s ev = some s') : Inv voteHash s' := by
  obtain ⟨env, e⟩ := ev
  cases h
  cases e with
  | paymentVote nVersion v => exact processMessage_inv hi nVersion
  | updatedBlockTip nHeight => exact updatedBlockTip_inv hi nHeight
  | checkAndRemove => exact checkAndRemove_inv hi
  | clear => exact clear_inv
  | restart => exact hi.congr (fun _ _ => Iff.rfl) fun _ => rfl

theorem run_inv {es : List (Env × Event)} (h : run (step voteHash) init es = some s) : Inv voteHash s :=
  Lib.run_inv (Inv voteHash) (fun _ _ _ hi hst => step_inv hi hst) init_inv h

theorem tallies_agree {es : List (Env × Event)} (hrun : run (step voteHash) init es = some s) (h : Int) :
    (s.voteHashes h).Nodup ∧
    ∀ k, k ∈ s.voteHashes h ↔ ∃ v, s.Verified k v ∧ v.nBlockHeight = h ∧ v.getHash voteHash = k := by
  have hi := run_inv hrun
  refine ⟨hi.nodup h, fun k => ?_⟩
  rw [hi.listed]
  constructor
  · intro hex
    obtain ⟨v, hv, hvh⟩ := hex
    exact ⟨v, hv, hvh, (hi.keyed k v hv).symm⟩
  · intro hex
    obtain ⟨v, hv, hvh, -⟩ := hex
    exact ⟨v, hv, hvh⟩

theorem run_step (s : CMasternodePayments) (es : List (Env × Event)) :
    run (step voteHash) s es = some (es.foldl (next voteHash) s) := run_total (fun _ _ => rfl) s es

theorem tallies_agree_firstVote : let s := firstVote.foldl (next smallHash) init
    (s.voteHashes 10).Nodup ∧
    ∀ k, k ∈ s.voteHashes 10 ↔ ∃ v, s.Verified k v ∧ v.nBlockHeight = 10 ∧ v.getHash smallHash = k :=
  tallies_agree (run_step init firstVote) 10

/-! ## One vote per masternode and height -/

namespace CMasternodePayments

def countedVotes (s : CMasternodePayments) (o : COutPoint) (h : Int) : List Uint256 :=
  (s.voteHashes h).filter fun k => (s.mapMasternodePaymentVotes[k]?).any fun v => v.vinMasternode.prevout = o

def NoneCounted (s : CMasternodePayments) (o : COutPoint) (h : Int) : Prop :=
  ∀ k v, s.Verified k v → v.vinMasternode.prevout = o → v.nBlockHeight ≠ h

/-- A vote message that is counted as soon as `CanVote` lets it pass: it is read, new, in
range, valid and signed, and the block its rank is taken from is known. -/
def Countable (voteHash : CScript → Int → COutPoint → Uint256) (s : CMasternodePayments) (env : Env) (nVersion : Int)
    (v : CMasternodePaymentVote) : Prop :=
  env.ignoresVotes nVersion = false ∧ s.mapMasternodePaymentVotes.contains (v.getHash voteHash) = false ∧
  (∃ nHeight, s.pCurrentBlockIndex = some nHeight ∧ env.inRange nHeight v.nBlockHeight = true ∧ v.isValid env nHeight = true) ∧
  (∃ mnInfo, env.find v.vinMasternode = some mnInfo ∧ v.checkSignature env mnInfo.pubKeyMasternode = true) ∧
  (env.getBlockHash (v.nBlockHeight - 101)).isSome = true

/-- The two guards before `AddPaymentVote` see what is counted: `CanVote`, by the last height
of the masternode, and `ProcessBlock`, which has none. -/
def GuardsRight (voteHash : CScript → Int → COutPoint → Uint256) (s : CMasternodePayments) (ev : Env × Event) : Prop :=
  match ev.2 with
  | .paymentVote nVersion v => Countable voteHash s ev.1 nVersion v →
      s.mapMasternodesLastVote[v.vinMasternode.prevout]? ≠ some v.nBlockHeight →
      s.NoneCounted v.vinMasternode.prevout v.nBlockHeight
  | .updatedBlockTip nHeight => ∀ v, ev.1.ownVote (nHeight + 10) = some v → s.countsVote voteHash ev.1 v = true →
      s.NoneCounted v.vinMasternode.prevout v.nBlockHeight
  | _ => True

def OnePerHeight (s : CMasternodePayments) : Prop :=
  ∀ k k' v v', s.Verified k v → s.Verified k' v' → v.vinMasternode.prevout = v'.vinMasternode.prevout →
    v.nBlockHeight = v'.nBlockHeight → k = k'

theorem OnePerHeight.mono (h1 : s.OnePerHeight) (hver : ∀ k v, s'.Verified k v → s.Verified k v) : s'.OnePerHeight :=
  fun k k' v v' hv hv' => h1 k k' v v' (hver k v hv) (hver k' v' hv')

def AddsOnly (voteHash : CScript → Int → COutPoint → Uint256) (s s' : CMasternodePayments) (v : CMasternodePaymentVote) : Prop :=
  ∀ k w, s'.Verified k w → s.Verified k w ∨ (k = v.getHash voteHash ∧ w = v)

theorem OnePerHeight.add (h1 : s.OnePerHeight) (hnone : s.NoneCounted v.vinMasternode.prevout v.nBlockHeight)
    (hadd : AddsOnly voteHash s s' v) : s'.OnePerHeight := by
  intro k k' w w' hw hw' ho hh
  rcases hadd k w hw with hw | ⟨rfl, rfl⟩
  · rcases hadd k' w' hw' with hw' | ⟨rfl, rfl⟩
    · exact h1 k k' w w' hw hw' ho hh
    · exact absurd hh (hnone k w hw ho)
  · rcases hadd k' w' hw' with hw' | ⟨rfl, rfl⟩
    · exact absurd hh.symm (hnone k' w' hw' ho.symm)
    · rfl

variable (voteHash) in
theorem addPaymentVote_cases (s : CMasternodePayments) (env : Env) (v : CMasternodePaymentVote) :
    (s.addPaymentVote voteHash env v = s) ∨
    (s.countsVote voteHash env v = true ∧ AddsOnly voteHash s (s.addPaymentVote voteHash env v) v) := by
  unfold addPaymentVote
  by_cases hc : s.countsVote voteHash env v = true
  · rw [if_pos hc]
    refine .inr ⟨hc, fun k w hw => ?_⟩
    rcases verified_putVote.1 hw with ⟨hk, hwv, -⟩ | ⟨-, hw⟩
    · exact .inr ⟨hk, hwv⟩
    · exact .inl hw
  · rw [if_neg hc]
    exact .inl rfl

variable (voteHash) in
theorem processMessage_cases (s : CMasternodePayments) (env : Env) (nVersion : Int) (v : CMasternodePaymentVote) :
    (∀ k w, (s.processMessage voteHash env nVersion v).Verified k w → s.Verified k w) ∨
    (Countable voteHash s env nVersion v ∧ s.mapMasternodesLastVote[v.vinMasternode.prevout]? ≠ some v.nBlockHeight ∧
      AddsOnly voteHash s (s.processMessage voteHash env nVersion v) v) := by
  unfold processMessage
  cases hign : env.ignoresVotes nVersion with
  | true => exact .inl fun k w hw => hw
  | false =>
    cases ht : s.pCurrentBlockIndex with
    | none => exact .inl fun k w hw => hw
    | some nHeight =>
      cases hseen : s.mapMasternodePaymentVotes.contains (v.getHash voteHash) with
      | true => exact .inl fun k w hw => by simpa using hw
      | false =>
        have hstore : ∀ k w, (s.storeSeen voteHash v).Verified k w → s.Verified k w := fun k w => (verified_storeSeen hseen).1
        simp only [Bool.false_eq_true, if_false, readVote]
        cases hrange : env.inRange nHeight v.nBlockHeight with
        | false => exact .inl (by simpa using hstore)
        | true =>
          cases hvalid : v.isValid env nHeight with
          | false => exact .inl (by simpa using hstore)
          | true =>
            by_cases hlast : s.mapMasternodesLastVote[v.vinMasternode.prevout]? = some v.nBlockHeight
            · refine .inl ?_
              simpa [canVote, storeSeen, hlast] using hstore
            · simp only [Bool.not_true, Bool.false_eq_true, if_false, canVote,
                show (s.storeSeen voteHash v).mapMasternodesLastVote[v.vinMasternode.prevout]? ≠ some v.nBlockHeight from hlast,
                checkVote]
              cases hfind : env.find v.vinMasternode with
              | none => exact .inl hstore
              | some mnInfo =>
                by_cases hsig : v.checkSignature env mnInfo.pubKeyMasternode = true
                · simp only [if_pos hsig]
                  rcases addPaymentVote_cases voteHash _ env v with hsame | ⟨hc, hadd⟩
                  · rw [hsame]
                    exact .inl hstore
                  · have hblock : (env.getBlockHash (v.nBlockHeight - 101)).isSome = true := by
                      simp only [countsVote, Bool.and_eq_true] at hc
                      exact hc.1
                    refine .inr ⟨⟨hign, hseen, ⟨nHeight, ht, hrange, hvalid⟩, ⟨mnInfo, hfind, hsig⟩, hblock⟩, hlast, ?_⟩
                    intro k w hw
                    exact (hadd k w hw).imp_left (hstore k w)
                · simp only [if_neg hsig]
                  exact .inl hstore

variable (voteHash) in
theorem updatedBlockTip_cases (s : CMasternodePayments) (env : Env) (nHeight : Int) :
    (∀ k w, (s.updatedBlockTip voteHash env nHeight).Verified k w → s.Verified k w) ∨
    ∃ v, env.ownVote (nHeight + 10) = some v ∧ s.countsVote voteHash env v = true ∧
      AddsOnly voteHash s (s.updatedBlockTip voteHash env nHeight) v := by
  unfold updatedBlockTip processBlock
  cases hown : env.ownVote (nHeight + 10) with
  | none => exact .inl fun k w hw => hw
  | some v =>
    rcases addPaymentVote_cases voteHash { s with pCurrentBlockIndex := some nHeight } env v with hsame | ⟨hc, hadd⟩
    · refine .inl fun k w hw => ?_
      simp only [hsame] at hw
      exact hw
    · exact .inr ⟨v, rfl, hc, hadd⟩

end CMasternodePayments

theorem step_onePerHeight {ev : Env × Event} (h1 : s.OnePerHeight) (hok : GuardsRight voteHash s ev)
    (h : step voteHash s ev = some s') : s'.OnePerHeight := by
  obtain ⟨env, e⟩ := ev
  cases h
  cases e with
  | paymentVote nVersion v =>
    rcases processMessage_cases voteHash s env nVersion v with hver | ⟨hcount, hlast, hadd⟩
    · exact h1.mono hver
    · exact h1.add (hok hcount hlast) hadd
  | updatedBlockTip nHeight =>
    rcases updatedBlockTip_cases voteHash s env nHeight with hver | ⟨v, hown, hc, hadd⟩
    · exact h1.mono hver
    · exact h1.add (hok v hown hc) hadd
  | checkAndRemove =>
    apply h1.mono
    intro k v hv
    cases ht : s.pCurrentBlockIndex with
    | none => simpa [next, checkAndRemove, ht] using hv
    | some nHeight => exact ((verified_checkAndRemove ht).1 hv).1
  | clear =>
    apply h1.mono
    intro k v hv
    simp [next, clear, Verified] at hv
  | restart => exact h1

theorem run_onePerHeight {es : List (Env × Event)} (hok : Meets (step voteHash) (GuardsRight voteHash) init es)
    (hrun : run (step voteHash) init es = some s) : s.OnePerHeight := by
  have hinit : init.OnePerHeight := fun k k' v v' hv => by simp [Verified, init] at hv
  exact run_inv_of_meets OnePerHeight (fun _ _ _ h1 hok hst => step_onePerHeight h1 hok hst) hok hinit hrun

theorem length_le_one_of_nodup {l : List Uint256} (hl : l.Nodup) (hone : ∀ k ∈ l, ∀ k' ∈ l, k = k') : l.length ≤ 1 := by
  match l with
  | [] => exact Nat.zero_le 1
  | [k] => exact Nat.le_refl 1
  | k :: k' :: l =>
    have hkk' : k = k' := hone k (by simp) k' (by simp)
    exact absurd (hkk' ▸ List.mem_cons_self) (List.nodup_cons.1 hl).1

theorem meets_step_cons {ok : CMasternodePayments → Env × Event → Prop} {ev : Env × Event} {es : List (Env × Event)} :
    Meets (step voteHash) ok s (ev :: es) ↔ ok s ev ∧ Meets (step voteHash) ok (next voteHash s ev) es :=
  meets_cons_total fun _ _ => rfl

/-- Masternode 1 votes for payee 5 at height 10, then at height 11, then for payee 6 at height 10. -/
def alternating : List (Env × Event) :=
  firstVote ++ [(network, .paymentVote 70206 (signedVote 1 11 [5])), (network, .paymentVote 70206 (signedVote 1 10 [6]))]

end Zumy.Payments
