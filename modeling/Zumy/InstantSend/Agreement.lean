/-
  Zumy.InstantSend.Agreement — two nodes, two conflicting transactions.

  `Q o` is the signing quorum of an outpoint, `signed mn txHash o` that the masternode
  signed a vote for the transaction on it. A node's environment respects them when only
  members of `Q o` have a rank at most `signaturesTotal` for the outpoint and only
  signed votes verify. Nothing else is asked of a node: it may receive any votes in any
  order, vote itself, expire and reconfirm.

  `signaturesRequired` is half of `signaturesTotal`, so two transactions that share an
  outpoint can both be ready when its quorum splits in half.

  - `ready_lockable`: a ready candidate has `signaturesRequired` signers on every input.
-/
import Mathlib.Algebra.Order.BigOperators.Group.List
import Mathlib.Algebra.Order.Ring.Nat
import Zumy.Lib.Quorum
import Zumy.InstantSend.Delivery

namespace Zumy.InstantSend

open Lib

section

variable (Q : COutPoint → Finset COutPoint) (signed : COutPoint → Uint256 → COutPoint → Prop)

structure Env.Respects (env : Env) : Prop where
  quorum : ∀ o mn nHeight, env.prevoutHeight o = some nHeight → env.getMasternodeRank mn (nHeight + 4) ≠ -1 →
    env.getMasternodeRank mn (nHeight + 4) ≤ signaturesTotal → mn ∈ Q o
  unforgeable : ∀ mn pubKey sig txHash o, env.masternodeInfo mn = some pubKey →
    env.verifyMessage pubKey sig (txHash, o) = true → signed mn txHash o

open Classical in
noncomputable def signers (txHash : Uint256) (o : COutPoint) : Finset COutPoint := (Q o).filter fun mn => signed mn txHash o

theorem mem_signers {txHash : Uint256} {o mn : COutPoint} :
    mn ∈ signers Q signed txHash o ↔ mn ∈ Q o ∧ signed mn txHash o := by
  simp [signers]

/-- The transaction can be a lock request and has enough signers on every input. -/
structure Lockable (T : CTransaction) : Prop where
  outputs : 1 ≤ T.vout.length
  inputs : T.vin.length ≤ warnManyInputs
  spends : T.vin ≠ []
  signatures : ∀ o ∈ CTransaction.prevouts T, signaturesRequired ≤ (signers Q signed T.hash o).card

end

variable {Q : COutPoint → Finset COutPoint} {signed : COutPoint → Uint256 → COutPoint → Prop}
variable {voteHash : Uint256 → COutPoint → COutPoint → Uint256} {env : Env} {s s' : CInstantSend}

/-! ## Safety -/

theorem CTxLockVote.isValid_signed {v : CTxLockVote} (henv : env.Respects Q signed) (hv : v.isValid env = true) :
    v.outpointMasternode ∈ Q v.outpoint ∧ signed v.outpointMasternode v.txHash v.outpoint := by
  obtain ⟨hsig, nHeight, hh, hr, ht⟩ := CTxLockVote.isValid_iff.1 hv
  refine ⟨henv.quorum _ _ nHeight hh hr ht, ?_⟩
  unfold CTxLockVote.checkSignature at hsig
  split at hsig
  · cases hsig
  · rename_i pubKey hinfo
    exact henv.unforgeable _ pubKey _ _ _ hinfo hsig

theorem CTxLockRequest.isValid_size {T : CTxLockRequest} {fRequireUnspent : Bool} (h : T.isValid env fRequireUnspent = true) :
    1 ≤ T.vout.length ∧ T.vin.length ≤ warnManyInputs := by
  unfold CTxLockRequest.isValid at h
  split at h
  · cases h
  rename_i hout
  split at h
  · cases h
  rename_i hin
  exact ⟨by omega, by omega⟩

/-- What a candidate of a node is: a request of a size that is valid, a lock on each of
    its inputs and only votes that quorum members signed. -/
structure Sound (Q : COutPoint → Finset COutPoint) (signed : COutPoint → Uint256 → COutPoint → Prop)
    (txHash : Uint256) (c : CTxLockCandidate) : Prop where
  hash : c.txLockRequest.hash = txHash
  outputs : 1 ≤ c.txLockRequest.vout.length
  inputs : c.txLockRequest.vin.length ≤ warnManyInputs
  locks : ∀ o : COutPoint, (c.mapOutPointLocks[o]?).isSome ↔ o ∈ CTransaction.prevouts c.txLockRequest.toCTransaction
  votes : ∀ o mn, c.hasMasternodeVoted o mn = true → mn ∈ Q o ∧ signed mn txHash o

def AllSound (Q : COutPoint → Finset COutPoint) (signed : COutPoint → Uint256 → COutPoint → Prop) (s : CInstantSend) : Prop :=
  ∀ (txHash : Uint256) c, s.mapTxLockCandidates[txHash]? = some c → Sound Q signed txHash c

theorem Sound.addVote {txHash : Uint256} {c c' : CTxLockCandidate} {v : CTxLockVote} (hc : Sound Q signed txHash c)
    (hadd : c.addVote v = some c') (htx : v.txHash = txHash) (henv : env.Respects Q signed) (hv : v.isValid env = true) :
    Sound Q signed txHash c' := by
  have hreq := CTxLockCandidate.addVote_request hadd
  refine ⟨by rw [hreq]; exact hc.hash, by rw [hreq]; exact hc.outputs, by rw [hreq]; exact hc.inputs, fun o => ?_, fun o mn hm => ?_⟩
  · rw [CTxLockCandidate.mem_locks_addVote hadd, hreq]
    exact hc.locks o
  · rcases (CTxLockCandidate.hasMasternodeVoted_addVote hadd).1 hm with hold | ⟨rfl, rfl⟩
    · exact hc.votes o mn hold
    · rw [← htx]
      exact CTxLockVote.isValid_signed henv hv

theorem Move.allSound {ok : VoteCond} (henv : env.Respects Q signed) (hs : AllSound Q signed s) (h : Move env ok s s') :
    AllSound Q signed s' := by
  have hcount {v : CTxLockVote} {c c' : CTxLockCandidate} (hv : v.isValid env = true)
      (hc : s.mapTxLockCandidates[v.txHash]? = some c) (hadd : c.addVote v = some c') (txHash : Uint256) (d)
      (hd : (s.mapTxLockCandidates.insert v.txHash c')[txHash]? = some d) : Sound Q signed txHash d := by
    rw [lookup_insert] at hd
    split at hd
    · rename_i he
      cases hd
      exact (hs txHash c (by rw [he]; exact hc)).addVote hadd he.symm henv hv
    · exact hs txHash d hd
  cases h with
  | book hc _ _ => unfold AllSound; rw [hc]; exact hs
  | confirm txHash nHeightNew =>
    intro h d hd
    rw [lookup_modify] at hd
    split at hd
    · rename_i he
      obtain ⟨c, hc, rfl⟩ := Option.map_eq_some_iff.1 hd
      obtain ⟨h1, h2, h3, h4, h5⟩ := hs h c (by rw [he]; exact hc)
      exact ⟨h1, h2, h3, h4, h5⟩
    · exact hs h d hd
  | create T fRequireUnspent hvalid _ =>
    intro h d hd
    rcases of_lookup_insertIfNew hd with ⟨he, rfl⟩ | hd
    · obtain ⟨hout, hin⟩ := CTxLockRequest.isValid_size hvalid
      refine ⟨by rw [CTxLockCandidate.ofRequest_request]; exact he.symm, by simpa using hout, by simpa using hin,
        fun o => ?_, fun o mn hm => ?_⟩
      · rw [CTxLockCandidate.ofRequest_locks, CTxLockCandidate.ofRequest_request]
        simp [CTransaction.prevouts]
      · rw [CTxLockCandidate.ofRequest_not_voted] at hm
        cases hm
    · exact hs h d hd
  | refuse => exact hs
  | count v c c' hv hc _ _ hadd => exact hcount hv hc hadd
  | own v c c' hv hc _ hadd => exact hcount hv hc hadd
  | lock c =>
    unfold lockTransactionInputs
    split <;> exact hs

theorem step_allSound {ev : Env × Event} (henv : ev.1.Respects Q signed) (hs : AllSound Q signed s)
    (h : step voteHash s ev = some s') : AllSound Q signed s' := by
  by_cases hexp : ev.2 = .checkAndRemove
  · simp only [step, hexp, Option.some.injEq] at h
    rw [← h]
    intro txHash c hc
    exact hs txHash c ((checkAndRemove_candidates txHash c).1 hc).1
  · have hchain := step_moves hexp (eventMeets_of_forall (fun _ _ _ => trivial) s ev : EventMeets voteHash (fun _ _ _ => True) s ev) h
    exact chain_inv (AllSound Q signed) (fun _ _ ht hm => hm.allSound henv ht) hchain hs

theorem ready_lockable {T : CTransaction} {es : List (Env × Event)} (henv : ∀ ev ∈ es, ev.1.Respects Q signed)
    (h : run (step voteHash) init es = some s) (hready : Ready s T) : Lockable Q signed T := by
  have hsound : AllSound Q signed s :=
    run_inv_of_mem (AllSound Q signed) (fun _ _ _ ht hm hst => step_allSound hm ht hst) henv
      (fun txHash c hc => by simp [init] at hc) h
  obtain ⟨c, hc, rfl, hall⟩ := hready
  have hc' := hsound _ c hc
  obtain ⟨hne, hsize⟩ := CTxLockCandidate.isAllOutPointsReady_iff.1 hall
  refine ⟨hc'.outputs, hc'.inputs, fun hnil => ?_, fun o ho => ?_⟩
  · -- without inputs there would be no lock
    obtain ⟨o, ho⟩ := Std.TreeMap.isEmpty_eq_false_iff_exists_mem.1 hne
    have hin := (hc'.locks o).1 (Std.TreeMap.isSome_getElem?_iff_mem.2 ho)
    simp [CTransaction.prevouts, hnil] at hin
  · obtain ⟨l, hl⟩ := Option.isSome_iff_exists.1 ((hc'.locks o).2 ho)
    have hsub : l.mapMasternodeVotes.keys.toFinset ⊆ signers Q signed c.txLockRequest.hash o := by
      intro mn hmn
      rw [List.mem_toFinset, Std.TreeMap.mem_keys, ← Std.TreeMap.isSome_getElem?_iff_mem, Option.isSome_iff_exists] at hmn
      have hvoted := hc'.votes o mn (CTxLockCandidate.hasMasternodeVoted_iff.2 ⟨l, hl, hmn⟩)
      exact (mem_signers Q signed).2 hvoted
    have hle := Finset.card_le_card hsub
    rw [card_keys_toFinset] at hle
    exact (hsize o l hl).trans hle

/-! ## A node that gets every vote -/

def heightOf (o : COutPoint) : Nat := Nat.pair o.hash o.n

def keyOf (mn : COutPoint) : CPubKey := List.replicate (Nat.pair mn.hash mn.n) 0

def totalOut (T : CTransaction) : Int := (T.vout.map CTxOut.nValue).sum
def reserve (T : CTransaction) : Int := (totalOut T).natAbs

open Classical in
/-- A quiet node in which the quorums, the signatures and the transaction are as given. -/
noncomputable def deliveryEnv (Q : COutPoint → Finset COutPoint) (signed : COutPoint → Uint256 → COutPoint → Prop)
    (T : CTransaction) : Env :=
  { network with
    spork5Value := reserve T
    chainHeight := (T.vin.map fun txin => heightOf txin.prevout).sum + 9
    masternodeInfo := fun mn => some (keyOf mn)
    getMasternodeRank := fun mn nHeight =>
      if h : ∃ o, nHeight = heightOf o + 4 ∧ mn ∈ Q o then (Q h.choose).toList.idxOf mn + 1 else -1
    verifyMessage := fun pubKey _ m => decide (∃ mn, pubKey = keyOf mn ∧ signed mn m.1 m.2)
    getCoin := fun o => some (heightOf o, reserve T + minFee * (T.vin.length + 1)) }

theorem heightOf_inj {o o' : COutPoint} (h : heightOf o = heightOf o') : o = o' := by
  obtain ⟨h1, h2⟩ := Nat.pair_eq_pair.1 h
  cases o; cases o'; simp_all

theorem keyOf_inj {mn mn' : COutPoint} (h : keyOf mn = keyOf mn') : mn = mn' := by
  have hlen := congrArg List.length h
  simp only [keyOf, List.length_replicate] at hlen
  exact heightOf_inj hlen

theorem deliveryEnv_quiet (T : CTransaction) : Quiet (deliveryEnv Q signed T) := ⟨rfl, rfl, rfl, fun _ _ => rfl⟩

theorem deliveryEnv_prevoutHeight (T : CTransaction) (o : COutPoint) :
    (deliveryEnv Q signed T).prevoutHeight o = some (heightOf o : Int) := by
  have hne : (heightOf o : Int) ≠ -1 := by omega
  simp [Env.prevoutHeight, Env.getUTXOHeight, deliveryEnv, hne]

theorem deliveryEnv_rank (T : CTransaction) (o mn : COutPoint) :
    (deliveryEnv Q signed T).getMasternodeRank mn (heightOf o + 4) =
      if mn ∈ Q o then ((Q o).toList.idxOf mn + 1 : Int) else -1 := by
  simp only [deliveryEnv]
  split
  · rename_i h
    have ho : o = h.choose := heightOf_inj (by have := h.choose_spec.1; omega)
    rw [← ho, if_pos (by rw [ho]; exact h.choose_spec.2)]
  · rename_i h
    rw [if_neg fun hmn => h ⟨o, rfl, hmn⟩]

theorem deliveryEnv_verify (T : CTransaction) {mn o : COutPoint} {sig : List UInt8} {txHash : Uint256} :
    (deliveryEnv Q signed T).verifyMessage (keyOf mn) sig (txHash, o) = true ↔ signed mn txHash o := by
  simp only [deliveryEnv, decide_eq_true_eq]
  constructor
  · intro h
    rcases h with ⟨mn', hkey, hsigned⟩
    rw [keyOf_inj hkey]
    exact hsigned
  · intro hsigned
    exact ⟨mn, rfl, hsigned⟩

theorem deliveryEnv_respects (T : CTransaction) : (deliveryEnv Q signed T).Respects Q signed := by
  constructor
  · intro o mn nHeight hh hr _
    rw [deliveryEnv_prevoutHeight] at hh
    cases hh
    rw [deliveryEnv_rank] at hr
    by_contra hmn
    rw [if_neg hmn] at hr
    exact hr rfl
  · intro mn pubKey sig txHash o hinfo hverify
    cases hinfo
    exact (deliveryEnv_verify T).1 hverify

theorem deliveryEnv_isValid (hQ : ∀ o, ((Q o).card : Int) = signaturesTotal) (T : CTransaction) {txHash : Uint256}
    {o mn : COutPoint} (hmn : mn ∈ signers Q signed txHash o) :
    CTxLockVote.isValid (deliveryEnv Q signed T) ⟨txHash, o, mn, [], -1, 0⟩ = true := by
  obtain ⟨hin, hsigned⟩ := (mem_signers Q signed).1 hmn
  have hidx : (Q o).toList.idxOf mn < (Q o).card := by
    rw [← Finset.length_toList, List.idxOf_lt_length_iff]
    exact Finset.mem_toList.2 hin
  have hQo := hQ o
  have hrank : (deliveryEnv Q signed T).getMasternodeRank mn (heightOf o + 4) = (Q o).toList.idxOf mn + 1 := by
    rw [deliveryEnv_rank, if_pos hin]
  exact CTxLockVote.isValid_iff.2 ⟨(deliveryEnv_verify T).2 hsigned, heightOf o, deliveryEnv_prevoutHeight T o,
    hrank.trans_ne (by omega), hrank.trans_le (by omega)⟩

theorem mapM_eq_some_map {α β : Type} {f : α → Option β} {g : α → β} {l : List α} (h : ∀ x ∈ l, f x = some (g x)) :
    l.mapM f = some (l.map g) := by
  induction l with
  | nil => rfl
  | cons x l ih =>
    rw [List.mapM_cons, h x (by simp), ih fun y hy => h y (by simp [hy])]
    rfl

theorem deliveryEnv_inputValue {T : CTransaction} {txin : CTxIn} (h : txin ∈ T.vin) (fRequireUnspent : Bool) :
    CTxLockRequest.inputValue (deliveryEnv Q signed T) fRequireUnspent txin =
      some (reserve T + minFee * (T.vin.length + 1)) := by
  have hle : heightOf txin.prevout ≤ (T.vin.map fun txin => heightOf txin.prevout).sum :=
    List.single_le_sum (fun _ _ => Nat.zero_le _) _ (List.mem_map_of_mem (f := fun txin => heightOf txin.prevout) h)
  have hcoin : (deliveryEnv Q signed T).getCoin txin.prevout =
      some ((heightOf txin.prevout : Int), reserve T + minFee * (T.vin.length + 1)) := rfl
  have hheight : (deliveryEnv Q signed T).chainHeight =
      ((T.vin.map fun txin => heightOf txin.prevout).sum : Nat) + 9 := rfl
  have hage : ¬ ((deliveryEnv Q signed T).chainHeight - heightOf txin.prevout + 1 <
      instantsendConfirmationsRequired - 1) := by
    simp only [instantsendConfirmationsRequired, hheight]
    omega
  simp only [CTxLockRequest.inputValue, hcoin, Option.bind_some]
  exact if_neg hage

theorem deliveryEnv_request {T : CTransaction} (hout : 1 ≤ T.vout.length) (hin : T.vin.length ≤ warnManyInputs)
    (hvin : T.vin ≠ []) (fRequireUnspent : Bool) :
    CTxLockRequest.isValid (deliveryEnv Q signed T) ⟨T, (deliveryEnv Q signed T).now⟩ fRequireUnspent = true := by
  have hvalues := mapM_eq_some_map (f := CTxLockRequest.inputValue (deliveryEnv Q signed T) fRequireUnspent)
    (g := fun _ => reserve T + minFee * (T.vin.length + 1)) fun txin h => deliveryEnv_inputValue h fRequireUnspent
  have hlen : 1 ≤ (T.vin.length : Int) := by
    have := List.length_pos_of_ne_nil hvin
    omega
  have hspork : totalOut T ≤ reserve T * coin := by
    simp only [reserve, coin]
    omega
  have hvalue : 1 * (reserve T + minFee * (T.vin.length + 1)) ≤ T.vin.length * (reserve T + minFee * (T.vin.length + 1)) :=
    Int.mul_le_mul_of_nonneg_right hlen (by simp only [reserve, minFee, coin]; omega)
  have hfee : ¬ (T.vin.length * (reserve T + minFee * (T.vin.length + 1)) - totalOut T <
      CTxLockRequest.getMinFee ⟨T, (deliveryEnv Q signed T).now⟩) := by
    have hout : totalOut T ≤ reserve T := Int.le_natAbs
    simp only [CTxLockRequest.getMinFee, minFee, coin] at *
    omega
  unfold CTxLockRequest.isValid
  rw [if_neg (by simpa using List.ne_nil_of_length_pos hout), if_neg (by simpa using hin),
    if_neg (by simp [deliveryEnv, network]), if_neg (by simp [deliveryEnv, network])]
  simp only [hvalues, List.map_const', List.sum_replicate_int]
  exact (if_neg (show ¬ totalOut T > reserve T * coin from not_lt.2 hspork)).trans (if_neg hfee)

theorem lockable_ready (hinj : ∀ t o mn t' o' mn', voteHash t o mn = voteHash t' o' mn' → t = t' ∧ o = o' ∧ mn = mn')
    (hQ : ∀ o, ((Q o).card : Int) = signaturesTotal) {T : CTransaction} (hT : Lockable Q signed T) :
    ∃ es s, (∀ ev ∈ es, ev.1.Respects Q signed) ∧ run (step voteHash) init es = some s ∧ Ready s T := by
  let votes : List CTxLockVote := (CTransaction.prevouts T).flatMap fun o =>
    (signers Q signed T.hash o).toList.map fun mn => ⟨T.hash, o, mn, [], -1, 0⟩
  have hmem {v : CTxLockVote} : v ∈ votes ↔ ∃ o ∈ CTransaction.prevouts T, ∃ mn ∈ signers Q signed T.hash o,
      v = ⟨T.hash, o, mn, [], -1, 0⟩ := by
    simp [votes, eq_comm]
  obtain ⟨s, hrun, hdeliv, hcounted⟩ := deliver (T := T) (deliveryEnv_quiet T)
    hinj hT.spends (deliveryEnv_request hT.outputs hT.inputs hT.spends) votes (by
      intro v hv
      obtain ⟨o, ho, mn, hmn, rfl⟩ := hmem.1 hv
      exact ⟨rfl, ho, deliveryEnv_isValid hQ T hmn⟩)
  refine ⟨_, s, fun ev hev => ?_, hrun, ready_of_counted hdeliv hT.spends (signers Q signed T.hash) hT.signatures ?_⟩
  · have henv : ev.1 = deliveryEnv Q signed T := by
      rcases List.mem_cons.1 hev with rfl | hev
      · rfl
      · obtain ⟨v, -, rfl⟩ := List.mem_map.1 hev
        rfl
    rw [henv]
    exact deliveryEnv_respects T
  · intro o ho mn hmn
    exact ⟨_, hcounted _ (hmem.2 ⟨o, ho, mn, hmn, rfl⟩), rfl, rfl, rfl⟩

/-! ## Agreement -/

/-- No two nodes hold ready candidates for both transactions, whatever each receives. -/
def Agreement (voteHash : Uint256 → COutPoint → COutPoint → Uint256) (Q : COutPoint → Finset COutPoint)
    (signed : COutPoint → Uint256 → COutPoint → Prop) (T₁ T₂ : CTransaction) : Prop :=
  ∀ es₁ es₂ s₁ s₂, (∀ ev ∈ es₁, ev.1.Respects Q signed) → (∀ ev ∈ es₂, ev.1.Respects Q signed) →
    run (step voteHash) init es₁ = some s₁ → run (step voteHash) init es₂ = some s₂ → ¬ (Ready s₁ T₁ ∧ Ready s₂ T₂)

/-- Agreement on two transactions that share an outpoint fails exactly when the signers
    suffice for both; its quorum is then split in half. -/
theorem agreement_iff (hinj : ∀ t o mn t' o' mn', voteHash t o mn = voteHash t' o' mn' → t = t' ∧ o = o' ∧ mn = mn')
    (hQ : ∀ o, ((Q o).card : Int) = signaturesTotal) (T₁ T₂ : CTransaction) (o : COutPoint)
    (ho₁ : o ∈ CTransaction.prevouts T₁) (ho₂ : o ∈ CTransaction.prevouts T₂)
    (honest : ∀ mn ∈ Q o, ¬ (signed mn T₁.hash o ∧ signed mn T₂.hash o)) :
    (Agreement voteHash Q signed T₁ T₂ ↔ ¬ (Lockable Q signed T₁ ∧ Lockable Q signed T₂)) ∧
    (Lockable Q signed T₁ ∧ Lockable Q signed T₂ →
      (signers Q signed T₁.hash o).card = signaturesRequired ∧ (signers Q signed T₂.hash o).card = signaturesRequired ∧
        signers Q signed T₁.hash o ∪ signers Q signed T₂.hash o = Q o) := by
  refine ⟨⟨fun hagree ⟨h₁, h₂⟩ => ?_, fun hno es₁ es₂ s₁ s₂ henv₁ henv₂ hrun₁ hrun₂ ⟨hr₁, hr₂⟩ => ?_⟩, fun ⟨h₁, h₂⟩ => ?_⟩
  · obtain ⟨es₁, s₁, henv₁, hrun₁, hready₁⟩ := lockable_ready hinj hQ h₁
    obtain ⟨es₂, s₂, henv₂, hrun₂, hready₂⟩ := lockable_ready hinj hQ h₂
    exact hagree es₁ es₂ s₁ s₂ henv₁ henv₂ hrun₁ hrun₂ ⟨hready₁, hready₂⟩
  · exact hno ⟨ready_lockable henv₁ hrun₁ hr₁, ready_lockable henv₂ hrun₂ hr₂⟩
  · have hsub (txHash : Uint256) : signers Q signed txHash o ⊆ Q o := fun _ hmn => ((mem_signers Q signed).1 hmn).1
    have hdisj : Disjoint (signers Q signed T₁.hash o) (signers Q signed T₂.hash o) := by
      rw [Finset.disjoint_left]
      intro mn h₁ h₂
      obtain ⟨hin, hs₁⟩ := (mem_signers Q signed).1 h₁
      exact honest mn hin ⟨hs₁, ((mem_signers Q signed).1 h₂).2⟩
    have htotal := hQ o
    simp only [signaturesTotal] at htotal
    exact even_split (hsub _) (hsub _) hdisj (h₁.signatures o ho₁) (h₂.signatures o ho₂)
      (by simp only [signaturesRequired]; omega)

/-! ## A split quorum

  Masternodes 1 to 10 sign payment 1 and masternodes 11 to 20 sign payment 2, which
  spend the same outpoint. -/

def splitQuorum (_ : COutPoint) : Finset COutPoint := ((List.range 20).map fun k => masternode (k + 1)).toFinset

def splitSigned (mn : COutPoint) (txHash : Uint256) (_ : COutPoint) : Prop :=
  (txHash = 1 ∧ mn.n % 256 ≤ 10) ∨ (txHash = 2 ∧ 10 < mn.n % 256)

theorem splitQuorum_card (_ : COutPoint) : ((splitQuorum .null).card : Int) = signaturesTotal := by decide +revert

theorem split_honest (mn o : COutPoint) : ¬ (splitSigned mn 1 o ∧ splitSigned mn 2 o) := by
  intro hboth
  rcases hboth with ⟨⟨-, h₁⟩ | ⟨h, -⟩, ⟨h', -⟩ | ⟨-, h₂⟩⟩
  · cases h'
  · omega
  · cases h
  · cases h

theorem pairHash_inj (t : Uint256) (o mn : COutPoint) (t' : Uint256) (o' mn' : COutPoint)
    (h : pairHash t o mn = pairHash t' o' mn') : t = t' ∧ o = o' ∧ mn = mn' := by
  simp only [pairHash, Nat.pair_eq_pair] at h
  obtain ⟨rfl, ⟨ho, hn⟩, hm, hk⟩ := h
  cases o; cases o'; cases mn; cases mn'
  simp_all

theorem agreement_iff_split :
    Agreement pairHash splitQuorum splitSigned (payment 1 ⟨5, 0⟩) (payment 2 ⟨5, 0⟩) ↔
      ¬ (Lockable splitQuorum splitSigned (payment 1 ⟨5, 0⟩) ∧ Lockable splitQuorum splitSigned (payment 2 ⟨5, 0⟩)) :=
  (agreement_iff pairHash_inj splitQuorum_card (payment 1 ⟨5, 0⟩) (payment 2 ⟨5, 0⟩) ⟨5, 0⟩ (by decide) (by decide)
    fun mn _ => split_honest mn ⟨5, 0⟩).1

def splitNetwork : Env :=
  { network with
    verifyMessage := fun pubKey sig m => match pubKey with
      | [k] => sig == pubKey && ((m.1 == 1 && k ≤ 10) || (m.1 == 2 && 10 < k))
      | _ => false }

def splitTrace (txHash : Uint256) (ks : List Nat) : List (Env × Event) :=
  (splitNetwork, .txLockRequest (payment txHash ⟨5, 0⟩)) ::
    ks.map fun k => (splitNetwork, .txLockVote 70000 (signedVote k txHash ⟨5, 0⟩))

theorem splitNetwork_respects : splitNetwork.Respects splitQuorum splitSigned := by
  constructor
  · intro o mn nHeight _ hne hle
    simp only [splitNetwork, network] at hne hle
    split at hne
    · rename_i h
      rw [if_pos h] at hle
      simp only [signaturesTotal] at hle
      simp only [splitQuorum, List.mem_toFinset, List.mem_map, List.mem_range]
      refine ⟨mn.n - 1, by omega, ?_⟩
      rw [show mn.n - 1 + 1 = mn.n by omega]
      cases mn
      simp_all [masternode]
    · exact absurd rfl hne
  · intro mn pubKey sig txHash o hinfo hverify
    simp only [splitNetwork, network] at hinfo hverify
    split at hinfo
    · cases hinfo
      simpa [splitSigned, UInt8.le_iff_toNat_le, UInt8.lt_iff_toNat_lt] using (Bool.and_eq_true_iff.1 hverify).2
    · cases hinfo

def hasReady (s : CInstantSend) (T : CTransaction) : Bool :=
  (s.mapTxLockCandidates[T.hash]?).any fun c => c.txLockRequest.toCTransaction == T && c.isAllOutPointsReady

theorem ready_of_hasReady {T : CTransaction} (h : hasReady s T = true) : Ready s T := by
  obtain ⟨c, hc, hT⟩ := (Option.any_eq_true _ _).1 h
  obtain ⟨hT, hready⟩ := Bool.and_eq_true_iff.1 hT
  exact ⟨c, hc, eq_of_beq hT, hready⟩

/-- Two nodes, each with the request of one payment and the votes of ten masternodes. -/
theorem even_split_locks_both :
    (∀ o, ((splitQuorum o).card : Int) = signaturesTotal) ∧ (∀ mn o, ¬ (splitSigned mn 1 o ∧ splitSigned mn 2 o)) ∧
      ¬ Agreement pairHash splitQuorum splitSigned (payment 1 ⟨5, 0⟩) (payment 2 ⟨5, 0⟩) := by
  refine ⟨splitQuorum_card, split_honest, fun hagree => ?_⟩
  let es₁ := splitTrace 1 [1, 2, 3, 4, 5, 6, 7, 8, 9, 10]
  let es₂ := splitTrace 2 [11, 12, 13, 14, 15, 16, 17, 18, 19, 20]
  obtain ⟨s₁, hs₁⟩ : ∃ s, run (step pairHash) init es₁ = some s := Option.isSome_iff_exists.1 (by decide)
  obtain ⟨s₂, hs₂⟩ : ∃ s, run (step pairHash) init es₂ = some s := Option.isSome_iff_exists.1 (by decide)
  have h₁ : (run (step pairHash) init es₁).map (hasReady · (payment 1 ⟨5, 0⟩)) = some true := by decide
  have h₂ : (run (step pairHash) init es₂).map (hasReady · (payment 2 ⟨5, 0⟩)) = some true := by decide
  rw [hs₁, Option.map_some, Option.some.injEq] at h₁
  rw [hs₂, Option.map_some, Option.some.injEq] at h₂
  have hrespects (txHash : Uint256) (ks : List Nat) : ∀ ev ∈ splitTrace txHash ks, ev.1.Respects splitQuorum splitSigned := by
    simp only [splitTrace, List.mem_cons, List.mem_map, forall_eq_or_imp]
    refine ⟨splitNetwork_respects, ?_⟩
    rintro _ ⟨k, -, rfl⟩
    exact splitNetwork_respects
  exact hagree es₁ es₂ s₁ s₂ (hrespects 1 _) (hrespects 2 _) hs₁ hs₂ ⟨ready_of_hasReady h₁, ready_of_hasReady h₂⟩

end Zumy.InstantSend
