/-
  Zumy.PrivateSend.SignFinal — privatesend.cpp: SignFinalTransaction, the client's side.

  A client looks for each of its inputs in the transaction that the masternode offers. For one that
  is there it counts the outputs of its entry, each output of the transaction against each of the
  entry, and refuses where the count is too low or the value differs; one that is not there is passed
  over. `SignSignature` is a parameter; its answer is only logged.
-/
import Mathlib.Data.List.Perm.Subperm
import Zumy.PrivateSend.Pool

namespace Zumy.PrivateSend

structure Signer where
  /-- The script that is kept with an own input. -/
  prevPubKey : COutPoint → CScript
  /-- The `scriptSig` that `SignSignature` leaves for an input. -/
  signSignature : CScript → CMutableTransaction → Nat → CScript

def myInputIndex (vin : List CTxIn) (txpsin : CTxIn) : Option Nat :=
  (List.range vin.length).foldl (fun nMyInputIndex i => if vin[i]? == some txpsin then some i else nMyInputIndex) none

/-- `nFoundOutputsCount` and `nValue1` -/
def foundOutputs (vout vecTxPSOut : List CTxOut) : Nat × CAmount :=
  vout.foldl (fun found out =>
    vecTxPSOut.foldl (fun found txout => if out == txout then (found.1 + 1, found.2 + out.nValue) else found) found) (0, 0)

def entryCorrect (vout : List CTxOut) (entry : CPrivateSendEntry) : Bool :=
  let found := foundOutputs vout entry.vecTxPSOut
  !(found.1 < entry.vecTxPSOut.length || found.2 != (entry.vecTxPSOut.map (·.nValue)).sum)

/-- `finalMutableTransaction` and `sigs` -/
abbrev Signing := CMutableTransaction × List CTxIn

/-- One own input; `none` is the refusal. -/
def signInput (signer : Signer) (entry : CPrivateSendEntry) (st : Signing) (txpsin : CTxPSIn) : Option Signing :=
  match myInputIndex st.1.vin txpsin.toCTxIn with
  | none => some st
  | some i =>
    if entryCorrect st.1.vout entry then
      let scriptSig := signer.signSignature (signer.prevPubKey txpsin.prevout) st.1 i
      let vin := st.1.vin.modify i fun txin => { txin with scriptSig }
      some (⟨vin, st.1.vout⟩, st.2 ++ [vin.getD i default])
    else none

def signEntry (signer : Signer) (st : Signing) (entry : CPrivateSendEntry) : Option Signing :=
  entry.vecTxPSIn.foldlM (signInput signer entry) st

structure SignResult where
  fResult : Bool
  pool : CPrivatesendPool
  /-- `UnlockCoins` -/
  fUnlocked : Bool
  /-- The inputs of the message PSSIGNFINALTX. -/
  pushed : Option (List CTxIn)
  deriving DecidableEq, Repr

def signFinalTransaction (signer : Signer) (node : Node) (fMasterNode : Bool) (hasNode : Bool)
    (finalTransactionNew : CMutableTransaction) (pool : CPrivatesendPool) : SignResult :=
  if fMasterNode || !hasNode then ⟨false, pool, false, none⟩
  else
    match pool.vecEntries.foldlM (signEntry signer) (finalTransactionNew, []) with
    | none => ⟨false, CPrivatesendPool.setNull node, true, none⟩
    | some (finalMutableTransaction, sigs) =>
      if sigs.isEmpty then ⟨false, CPrivatesendPool.setNull node, true, none⟩
      else
        let pool := CPrivatesendPool.setState { pool with finalMutableTransaction } .signing
        ⟨true, { pool with nTimeLastSuccessfulStep := node.getTimeMillis }, false, some sigs⟩

/-! ## An own input -/

variable {signer : Signer} {node : Node} {vin : List CTxIn} {txin : CTxIn}

theorem myInputIndex_some {i : Nat} (h : myInputIndex vin txin = some i) : vin[i]? = some txin := by
  have hrun : ∀ k, ∀ i, (List.range k).foldl (fun n i => if vin[i]? == some txin then some i else n) none = some i →
      vin[i]? = some txin := by
    intro k
    induction k with
    | zero =>
      intro i h
      cases h
    | succ k ih =>
      intro i h
      rw [List.range_succ, List.foldl_append, List.foldl_cons, List.foldl_nil] at h
      split at h
      · rename_i heq
        cases h
        exact eq_of_beq heq
      · exact ih i h
  exact hrun _ i h

theorem myInputIndex_eq_none : myInputIndex vin txin = none ↔ txin ∉ vin := by
  have hrun : ∀ k, (List.range k).foldl (fun n i => if vin[i]? == some txin then some i else n) (none : Option Nat) = none ↔
      ∀ i < k, vin[i]? ≠ some txin := by
    intro k
    induction k with
    | zero => simp
    | succ k ih =>
      rw [List.range_succ, List.foldl_append, List.foldl_cons, List.foldl_nil]
      constructor
      · intro h i hi
        split at h
        · cases h
        · rename_i hne
          rcases Nat.lt_succ_iff_lt_or_eq.1 hi with hi | rfl
          · exact ih.1 h i hi
          · simpa using hne
      · intro h
        rw [if_neg (by simpa using h k (Nat.lt_succ_self k))]
        exact ih.2 fun i hi => h i (Nat.lt_succ_of_lt hi)
  rw [myInputIndex, hrun, List.mem_iff_getElem?]
  constructor
  · rintro h ⟨i, hi⟩
    exact h i (List.getElem?_eq_some_iff.1 hi).1 hi
  · intro h i _ hi
    exact h ⟨i, hi⟩

structure Unsigned (offered : CMutableTransaction) (done : List COutPoint) (st : Signing) : Prop where
  vout : st.1.vout = offered.vout
  same : ∀ (i : Nat) (txin : CTxIn), txin.prevout ∉ done → (st.1.vin[i]? = some txin ↔ offered.vin[i]? = some txin)

variable {offered : CMutableTransaction} {done done' : List COutPoint} {st : Signing} {entry : CPrivateSendEntry}
  {txpsin : CTxPSIn} {present wrong : Prop}

theorem Unsigned.mem_iff (h : Unsigned offered done st) (hnew : txin.prevout ∉ done) : txin ∈ st.1.vin ↔ txin ∈ offered.vin := by
  rw [List.mem_iff_getElem?, List.mem_iff_getElem?]
  exact exists_congr fun i => h.same i txin hnew

/-- What comes of some own inputs: a refusal, where one that is present has a wrong entry, or signatures for those present. -/
structure SignOutcome (offered : CMutableTransaction) (done : List COutPoint) (st : Signing) (present wrong : Prop)
    (r : Option Signing) : Prop where
  refused : r = none ↔ wrong
  signed : ∀ st', r = some st' → Unsigned offered done st' ∧ (st'.2 = [] ↔ st.2 = [] ∧ ¬ present)

theorem SignOutcome.start (h : Unsigned offered done st) : SignOutcome offered done st False False (some st) := by
  refine ⟨iff_of_false (Option.some_ne_none _) id, fun st' heq => ?_⟩
  cases heq
  exact ⟨h, by rw [not_false_iff, and_true]⟩

theorem SignOutcome.bind {present' wrong' : Prop} {r : Option Signing} {f : Signing → Option Signing}
    (h : SignOutcome offered done st present wrong r)
    (hnext : ∀ st', Unsigned offered done st' → SignOutcome offered done' st' present' wrong' (f st')) :
    SignOutcome offered done' st (present ∨ present') (wrong ∨ wrong') (r.bind f) := by
  cases hr : r with
  | none =>
    refine ⟨iff_of_true rfl (.inl (h.refused.1 hr)), fun st' heq => ?_⟩
    cases heq
  | some mid =>
    obtain ⟨hunsigned, hsigs⟩ := h.signed mid hr
    have hright : ¬ wrong := fun hwrong => Option.some_ne_none mid (hr.symm.trans (h.refused.2 hwrong))
    have hrest := hnext mid hunsigned
    refine ⟨hrest.refused.trans (or_iff_right hright).symm, fun st' heq => ?_⟩
    obtain ⟨hunsigned', hsigs'⟩ := hrest.signed st' heq
    refine ⟨hunsigned', ?_⟩
    rw [hsigs', hsigs, and_assoc, not_or]

theorem SignOutcome.congr {present' wrong' : Prop} {r : Option Signing} (h : SignOutcome offered done st present wrong r)
    (hpresent : present ↔ present') (hwrong : wrong ↔ wrong') : SignOutcome offered done st present' wrong' r := by
  rwa [← propext hpresent, ← propext hwrong]

theorem signInput_outcome (h : Unsigned offered done st) (hnew : txpsin.prevout ∉ done) :
    SignOutcome offered (done ++ [txpsin.prevout]) st (txpsin.toCTxIn ∈ offered.vin)
      (txpsin.toCTxIn ∈ offered.vin ∧ entryCorrect offered.vout entry = false) (signInput signer entry st txpsin) := by
  have hpresent : txpsin.toCTxIn ∈ st.1.vin ↔ txpsin.toCTxIn ∈ offered.vin := h.mem_iff hnew
  unfold signInput
  cases hindex : myInputIndex st.1.vin txpsin.toCTxIn with
  | none =>
    have habsent : txpsin.toCTxIn ∉ offered.vin := fun hin => myInputIndex_eq_none.1 hindex (hpresent.2 hin)
    refine ⟨iff_of_false (Option.some_ne_none _) fun hwrong => habsent hwrong.1, fun st' heq => ?_⟩
    cases heq
    refine ⟨⟨h.vout, fun i txin hdone => h.same i txin fun hin => hdone (List.mem_append_left _ hin)⟩, ?_⟩
    exact (and_iff_left habsent).symm
  | some i =>
    have hget := myInputIndex_some hindex
    have hin : txpsin.toCTxIn ∈ offered.vin := hpresent.1 (List.mem_of_getElem? hget)
    rw [h.vout]
    dsimp only
    cases hcorrect : entryCorrect offered.vout entry with
    | false => exact ⟨iff_of_true rfl ⟨hin, rfl⟩, fun st' heq => by cases heq⟩
    | true =>
      rw [if_pos rfl]
      refine ⟨iff_of_false (Option.some_ne_none _) fun hwrong => Bool.noConfusion hwrong.2, fun st' heq => ?_⟩
      cases heq
      refine ⟨⟨rfl, fun j txin hdone => ?_⟩, ?_⟩
      · -- only the own input is changed, and its outpoint stays
        rw [List.mem_append, List.mem_singleton, not_or] at hdone
        rw [← h.same j txin hdone.1]
        by_cases hij : i = j
        · subst hij
          rw [List.getElem?_modify_eq, hget]
          constructor
          · intro heq
            cases heq
            exact absurd rfl hdone.2
          · intro heq
            cases heq
            exact absurd rfl hdone.2
        · rw [List.getElem?_modify_ne _ _ hij]
      · exact iff_of_false (List.append_ne_nil_of_right_ne_nil _ (List.cons_ne_nil _ _)) fun hno => hno.2 hin

theorem signEntry_outcome {vecTxPSIn : List CTxPSIn} (h : Unsigned offered done st)
    (hnew : (done ++ vecTxPSIn.map (·.prevout)).Nodup) :
    SignOutcome offered (done ++ vecTxPSIn.map (·.prevout)) st (∃ txpsin ∈ vecTxPSIn, txpsin.toCTxIn ∈ offered.vin)
      ((∃ txpsin ∈ vecTxPSIn, txpsin.toCTxIn ∈ offered.vin) ∧ entryCorrect offered.vout entry = false)
      (vecTxPSIn.foldlM (signInput signer entry) st) := by
  induction vecTxPSIn generalizing done st with
  | nil =>
    rw [List.map_nil, List.append_nil]
    exact (SignOutcome.start h).congr (by simp) (by simp)
  | cons txpsin vecTxPSIn ih =>
    rw [List.map_cons, List.append_cons] at hnew ⊢
    have hfirst : txpsin.prevout ∉ done := by
      intro hin
      exact (List.nodup_append.1 (List.nodup_append.1 hnew).1).2.2 _ hin _ (List.mem_singleton_self _) rfl
    rw [List.foldlM_cons]
    refine ((signInput_outcome h hfirst).bind fun st' h' => ih h' hnew).congr ?_ ?_
    · simp only [List.mem_cons, exists_eq_or_imp]
    · simp only [List.mem_cons, exists_eq_or_imp]
      exact or_and_right.symm

def Present (offered : CMutableTransaction) (entry : CPrivateSendEntry) : Prop :=
  ∃ txpsin ∈ entry.vecTxPSIn, txpsin.toCTxIn ∈ offered.vin

def ownOutpoints (vecEntries : List CPrivateSendEntry) : List COutPoint :=
  vecEntries.flatMap fun entry => entry.vecTxPSIn.map (·.prevout)

theorem signEntries_outcome (signer : Signer) {vecEntries : List CPrivateSendEntry} (h : Unsigned offered done st)
    (hnew : (done ++ ownOutpoints vecEntries).Nodup) :
    SignOutcome offered (done ++ ownOutpoints vecEntries) st (∃ entry ∈ vecEntries, Present offered entry)
      (∃ entry ∈ vecEntries, Present offered entry ∧ entryCorrect offered.vout entry = false)
      (vecEntries.foldlM (signEntry signer) st) := by
  induction vecEntries generalizing done st with
  | nil =>
    rw [ownOutpoints, List.flatMap_nil, List.append_nil]
    exact (SignOutcome.start h).congr (by simp) (by simp)
  | cons entry vecEntries ih =>
    rw [ownOutpoints, List.flatMap_cons, ← List.append_assoc] at hnew ⊢
    rw [List.foldlM_cons]
    have hone : SignOutcome offered (done ++ entry.vecTxPSIn.map (·.prevout)) st (Present offered entry)
        (Present offered entry ∧ entryCorrect offered.vout entry = false) (signEntry signer st entry) :=
      signEntry_outcome h (List.nodup_append.1 hnew).1
    refine (hone.bind fun st' h' => ih h' hnew).congr ?_ ?_
    · simp only [List.mem_cons, exists_eq_or_imp]
    · simp only [List.mem_cons, exists_eq_or_imp]

/-! ## The transaction -/

structure MixingClient extends CPrivatesendPool where
  distinct : (ownOutpoints vecEntries).Nodup

variable {client : MixingClient} {fMasterNode hasNode : Bool}

/-- Signatures are pushed when an own input is there, and every entry with such an input is counted right. -/
theorem pushes_iff (signer : Signer) (node : Node) (fMasterNode hasNode : Bool) (offered : CMutableTransaction)
    (client : MixingClient) :
    (signFinalTransaction signer node fMasterNode hasNode offered client.toCPrivatesendPool).pushed.isSome = true ↔
      (fMasterNode = false ∧ hasNode = true) ∧ (∃ entry ∈ client.vecEntries, Present offered entry) ∧
        ∀ entry ∈ client.vecEntries, Present offered entry → entryCorrect offered.vout entry = true := by
  have hall : SignOutcome offered ([] ++ ownOutpoints client.vecEntries) (offered, []) _ _ _ :=
    signEntries_outcome signer ⟨rfl, fun i txin _ => Iff.rfl⟩ client.distinct
  have hwrong : (¬ ∃ entry ∈ client.vecEntries, Present offered entry ∧ entryCorrect offered.vout entry = false) ↔
      ∀ entry ∈ client.vecEntries, Present offered entry → entryCorrect offered.vout entry = true := by
    simp only [not_exists, not_and, Bool.not_eq_false]
  unfold signFinalTransaction
  by_cases hclient : fMasterNode = false ∧ hasNode = true
  · rw [if_neg (by rw [hclient.1, hclient.2]; exact Bool.false_ne_true), and_iff_right hclient, ← hwrong]
    cases hrun : client.vecEntries.foldlM (signEntry signer) (offered, []) with
    | none => exact iff_of_false Bool.false_ne_true fun h => h.2 (hall.refused.1 hrun)
    | some st =>
      obtain ⟨-, hsigs⟩ := hall.signed st hrun
      have hright := fun hno => Option.some_ne_none st (hrun.symm.trans (hall.refused.2 hno))
      obtain ⟨tx, sigs⟩ := st
      dsimp only at hsigs ⊢
      rw [eq_self_iff_true, true_and] at hsigs
      rw [and_iff_left hright]
      split
      · rename_i hempty
        exact iff_of_false Bool.false_ne_true (hsigs.1 (List.isEmpty_iff.1 hempty))
      · rename_i hne
        refine iff_of_true rfl ?_
        by_contra hno
        exact hne (List.isEmpty_iff.2 (hsigs.2 hno))
  · rw [if_pos (by grind)]
    exact iff_of_false Bool.false_ne_true fun h => hclient h.1

/-- All own inputs are there, each once, and all own outputs, each in a place of its own. -/
structure Complete (vecEntries : List CPrivateSendEntry) (offered : CMutableTransaction) : Prop where
  inputs : ∀ entry ∈ vecEntries, ∀ txpsin ∈ entry.vecTxPSIn, offered.vin.count txpsin.toCTxIn = 1
  outputs : (vecEntries.flatMap (·.vecTxPSOut)).Subperm offered.vout

def SignsWell (signer : Signer) (node : Node) (fMasterNode hasNode : Bool) (offered : CMutableTransaction)
    (client : MixingClient) : Prop :=
  ∀ sigs, (signFinalTransaction signer node fMasterNode hasNode offered client.toCPrivatesendPool).pushed = some sigs →
    Complete client.vecEntries offered

/-- No own input is passed over or found twice, and no own output is there less often than it is expected. -/
structure NothingMissed (vecEntries : List CPrivateSendEntry) (offered : CMutableTransaction) : Prop where
  found : ∀ entry ∈ vecEntries, ∀ txpsin ∈ entry.vecTxPSIn, myInputIndex offered.vin txpsin.toCTxIn ≠ none
  once : ∀ entry ∈ vecEntries, ∀ txpsin ∈ entry.vecTxPSIn, offered.vin.count txpsin.toCTxIn ≤ 1
  covered : ∀ entry ∈ vecEntries, ∀ txout ∈ entry.vecTxPSOut,
    (vecEntries.flatMap (·.vecTxPSOut)).count txout ≤ offered.vout.count txout

theorem complete_iff {vecEntries : List CPrivateSendEntry} : Complete vecEntries offered ↔ NothingMissed vecEntries offered := by
  constructor
  · intro h
    refine ⟨fun entry he txpsin ht => ?_, fun entry he txpsin ht => (h.inputs entry he txpsin ht).le,
      fun entry _ txout _ => h.outputs.count_le txout⟩
    rw [Ne, myInputIndex_eq_none, not_not]
    exact List.count_pos_iff.1 (by rw [h.inputs entry he txpsin ht]; exact Nat.one_pos)
  · intro h
    refine ⟨fun entry he txpsin ht => ?_, List.subperm_ext_iff.2 fun txout hin => ?_⟩
    · have hfound := h.found entry he txpsin ht
      rw [Ne, myInputIndex_eq_none, not_not] at hfound
      have hpos := List.count_pos_iff.2 hfound
      have hle := h.once entry he txpsin ht
      omega
    · obtain ⟨entry, he, htxout⟩ := List.mem_flatMap.1 hin
      exact h.covered entry he txout htxout

def twoInputs (vecTxPSOut : List CTxOut) : MixingClient where
  vecSessionCollaterals := []
  vecEntries := [.read [⟨⟨1, 0⟩, [], 4294967295⟩, ⟨⟨1, 1⟩, [], 4294967295⟩] vecTxPSOut ⟨⟨[], [], 0⟩, 0⟩]
  nState := .acceptingEntries
  nTimeLastSuccessfulStep := 0
  nSessionID := 1
  nSessionDenom := 3
  finalMutableTransaction := ⟨[], []⟩
  distinct := show ([⟨1, 0⟩, ⟨1, 1⟩] : List COutPoint).Nodup by decide

theorem signs_twoInputs {vecTxPSOut vout : List CTxOut} (hvin : (⟨⟨1, 0⟩, [], 4294967295⟩ : CTxIn) ∈ vin)
    (hcorrect : ∀ entry ∈ (twoInputs vecTxPSOut).vecEntries, entryCorrect vout entry = true)
    (hwell : SignsWell signer node false true ⟨vin, vout⟩ (twoInputs vecTxPSOut)) :
    Complete (twoInputs vecTxPSOut).vecEntries ⟨vin, vout⟩ := by
  have hpresent : ∃ entry ∈ (twoInputs vecTxPSOut).vecEntries, Present ⟨vin, vout⟩ entry :=
    ⟨_, List.mem_singleton_self _, _, List.mem_cons_self .., hvin⟩
  have hpushed := (pushes_iff signer node false true ⟨vin, vout⟩ (twoInputs vecTxPSOut)).2
    ⟨⟨rfl, rfl⟩, hpresent, fun entry he _ => hcorrect entry he⟩
  obtain ⟨sigs, hsigs⟩ := Option.isSome_iff_exists.1 hpushed
  exact hwell sigs hsigs

end Zumy.PrivateSend
