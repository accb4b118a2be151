/-
  Zumy.Governance.SuperblockPayments — what a superblock pays and what is accepted.

  `CSuperblock::IsValid` looks for the payments in the order of the outputs, but sets its
  resume index to the output it found and not to the next one, so one output can stand
  for several equal payments in a row. `CreateSuperblock` does not look at the payments limit,
  which `IsValid` checks.

  - `valid_superblock_matched_iff`: the superblocks whose payments are each matched by an
    output of their own in every coinbase that is valid for them.
  - `one_output_for_two_payments`: two equal payments accepted with one output.
  - `created_superblock_valid_iff`: a created coinbase is valid exactly when its payments
    stay within the limit.
  - `created_superblock_refused`: a created coinbase that is refused.
-/
import Zumy.Governance.Superblock
import Zumy.Governance.Manager
import Zumy.Lib.Scan
import Mathlib.Data.List.NodupEquivFin
import Mathlib.Data.Fintype.EquivFin
import Mathlib.Algebra.Order.BigOperators.Group.List
import Mathlib.Algebra.Order.Ring.Int

namespace Zumy.Governance

open Lib List

variable {cs : ConsensusParams} {sb : CSuperblock} {nBlockHeight : Int} {blockReward : CAmount}

namespace CSuperblock

def outputs (sb : CSuperblock) : List CTxOut := sb.vecPayments.map CGovernancePayment.toTxOut

def Matched (sb : CSuperblock) (vout : List CTxOut) : Prop :=
  ∃ f : Fin sb.vecPayments.length → Fin vout.length, StrictMono f ∧
    ∀ i, (vout.get (f i)).scriptPubKey = (sb.vecPayments.get i).script ∧ (vout.get (f i)).nValue = (sb.vecPayments.get i).nAmount

theorem length_outputs (sb : CSuperblock) : sb.outputs.length = sb.vecPayments.length := length_map _

theorem get_outputs (sb : CSuperblock) (i : Fin sb.outputs.length) :
    sb.outputs.get i = (sb.vecPayments.get (i.cast sb.length_outputs)).toTxOut :=
  getElem_map CGovernancePayment.toTxOut

theorem matched_iff {vout : List CTxOut} : sb.Matched vout ↔ sb.outputs <+ vout := by
  rw [sublist_iff_exists_fin_orderEmbedding_get_eq]
  constructor
  · intro h
    rcases h with ⟨f, hmono, hf⟩
    have hmono' : StrictMono fun i : Fin sb.outputs.length => f (i.cast sb.length_outputs) := fun i j hij => hmono hij
    refine ⟨OrderEmbedding.ofStrictMono _ hmono', fun i => ?_⟩
    obtain ⟨hscript, hvalue⟩ := hf (i.cast sb.length_outputs)
    rw [get_outputs]
    exact CTxOut.ext hvalue.symm hscript.symm
  · intro h
    rcases h with ⟨f, hf⟩
    refine ⟨fun i => f (i.cast sb.length_outputs.symm), fun i j hij => f.strictMono hij, fun i => ?_⟩
    rw [← hf, get_outputs]
    exact ⟨rfl, rfl⟩

/-! ## The loop over the payments is a scan -/

theorem toTxOut_eq_iff {p : CGovernancePayment} {out : CTxOut} :
    (p.script = out.scriptPubKey ∧ p.nAmount = out.nValue) ↔ out = p.toTxOut := by
  cases out
  simp [CGovernancePayment.toTxOut, eq_comm, and_comm]

/-- The induction is on the payments; what is left of the outputs starts at `nVoutIndex`. -/
theorem paymentsMatch_eq_scan (vout : List CTxOut) (nVoutIndex : Nat) (ps : List CGovernancePayment) :
    paymentsMatch vout nVoutIndex ps = scan (ps.map CGovernancePayment.toTxOut) (vout.drop nVoutIndex) := by
  induction ps generalizing nVoutIndex with
  | nil => rfl
  | cons p ps ih =>
    simp only [paymentsMatch, toTxOut_eq_iff, map_cons]
    have hdrop : (vout.drop nVoutIndex).dropWhile (fun out => decide (out ≠ p.toTxOut)) =
        (vout.drop nVoutIndex).drop ((vout.drop nVoutIndex).findIdx fun out => !decide (out ≠ p.toTxOut)) :=
      dropWhile_eq_drop_findIdx_not
    simp only [decide_not, Bool.not_not, drop_drop] at hdrop
    generalize hj : (vout.drop nVoutIndex).findIdx (fun out => decide (out = p.toTxOut)) = j at hdrop ⊢
    by_cases hlt : nVoutIndex + j < vout.length
    · rw [if_pos hlt, ih]
      cases hrest : vout.drop (nVoutIndex + j) with
      | nil => exact absurd (drop_eq_nil_iff.1 hrest) (by omega)
      | cons o rest =>
        have hcons : (vout.drop nVoutIndex).dropWhile (· ≠ p.toTxOut) = o :: rest := by
          simpa only [decide_not, hrest] using hdrop
        rw [scan_cons_of_cons _ hcons, dropWhile_ne_eq_cons hcons]
    · rw [if_neg hlt]
      have hnil : (vout.drop nVoutIndex).dropWhile (· ≠ p.toTxOut) = [] := by
        simpa only [decide_not, drop_eq_nil_of_le (by omega : vout.length ≤ nVoutIndex + j)] using hdrop
      exact (scan_cons_of_nil _ hnil).symm

/-! ## Amounts -/

theorem getPaymentsLimit_eq (cs : ConsensusParams) (nBlockHeight : Int) : getPaymentsLimit cs nBlockHeight = 0 := by
  simp [getPaymentsLimit, staticSuperblockAmount]

theorem nAmount_nonneg {p : CGovernancePayment} (hp : p ∈ sb.vecPayments) : 0 ≤ p.nAmount := by
  have h : 0 ≤ p.nAmount ∧ p.nAmount ≤ maxMoney := by simpa [moneyRange] using sb.inRange p hp
  exact h.1

theorem getPaymentsTotalAmount_nonneg (sb : CSuperblock) : 0 ≤ sb.getPaymentsTotalAmount := by
  apply sum_nonneg
  intro x hx
  obtain ⟨p, hp, rfl⟩ := mem_map.1 hx
  exact nAmount_nonneg hp

theorem nAmount_eq_zero (h : sb.getPaymentsTotalAmount ≤ 0) {p : CGovernancePayment} (hp : p ∈ sb.vecPayments) :
    p.nAmount = 0 := by
  have hle : p.nAmount ≤ sb.getPaymentsTotalAmount := by
    refine single_le_sum (fun x hx => ?_) _ (mem_map_of_mem hp)
    obtain ⟨q, hq, rfl⟩ := mem_map.1 hx
    exact nAmount_nonneg hq
  exact le_antisymm (hle.trans h) (nAmount_nonneg hp)

/-! ## An output for each payment -/

theorem isValid_eq_some_true_iff {txNew : CTransaction} : sb.isValid cs txNew nBlockHeight blockReward = some true ↔
    isValidBlockHeight cs nBlockHeight = true ∧ sb.vecPayments.length ≤ txNew.vout.length ∧ sb.getPaymentsTotalAmount ≤ 0 ∧
    (∃ nBlockValue, getValueOut txNew.vout = some nBlockValue ∧ nBlockValue ≤ blockReward + sb.getPaymentsTotalAmount) ∧
    scan sb.outputs txNew.vout = true := by
  have hcount : (txNew.vout.length : Int) - sb.countPayments < 0 ↔ ¬ sb.vecPayments.length ≤ txNew.vout.length := by
    unfold countPayments
    omega
  unfold isValid
  rw [getPaymentsLimit_eq, paymentsMatch_eq_scan, drop_zero]
  simp only [hcount]
  by_cases hheight : isValidBlockHeight cs nBlockHeight = true
  · by_cases hlen : sb.vecPayments.length ≤ txNew.vout.length
    · by_cases htotal : sb.getPaymentsTotalAmount ≤ 0
      · cases hvalue : getValueOut txNew.vout with
        | none => simp [hheight, hlen, not_lt.2 htotal]
        | some nBlockValue =>
          by_cases hle : nBlockValue ≤ blockReward + sb.getPaymentsTotalAmount
          · simp [hheight, hlen, htotal, not_lt.2 htotal, hle, not_lt.2 hle, outputs]
          · simp [hheight, hlen, htotal, not_lt.2 htotal, hle, not_le.1 hle]
      · simp [hheight, hlen, htotal, not_le.1 htotal]
    · simp [hheight, hlen]
  · simp [hheight]

def emptyOutput (script : CScript) : CTxOut := ⟨0, script⟩

theorem exists_other_script (ps : List CGovernancePayment) : ∃ script : CScript, ∀ p ∈ ps, p.script ≠ script := by
  obtain ⟨script, hs⟩ := Infinite.exists_notMem_finset (ps.map (·.script)).toFinset
  refine ⟨script, fun p hp heq => hs ?_⟩
  rw [mem_toFinset, ← heq]
  exact mem_map_of_mem hp

theorem outputs_isChain_iff : sb.outputs.IsChain (· ≠ ·) ↔ sb.vecPayments.IsChain (· ≠ ·) := by
  have hinj (p q : CGovernancePayment) : p.toTxOut ≠ q.toTxOut ↔ p ≠ q := by
    cases p
    cases q
    simp [CGovernancePayment.toTxOut, and_comm]
  rw [outputs, isChain_map]
  simp only [hinj]

/-- A list that shares nothing with the first part of another is in its second part. -/
theorem sublist_of_disjoint {l a b : List CTxOut} (h : l <+ a ++ b) (hdis : ∀ out ∈ l, out ∉ a) : l <+ b := by
  obtain ⟨l₁, l₂, rfl, h₁, h₂⟩ := sublist_append_iff.1 h
  cases l₁ with
  | nil => exact h₂
  | cons out l₁ => exact absurd (h₁.subset mem_cons_self) (hdis out (by simp))

/-- The payments without their repeated neighbours, after outputs that match none of them. -/
theorem exists_valid_not_matched (hheight : isValidBlockHeight cs nBlockHeight = true) (htotal : sb.getPaymentsTotalAmount ≤ 0)
    (hreward : 0 ≤ blockReward) (hrep : ¬ sb.vecPayments.IsChain (· ≠ ·)) :
    ∃ txNew, sb.isValid cs txNew nBlockHeight blockReward = some true ∧ ¬ sb.Matched txNew.vout := by
  obtain ⟨script, hscript⟩ := exists_other_script sb.vecPayments
  let vout := replicate sb.vecPayments.length (emptyOutput script) ++ sb.outputs.destutter (· ≠ ·)
  have hzero : ∀ out ∈ vout, out.nValue = 0 := by
    intro out hout
    rcases mem_append.1 hout with hfill | hpay
    · rw [eq_of_mem_replicate hfill]
      rfl
    · obtain ⟨p, hp, rfl⟩ := mem_map.1 ((destutter_sublist _ sb.outputs).subset hpay)
      exact nAmount_eq_zero htotal hp
  have hbase : getValueOut [] = some 0 := rfl
  have hvalue : getValueOut ([] ++ vout) = some 0 := getValueOut_append_zero hbase hzero
  have hlen : sb.vecPayments.length ≤ vout.length := by simp [vout]
  refine ⟨⟨[], vout, 0⟩, isValid_eq_some_true_iff.2 ⟨hheight, hlen, htotal, ⟨0, hvalue, ?_⟩, ?_⟩, ?_⟩
  · exact add_nonneg hreward sb.getPaymentsTotalAmount_nonneg
  · exact scan_iff.2 (sublist_append_right _ _)
  · rw [matched_iff]
    intro hsub
    refine not_sublist_destutter (mt outputs_isChain_iff.1 hrep) (sublist_of_disjoint hsub fun out hout hfill => ?_)
    obtain ⟨p, hp, rfl⟩ := mem_map.1 hout
    exact hscript p hp (congrArg CTxOut.scriptPubKey (eq_of_mem_replicate hfill))

end CSuperblock

open CSuperblock

theorem valid_superblock_matched_iff (cs : ConsensusParams) (sb : CSuperblock) (nBlockHeight : Int) (blockReward : CAmount) :
    (∀ txNew, sb.isValid cs txNew nBlockHeight blockReward = some true → sb.Matched txNew.vout) ↔
      isValidBlockHeight cs nBlockHeight = false ∨ getPaymentsLimit cs nBlockHeight < sb.getPaymentsTotalAmount ∨
      blockReward < 0 ∨ sb.vecPayments.IsChain (· ≠ ·) := by
  rw [getPaymentsLimit_eq]
  constructor
  · intro hall
    by_contra hnot
    rw [not_or, not_or, not_or, Bool.not_eq_false, not_lt, not_lt] at hnot
    obtain ⟨hheight, htotal, hreward, hrep⟩ := hnot
    obtain ⟨txNew, hvalid, hunmatched⟩ := exists_valid_not_matched hheight htotal hreward hrep
    exact hunmatched (hall txNew hvalid)
  · intro hcond txNew hvalid
    obtain ⟨hheight, -, htotal, ⟨nBlockValue, hvalue, hle⟩, hscan⟩ := isValid_eq_some_true_iff.1 hvalid
    rcases hcond with hheight' | htotal' | hreward | hchain
    · rw [hheight] at hheight'
      cases hheight'
    · exact absurd htotal (not_le.2 htotal')
    · have hnonneg := (moneyRange_iff.1 (getValueOut_range hvalue)).1
      have hneg : blockReward + sb.getPaymentsTotalAmount < 0 := add_neg_of_neg_of_nonpos hreward htotal
      exact absurd (hnonneg.trans hle) (not_le.2 hneg)
    · exact matched_iff.2 (sublist_of_scan (outputs_isChain_iff.2 hchain) hscan)

def twicePaid : CSuperblock := ⟨9, 24, [⟨[5], 0⟩, ⟨[5], 0⟩], by decide⟩

def paidOnce : CTransaction := ⟨[], [⟨coin, [1]⟩, ⟨0, [5]⟩], 0⟩

theorem one_output_for_two_payments :
    twicePaid.isValid testNetParams paidOnce 24 coin = some true ∧ ¬ twicePaid.Matched paidOnce.vout := by
  refine ⟨by decide, ?_⟩
  rw [matched_iff]
  decide

/-! ## Creating a superblock -/

open CSuperblockManager

variable {mapTrigger : Triggers} {mapObjects : Objects} {txNew : CTransaction} {voutSuperblockRet : List CTxOut}

theorem createSuperblock_vout (hbest : getBestSuperblock cs mapTrigger mapObjects nBlockHeight = some sb) :
    (createSuperblock cs mapTrigger mapObjects txNew nBlockHeight voutSuperblockRet).1.vout = txNew.vout ++ sb.outputs := by
  simp [createSuperblock, hbest, outputs]

theorem isValidBlockHeight_of_best (hbest : getBestSuperblock cs mapTrigger mapObjects nBlockHeight = some sb) :
    isValidBlockHeight cs nBlockHeight = true := by
  by_contra h
  simp [getBestSuperblock, h] at hbest

/-- The payments stand at the end of the coinbase, so they are found there; only the limit can refuse them. -/
theorem isValid_appended_iff {base : List CTxOut} (hvout : txNew.vout = base ++ sb.outputs)
    (hheight : isValidBlockHeight cs nBlockHeight = true) {nBaseValue : CAmount} (hbase : getValueOut base = some nBaseValue)
    (hle : nBaseValue ≤ blockReward) : sb.isValid cs txNew nBlockHeight blockReward = some true ↔
      sb.getPaymentsTotalAmount ≤ getPaymentsLimit cs nBlockHeight := by
  rw [isValid_eq_some_true_iff, hvout, getPaymentsLimit_eq]
  constructor
  · intro h
    rcases h with ⟨-, -, htotal, -⟩
    exact htotal
  · intro htotal
    have hlen : sb.vecPayments.length ≤ (base ++ sb.outputs).length := by simp [length_outputs]
    have hzero : ∀ out ∈ sb.outputs, out.nValue = 0 := by
      intro out hout
      obtain ⟨p, hp, rfl⟩ := mem_map.1 hout
      exact nAmount_eq_zero htotal hp
    have hvalue : getValueOut (base ++ sb.outputs) = some nBaseValue := getValueOut_append_zero hbase hzero
    refine ⟨hheight, hlen, htotal, ⟨nBaseValue, hvalue, ?_⟩, scan_append _ _⟩
    exact hle.trans (le_add_of_nonneg_right sb.getPaymentsTotalAmount_nonneg)

theorem created_superblock_valid_iff (hbest : getBestSuperblock cs mapTrigger mapObjects nBlockHeight = some sb)
    {nBaseValue : CAmount} (hbase : getValueOut txNew.vout = some nBaseValue) (hle : nBaseValue ≤ blockReward) :
    sb.isValid cs (createSuperblock cs mapTrigger mapObjects txNew nBlockHeight voutSuperblockRet).1 nBlockHeight blockReward =
      some true ↔ sb.getPaymentsTotalAmount ≤ getPaymentsLimit cs nBlockHeight :=
  isValid_appended_iff (createSuperblock_vout hbest) (isValidBlockHeight_of_best hbest) hbase hle

/-! ## A superblock over the limit -/

def fundTrigger9 : List (Env × Event) :=
  [(network, .updatedBlockTip 20), (network, .addMasternode ⟨masternodeVin 1, [1], ∅⟩),
   (network, .confirmInventoryRequest false 9),
   (network, .governanceObject 70000 9 governanceObjectTrigger 99000 (masternodeVin 1) [] false),
   (network, .ownVote (fundingVote 1 9))]

def fundedObjects : Objects := (fundTrigger9.foldl (next smallHash) .init).governance.mapObjects

def trigger9Pays (nAmount : CAmount) (h : moneyRange nAmount = true) : CSuperblock := ⟨9, 24, [⟨[5], nAmount⟩], by simpa using h⟩

def trigger9Map (nAmount : CAmount) (h : moneyRange nAmount = true) : Triggers := {(9, trigger9Pays nAmount h)}

def oneEnabled : SentinelContext := ⟨1, 1, 100000⟩

def minerOutput : CTransaction := ⟨[], [⟨coin, [1]⟩], 0⟩

theorem created_superblock_refused :
    run (step smallHash) .init fundTrigger9 = some (fundTrigger9.foldl (next smallHash) .init) ∧
    (isSuperblockTriggered testNetParams oneEnabled (trigger9Map coin rfl) fundedObjects 24).1 = true ∧
    getBestSuperblock testNetParams (trigger9Map coin rfl) fundedObjects 24 = some (trigger9Pays coin rfl) ∧
    getValueOut minerOutput.vout = some coin ∧
    (trigger9Pays coin rfl).isValid testNetParams
      (createSuperblock testNetParams (trigger9Map coin rfl) fundedObjects minerOutput 24 []).1 24 coin = some false := by
  exact ⟨rfl, by decide, by decide, by decide, by decide⟩

/-- A payment of nothing is within the limit. -/
theorem created_superblock_valid_trigger9 :
    (trigger9Pays 0 rfl).isValid testNetParams
      (createSuperblock testNetParams (trigger9Map 0 rfl) fundedObjects minerOutput 24 []).1 24 coin = some true ↔
    (trigger9Pays 0 rfl).getPaymentsTotalAmount ≤ getPaymentsLimit testNetParams 24 :=
  created_superblock_valid_iff (by decide) (show getValueOut minerOutput.vout = some coin by decide) (by decide)

end Zumy.Governance
