/-
  Zumy.Payments.DevFund — the check of the development fund in `ConnectBlock` (main.cpp).

  `IsFundRewardValid` reads the outputs 1 and 2 of the coinbase, whatever their number. The
  checks of masternode and superblock payments search all outputs.
-/
import Zumy.Payments.CoinbaseAccepted

namespace Zumy.Payments.RewardState

variable {n : RewardState} {vout : List CTxOut} {txNew : CTransaction} {nTime now : Int} {nFees : CAmount}

/-- The fund check of `ConnectBlock`. -/
def devFundCheck (n : RewardState) (vout : List CTxOut) : Option Bool :=
  if n.requiresDevFund then n.isFundRewardValid vout devPayment else some true

def requiredDevOut (n : RewardState) : CTxOut := ⟨devPayment, n.addressScript n.requiredDevAddress⟩

def PaysDevFund (n : RewardState) (vout : List CTxOut) : Prop := n.requiresDevFund = true → n.requiredDevOut ∈ vout

/-- The check reads no output that is missing, and takes the coinbases that pay the fund. -/
def DevFundChecked (n : RewardState) (vout : List CTxOut) : Prop :=
  ∃ fValid, n.devFundCheck vout = some fValid ∧ (fValid = true ↔ n.PaysDevFund vout)

theorem isFundRewardValid_eq_none_iff : n.isFundRewardValid vout devPayment = none ↔ vout.length < 3 := by
  unfold isFundRewardValid
  dsimp only
  split
  · rename_i out1 out2 hout1 hout2
    have hlt : 2 < vout.length := (List.getElem?_eq_some_iff.1 hout2).1
    exact iff_of_false (fun h => by cases h) (by omega)
  · rename_i hmissing
    refine iff_of_true rfl ?_
    by_contra hlt
    have hone : 1 < vout.length := by omega
    have htwo : 2 < vout.length := by omega
    exact hmissing vout[1] vout[2] (List.getElem?_eq_getElem hone) (List.getElem?_eq_getElem htwo)

theorem isFundRewardValid_eq_true_iff : n.isFundRewardValid vout devPayment = some true ↔
    3 ≤ vout.length ∧ (vout[1]? = some n.requiredDevOut ∨ vout[2]? = some n.requiredDevOut) := by
  have hout (out : CTxOut) : (out.scriptPubKey == n.addressScript n.requiredDevAddress && out.nValue == devPayment) = true ↔
      out = n.requiredDevOut := by
    obtain ⟨nValue, scriptPubKey⟩ := out
    rw [Bool.and_eq_true, beq_iff_eq, beq_iff_eq, requiredDevOut, CTxOut.mk.injEq]
    exact and_comm
  cases hlength : decide (vout.length < 3) with
  | true =>
    rw [decide_eq_true_eq] at hlength
    rw [isFundRewardValid_eq_none_iff.2 hlength]
    exact iff_of_false (fun h => by cases h) (fun h => by omega)
  | false =>
    rw [decide_eq_false_iff_not] at hlength
    have hone : 1 < vout.length := by omega
    have htwo : 2 < vout.length := by omega
    have hout1 : vout[1]? = some vout[1] := List.getElem?_eq_getElem hone
    have hout2 : vout[2]? = some vout[2] := List.getElem?_eq_getElem htwo
    unfold isFundRewardValid
    rw [hout1, hout2]
    dsimp only
    rw [Option.some.injEq, Bool.or_eq_true, hout, hout, Option.some.injEq, Option.some.injEq, or_comm]
    exact ⟨fun h => ⟨by omega, h⟩, fun h => h.2⟩

/-- Exactly these coinbases are checked right: the fund is not asked for, or there are three outputs and the
    payment, if it is among them, is output 1 or 2. -/
theorem dev_fund_checked_iff (n : RewardState) (vout : List CTxOut) : n.DevFundChecked vout ↔
    n.requiresDevFund = false ∨ (3 ≤ vout.length ∧
      (n.requiredDevOut ∈ vout → vout[1]? = some n.requiredDevOut ∨ vout[2]? = some n.requiredDevOut)) := by
  unfold DevFundChecked devFundCheck PaysDevFund
  cases hrequires : n.requiresDevFund with
  | false =>
    rw [if_neg Bool.false_ne_true]
    exact iff_of_true ⟨true, rfl, iff_of_true rfl fun h => by cases h⟩ (.inl rfl)
  | true =>
    have hmem : (vout[1]? = some n.requiredDevOut ∨ vout[2]? = some n.requiredDevOut) → n.requiredDevOut ∈ vout :=
      fun h => h.elim List.mem_of_getElem? List.mem_of_getElem?
    rw [if_pos rfl]
    constructor
    · rintro ⟨fValid, hcheck, hpays⟩
      right
      have hlength : 3 ≤ vout.length := by
        by_contra hshort
        rw [isFundRewardValid_eq_none_iff.2 (by omega)] at hcheck
        cases hcheck
      refine ⟨hlength, fun hin => ?_⟩
      rw [hpays.2 fun _ => hin] at hcheck
      exact (isFundRewardValid_eq_true_iff.1 hcheck).2
    · rintro (hno | ⟨hlength, hplace⟩)
      · cases hno
      · obtain ⟨fValid, hcheck⟩ : ∃ fValid, n.isFundRewardValid vout devPayment = some fValid := by
          apply Option.ne_none_iff_exists'.1
          rw [Ne, isFundRewardValid_eq_none_iff]
          omega
        refine ⟨fValid, hcheck, ?_⟩
        rw [← Option.some.injEq fValid true, ← hcheck, isFundRewardValid_eq_true_iff]
        exact ⟨fun h _ => hmem h.2, fun h => ⟨hlength, hplace (h rfl)⟩⟩

/-! ## The test network at height 30001 -/

/-- The fund is paid there by the second output, or by the fourth. -/
theorem dev_fund_misread : ¬ testNet30000.DevFundChecked [⟨coin, [1]⟩, testNet30000.requiredDevOut] ∧
    ¬ testNet30000.DevFundChecked [⟨coin, [1]⟩, ⟨0, [2]⟩, ⟨0, [3]⟩, testNet30000.requiredDevOut] := by
  constructor
  · rintro ⟨fValid, hcheck, -⟩
    have hfault : testNet30000.devFundCheck [⟨coin, [1]⟩, testNet30000.requiredDevOut] = none := by decide +kernel
    rw [hfault] at hcheck
    cases hcheck
  · rintro ⟨fValid, hcheck, hpays⟩
    have hrefused : testNet30000.devFundCheck
        [⟨coin, [1]⟩, ⟨0, [2]⟩, ⟨0, [3]⟩, testNet30000.requiredDevOut] = some false := by decide +kernel
    rw [hrefused] at hcheck
    cases hcheck
    have htrue : false = true := hpays.2 fun _ => by simp
    cases htrue

end Zumy.Payments.RewardState
