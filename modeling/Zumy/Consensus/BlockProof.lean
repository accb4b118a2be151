/-
  Zumy.Consensus.BlockProof — pow.cpp: GetBlockProof, the work that a block stands for.

  Proved: for every target that is positive and does not overflow, the work is `2 ^ 256`
  divided by the target and one, rounded down, though that power has no place in 256 bits; no
  operation overflows or divides by zero; and an easier target is less work.
-/
import Zumy.Arith.Compact

namespace Zumy.Consensus

open Zumy.Lib Zumy.Arith

/-- The work of a block by its `nBits`. A division by zero is `none`. -/
def getBlockProof (nBits : Word) : Option ArithUint256 :=
  let decoded := setCompact nBits
  let bnTarget := decoded.target
  if decoded.fNegative || decoded.fOverflow || bnTarget.equalTo 0 then some BaseUint.zero
  else (bnTarget.not.div (bnTarget.add (BaseUint.ofUInt64 1))).map (·.add (BaseUint.ofUInt64 1))

structure PositiveTarget (nBits : Word) : Prop where
  notNegative : (setCompact nBits).fNegative = false
  notOverflow : (setCompact nBits).fOverflow = false
  notZero : compactValue nBits.toNat ≠ 0

variable {n : Word}

theorem value_target (h : PositiveTarget n) : (setCompact n).target.value = compactValue n.toNat := by
  have hnot := (fOverflow_iff n).not.1 (by simp [h.notOverflow])
  rw [value_setCompact, Nat.mod_eq_of_lt (by omega)]

theorem compactValue_succ_lt (h : PositiveTarget n) : compactValue n.toNat + 1 < 2 ^ 256 := by
  have hnot := (fOverflow_iff n).not.1 (by simp [h.notOverflow])
  rcases Nat.lt_or_ge 3 (n.toNat / 2 ^ 24) with hgt | hle
  · -- an even number
    have heven : 2 ∣ compactValue n.toNat := by
      rw [compactValue_eq]
      exact Dvd.dvd.mul_left (dvd_pow_self 2 (by omega)) _
    omega
  · have hlt := wordOf_lt (n := n.toNat)
    rw [compactValue_eq, Nat.sub_eq_zero_of_le hle]
    omega

theorem div_complement {t B : Nat} (h : t + 1 ≤ B) : (B - 1 - t) / (t + 1) + 1 = B / (t + 1) := by
  conv_rhs => rw [show B = B - 1 - t + (t + 1) by omega, Nat.add_div_right _ (Nat.succ_pos t)]

theorem getBlockProof_exact (h : PositiveTarget n) :
    ∃ q : ArithUint256, (setCompact n).target.not.div ((setCompact n).target.add (BaseUint.ofUInt64 1)) = some q ∧
      getBlockProof n = some (q.add (BaseUint.ofUInt64 1)) ∧
      ((setCompact n).target.add (BaseUint.ofUInt64 1)).value = compactValue n.toNat + 1 ∧
      (q.add (BaseUint.ofUInt64 1)).value = q.value + 1 ∧ q.value + 1 = 2 ^ 256 / (compactValue n.toNat + 1) := by
  have hone : (BaseUint.ofUInt64 1 : ArithUint256).value = 1 := BaseUint.value_ofUInt64 (by decide)
  have htarget := value_target h
  have hroom := compactValue_succ_lt h
  have hsucc : ((setCompact n).target.add (BaseUint.ofUInt64 1)).value = compactValue n.toNat + 1 := by
    rw [BaseUint.value_add, hone, htarget]
    exact Nat.mod_eq_of_lt hroom
  obtain ⟨q, hdiv, hq⟩ := BaseUint.value_div (a := (setCompact n).target.not)
    (b := (setCompact n).target.add (BaseUint.ofUInt64 1)) (by omega)
  have hquot : q.value + 1 = 2 ^ 256 / (compactValue n.toNat + 1) := by
    rw [hq, hsucc, BaseUint.value_not, htarget]
    exact div_complement hroom.le
  have hpos := h.notZero
  have hhalf : 2 ^ 256 / (compactValue n.toNat + 1) ≤ 2 ^ 256 / 2 := Nat.div_le_div_left (by omega) (by decide)
  have hlast : (q.add (BaseUint.ofUInt64 1)).value = q.value + 1 := by
    rw [BaseUint.value_add, hone]
    exact Nat.mod_eq_of_lt (by omega)
  have hzero : (setCompact n).target.equalTo 0 = false := by
    rw [← Bool.not_eq_true, BaseUint.equalTo_iff (by decide), htarget]
    exact h.notZero
  refine ⟨q, hdiv, ?_, hsucc, hlast, hquot⟩
  rw [getBlockProof]
  simp only [h.notNegative, h.notOverflow, hzero, hdiv]
  rfl

/-- The work of every positive target, in natural numbers, and its order. -/
theorem getBlockProof_eq (n m : Word) (hn : PositiveTarget n) (hm : PositiveTarget m) :
    ∃ p q r : ArithUint256, getBlockProof n = some p ∧ getBlockProof m = some q ∧
      (setCompact n).target.not.div ((setCompact n).target.add (BaseUint.ofUInt64 1)) = some r ∧
      ((setCompact n).target.add (BaseUint.ofUInt64 1)).value = (setCompact n).target.value + 1 ∧
      p = r.add (BaseUint.ofUInt64 1) ∧ p.value = r.value + 1 ∧
      p.value = 2 ^ 256 / ((setCompact n).target.value + 1) ∧
      ((setCompact n).target.value ≤ (setCompact m).target.value → q.value ≤ p.value) := by
  obtain ⟨r, hdiv, hproof, hsucc, hlast, hquot⟩ := getBlockProof_exact hn
  obtain ⟨r', -, hproof', -, hlast', hquot'⟩ := getBlockProof_exact hm
  refine ⟨_, _, r, hproof, hproof', hdiv, ?_, rfl, hlast, ?_, fun hle => ?_⟩
  · rw [hsucc, value_target hn]
  · rw [hlast, hquot, value_target hn]
  · rw [value_target hn, value_target hm] at hle
    rw [hlast, hlast', hquot, hquot']
    exact Nat.div_le_div_left (Nat.succ_le_succ hle) (Nat.succ_pos _)

theorem getBlockProof_sample : ∃ p q r : ArithUint256, getBlockProof 0x1e0fffff = some p ∧ getBlockProof 0x1f00ffff = some q ∧
    (setCompact 0x1e0fffff).target.not.div ((setCompact 0x1e0fffff).target.add (BaseUint.ofUInt64 1)) = some r ∧
    ((setCompact 0x1e0fffff).target.add (BaseUint.ofUInt64 1)).value = (setCompact 0x1e0fffff).target.value + 1 ∧
    p = r.add (BaseUint.ofUInt64 1) ∧ p.value = r.value + 1 ∧
    p.value = 2 ^ 256 / ((setCompact 0x1e0fffff).target.value + 1) ∧
    ((setCompact 0x1e0fffff).target.value ≤ (setCompact 0x1f00ffff).target.value → q.value ≤ p.value) :=
  getBlockProof_eq 0x1e0fffff 0x1f00ffff ⟨by decide, by decide, by decide⟩ ⟨by decide, by decide, by decide⟩

end Zumy.Consensus
