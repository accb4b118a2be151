/-
  Zumy.Lib.BitString — bytes as a string of bits, the highest bit of each byte first.

  - `eq_of_bitAt`: bytes with the same bits are the same.
  - `testBit_readBits`, `readBits_lt`: a number read off a string has its bits.
  - `bitAt_setBit`: what setting one bit changes.
  - `and_eq_and_iff`: bytes that agree under a mask.
-/
import Mathlib.Data.Nat.Bitwise

namespace Zumy.Lib

variable {l l' : List UInt8} {p q k : Nat} {f : Nat → Bool}

def bitAt (l : List UInt8) (p : Nat) : Bool := (l.getD (p / 8) 0).toNat.testBit (7 - p % 8)

def highBit (x : UInt8) (k : Nat) : Bool := x.toNat.testBit (7 - k)

theorem eq_of_highBit {x y : UInt8} (h : ∀ k < 8, highBit x k = highBit y k) : x = y := by
  apply UInt8.toNat_inj.1
  apply Nat.eq_of_testBit_eq
  intro i
  rcases Nat.lt_or_ge i 8 with hi | hi
  · have hbit := h (7 - i) (by omega)
    rwa [highBit, highBit, show 7 - (7 - i) = i by omega] at hbit
  · have hpow : 2 ^ 8 ≤ 2 ^ i := Nat.pow_le_pow_right (by decide) hi
    rw [Nat.testBit_lt_two_pow (x.toNat_lt.trans_le hpow), Nat.testBit_lt_two_pow (y.toNat_lt.trans_le hpow)]

theorem bitAt_eq (hk : k < 8) : bitAt l (8 * p + k) = highBit (l.getD p 0) k := by
  rw [bitAt, highBit, Nat.mul_add_div (by decide), Nat.mul_add_mod, Nat.div_eq_of_lt hk, Nat.mod_eq_of_lt hk, Nat.add_zero]

theorem eq_of_bitAt (hlen : l.length = l'.length) (h : ∀ p < 8 * l.length, bitAt l p = bitAt l' p) : l = l' := by
  apply List.ext_getElem hlen
  intro i hi hi'
  apply eq_of_highBit
  intro k hk
  have hbit := h (8 * i + k) (by omega)
  rw [bitAt_eq hk, bitAt_eq hk, List.getD_eq_getElem?_getD, List.getD_eq_getElem?_getD, List.getElem?_eq_getElem hi,
    List.getElem?_eq_getElem hi'] at hbit
  exact hbit

theorem bitAt_append_left (h : p < 8 * l.length) : bitAt (l ++ l') p = bitAt l p := by
  rw [bitAt, bitAt, List.getD_eq_getElem?_getD, List.getD_eq_getElem?_getD, List.getElem?_append_left (by omega)]

theorem bitAt_append_right : bitAt (l ++ l') (8 * l.length + p) = bitAt l' p := by
  have hdiv : (8 * l.length + p) / 8 = l.length + p / 8 := by omega
  have hmod : (8 * l.length + p) % 8 = p % 8 := by omega
  rw [bitAt, bitAt, hdiv, hmod, List.getD_eq_getElem?_getD, List.getD_eq_getElem?_getD,
    List.getElem?_append_right (Nat.le_add_right _ _), Nat.add_sub_cancel_left]

theorem bitAt_append_singleton {x : UInt8} (hk : k < 8) : bitAt (l ++ [x]) (8 * l.length + k) = highBit x k := by
  have hbit := bitAt_eq (l := [x]) (p := 0) hk
  rw [Nat.mul_zero, Nat.zero_add] at hbit
  rw [bitAt_append_right, hbit]
  rfl

theorem bitAt_replicate_zero {n : Nat} : bitAt (List.replicate n 0) p = false := by
  rw [bitAt, List.getD_eq_getElem?_getD, List.getElem?_replicate]
  split <;> exact Nat.zero_testBit _

theorem bitAt_take (h : p < 8 * k) : bitAt (l.take k) p = bitAt l p := by
  rw [bitAt, bitAt, List.getD_eq_getElem?_getD, List.getD_eq_getElem?_getD, List.getElem?_take_of_lt (by omega)]

/-! ## Reading numbers -/

/-- The number of `k` bits of a string, the highest first: `idx <<= 1; idx += bit`. -/
def readBits (f : Nat → Bool) (k : Nat) : Nat := (List.range k).foldl (fun idx j => idx <<< 1 + (f j).toNat) 0

theorem readBits_succ : readBits f (k + 1) = readBits f k <<< 1 + (f k).toNat := by
  rw [readBits, List.range_succ, List.foldl_append]
  rfl

theorem testBit_readBits {i : Nat} : (readBits f k).testBit i = (decide (i < k) && f (k - 1 - i)) := by
  induction k generalizing i with
  | zero => simp [readBits]
  | succ k ih =>
    have hshift : readBits f k <<< 1 = 2 ^ 1 * readBits f k := by rw [Nat.shiftLeft_eq, Nat.mul_comm]
    rw [readBits_succ, hshift, Nat.testBit_two_pow_mul_add _ (Bool.toNat_lt (f k))]
    rcases Nat.eq_zero_or_pos i with rfl | hi
    · cases hf : f k <;> simp [hf]
    · rw [if_neg (by omega), ih, show k + 1 - 1 - i = k - 1 - (i - 1) by omega]
      congr 1
      rw [decide_eq_decide]
      omega

theorem readBits_lt : readBits f k < 2 ^ k := by
  apply Nat.lt_pow_two_of_testBit
  intro i hi
  rw [testBit_readBits, decide_eq_false (by omega), Bool.false_and]

theorem eq_readBits {n : Nat} (hn : n < 2 ^ k) (h : ∀ j < k, n.testBit (k - 1 - j) = f j) : n = readBits f k := by
  apply Nat.eq_of_testBit_eq
  intro i
  rw [testBit_readBits]
  rcases Nat.lt_or_ge i k with hi | hi
  · have hbit := h (k - 1 - i) (by omega)
    rw [show k - 1 - (k - 1 - i) = i by omega] at hbit
    rw [hbit, decide_eq_true hi, Bool.true_and]
  · rw [decide_eq_false (by omega), Bool.false_and]
    exact Nat.testBit_lt_two_pow (hn.trans_le (Nat.pow_le_pow_right (by decide) hi))

/-! ## Setting bits -/

/-- `bits[p / 8] |= 1 << (7 - p % 8)`, where there is such a byte. -/
def setBit (l : List UInt8) (p : Nat) : List UInt8 := l.modify (p / 8) (· ||| UInt8.ofNat (1 <<< (7 - p % 8)))

@[simp] theorem length_setBit : (setBit l p).length = l.length := List.length_modify _ _ _

theorem bitAt_setBit (hp : p < 8 * l.length) : bitAt (setBit l p) q = (bitAt l q || decide (q = p)) := by
  rw [bitAt, bitAt, setBit, List.getD_eq_getElem?_getD, List.getD_eq_getElem?_getD]
  by_cases hbyte : p / 8 = q / 8
  · have hlen : q / 8 < l.length := by omega
    have hone : (UInt8.ofNat (1 <<< (7 - p % 8))).toNat = 2 ^ (7 - p % 8) := by
      rw [Nat.shiftLeft_eq, Nat.one_mul, UInt8.toNat_ofNat']
      exact Nat.mod_eq_of_lt (Nat.pow_lt_pow_right (by decide) (by omega))
    rw [hbyte, List.getElem?_modify_eq, List.getElem?_eq_getElem hlen]
    simp only [Option.map_eq_map, Option.map_some, Option.getD_some, UInt8.toNat_or, hone, Nat.testBit_or, Nat.testBit_two_pow]
    congr 1
    rw [decide_eq_decide]
    omega
  · have hne : q ≠ p := by omega
    rw [List.getElem?_modify_ne _ _ hbyte, decide_eq_false hne, Bool.or_false]

/-! ## Masks -/

theorem highBit_and {x m : UInt8} : highBit (x &&& m) k = (highBit x k && highBit m k) := by
  rw [highBit, UInt8.toNat_and, Nat.testBit_and]
  rfl

theorem and_eq_and_iff {x y m : UInt8} :
    x &&& m = y &&& m ↔ ∀ k < 8, highBit m k = true → highBit x k = highBit y k := by
  constructor
  · intro h k _ hm
    have hbit := congrArg (highBit · k) h
    simpa [highBit_and, hm] using hbit
  · intro h
    apply eq_of_highBit
    intro k hk
    rw [highBit_and, highBit_and]
    cases hm : highBit m k
    · rw [Bool.and_false, Bool.and_false]
    · rw [h k hk hm]

end Zumy.Lib
