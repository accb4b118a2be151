/-
  Zumy.Arith.Compact — arith_uint256.h, arith_uint256.cpp: arith_uint256, and its compact form
  of eight bits of size and a mantissa of 23 bits below a sign.

  A positive number has the size `signedLength`, of its bytes with a zero bit in front, and the
  mantissa has the three highest of these.

  Proved, for every number of 256 bits:
  - `toNat_getCompact`: `GetCompact` is that size and that mantissa, within its assertions.
  - `value_setCompact`, `fOverflow_iff`, `fNegative_iff`: `SetCompact` is the natural number that
    a compact stands for; the flags are right about it.
-/
import Zumy.Arith.BaseUint
import Mathlib.Data.Nat.Bitwise
import Mathlib.Order.Bounds.Basic

namespace Zumy.Arith

open Zumy.Lib

/-! ## Numbers of bytes -/

variable {v u k : Nat}

def byteLength (v : Nat) : Nat := (v.size + 7) / 8

def signedLength (v : Nat) : Nat := v.size / 8 + 1

/-- Only the three highest bytes, of those with a zero bit in front, are not zero. -/
def OnlyTopThree (v : Nat) : Prop := ∀ i, i + 3 < signedLength v → v / 256 ^ i % 256 = 0

def truncate (v : Nat) : Nat := v / 256 ^ (signedLength v - 3) * 256 ^ (signedLength v - 3)

theorem bytes_zero_iff : (∀ i < k, v / 256 ^ i % 256 = 0) ↔ 256 ^ k ∣ v := by
  induction k with
  | zero => simp
  | succ k ih =>
    constructor
    · intro h
      obtain ⟨c, rfl⟩ := ih.1 fun i hi => h i (by omega)
      have hbyte := h k (Nat.lt_succ_self k)
      rw [Nat.mul_div_cancel_left _ (Nat.pow_pos (by decide))] at hbyte
      rw [Nat.pow_succ]
      exact Nat.mul_dvd_mul_left _ (Nat.dvd_of_mod_eq_zero hbyte)
    · rintro ⟨c, rfl⟩ i hi
      obtain ⟨d, rfl⟩ : ∃ d, k = i + d := ⟨k - i, by omega⟩
      rw [show i + d + 1 = i + (d + 1) by omega, Nat.pow_add, Nat.mul_assoc,
        Nat.mul_div_cancel_left _ (Nat.pow_pos (by decide)), Nat.pow_succ, Nat.mul_right_comm, Nat.mul_mod_left]

theorem onlyTopThree_iff : OnlyTopThree v ↔ 256 ^ (signedLength v - 3) ∣ v := by
  rw [← bytes_zero_iff]
  exact forall_congr' fun i => by rw [Nat.lt_sub_iff_add_lt]

theorem signedLength_mono (h : u ≤ v) : signedLength u ≤ signedLength v := by
  have hsize := Nat.size_le_size h
  unfold signedLength
  omega

theorem pow_256 (k : Nat) : 256 ^ k = 2 ^ (8 * k) := by rw [Nat.pow_mul]

theorem truncate_le : truncate v ≤ v := Nat.div_mul_le_self _ _

theorem pow_le_truncate (h : k < v.size) (hk : 8 * (signedLength v - 3) ≤ k) (hv : 2 ^ k ≤ v) : 2 ^ k ≤ truncate v := by
  obtain ⟨d, rfl⟩ := Nat.exists_eq_add_of_le hk
  rw [truncate, pow_256, Nat.pow_add, Nat.mul_comm]
  apply Nat.mul_le_mul_right
  rw [Nat.le_div_iff_mul_le (Nat.two_pow_pos _), ← Nat.pow_add, Nat.add_comm]
  exact hv

theorem size_truncate : (truncate v).size = v.size := by
  apply Nat.le_antisymm (Nat.size_le_size truncate_le)
  rcases Nat.eq_zero_or_pos v with rfl | hv
  · simp
  · have hpos := Nat.size_pos.2 hv
    have hlow : 8 * (signedLength v - 3) ≤ v.size - 1 := by
      unfold signedLength
      omega
    have hbit : 2 ^ (v.size - 1) ≤ truncate v := pow_le_truncate (by omega) hlow (Nat.lt_size.1 (by omega))
    have hlt := Nat.lt_size.2 hbit
    omega

theorem truncate_mono (h : u ≤ v) : truncate u ≤ truncate v := by
  rcases (signedLength_mono h).eq_or_lt with heq | hlt
  · rw [truncate, truncate, heq]
    exact Nat.mul_le_mul_right _ (Nat.div_le_div_right h)
  · have hsize : u.size < v.size := by
      unfold signedLength at hlt
      omega
    have hbit : 2 ^ (v.size - 1) ≤ truncate v := Nat.lt_size.1 (by rw [size_truncate]; omega)
    have hu : u < 2 ^ (v.size - 1) := Nat.size_le.1 (by omega)
    exact (truncate_le.trans hu.le).trans hbit

theorem isGreatest_truncate : IsGreatest {u | u ≤ v ∧ byteLength u = byteLength v ∧ OnlyTopThree u} (truncate v) := by
  have hsame : signedLength (truncate v) = signedLength v := by rw [signedLength, signedLength, size_truncate]
  refine ⟨⟨truncate_le, by rw [byteLength, byteLength, size_truncate], ?_⟩, ?_⟩
  · rw [onlyTopThree_iff, hsame]
    exact Nat.dvd_mul_left _ _
  · rintro u ⟨hle, hbytes, htop⟩
    have hu : truncate u = u := Nat.div_mul_cancel (onlyTopThree_iff.1 htop)
    rw [← hu]
    exact truncate_mono hle

/-! ## The code -/

abbrev ArithUint256 := BaseUint 8

/-- What `SetCompact` sets: the number and the two flags. -/
structure Decoded where
  target : ArithUint256
  fNegative : Bool
  fOverflow : Bool
  deriving DecidableEq

def setCompact (nCompact : Word) : Decoded :=
  let nSize := (nCompact >>> 24).toNat
  let nWord := nCompact &&& 0x007fffff
  let nWord := if nSize ≤ 3 then nWord >>> (8 * (3 - nSize)) else nWord
  let target : ArithUint256 := BaseUint.ofUInt64 (nWord.setWidth 64)
  { target := if nSize ≤ 3 then target else target.shl (8 * (nSize - 3))
    fNegative := nWord != 0 && nCompact &&& 0x00800000 != 0
    fOverflow := nWord != 0 && (decide (34 < nSize) || (decide (0xff < nWord) && decide (33 < nSize)) ||
      (decide (0xffff < nWord) && decide (32 < nSize))) }

/-- The three highest of `nSize` bytes. -/
def compactWord (a : ArithUint256) (nSize : Nat) : Word :=
  if nSize ≤ 3 then (a.getLow64 <<< (8 * (3 - nSize))).setWidth 32
  else (a.shr (8 * (nSize - 3))).getLow64.setWidth 32

/-- The mantissa and the size, where a mantissa that reaches into the sign is moved out of it. -/
def compactParts (a : ArithUint256) : Word × Nat :=
  let nSize := (a.bits + 7) / 8
  let nCompact := compactWord a nSize
  if nCompact &&& 0x00800000 ≠ 0 then (nCompact >>> 8, nSize + 1) else (nCompact, nSize)

def getCompact (a : ArithUint256) (fNegative : Bool) : Word :=
  let parts := compactParts a
  let nCompact := parts.1 ||| BitVec.ofNat 32 parts.2 <<< 24
  nCompact ||| (if fNegative ∧ nCompact &&& 0x007fffff ≠ 0 then 0x00800000 else 0)

/-! ## What the code computes -/

def compactSize (v : Nat) : Nat := if v = 0 then 0 else signedLength v

/-- Of a number of `n` bytes, the three highest, filled up from below. -/
def topBytes (v n : Nat) : Nat := v * 2 ^ 24 / 2 ^ (8 * n)

def mantissa (v : Nat) : Nat := topBytes v (compactSize v)

def compactValue (n : Nat) : Nat := n % 2 ^ 23 * 2 ^ (8 * (n / 2 ^ 24)) / 2 ^ 24

theorem topBytes_of_le (h : k ≤ 3) : topBytes v k = v * 2 ^ (8 * (3 - k)) := by
  have hsplit : 2 ^ 24 = 2 ^ (8 * (3 - k)) * 2 ^ (8 * k) := by
    rw [← Nat.pow_add]
    congr 1
    omega
  rw [topBytes, hsplit, ← Nat.mul_assoc, Nat.mul_div_cancel _ (Nat.two_pow_pos _)]

theorem topBytes_of_lt (h : 3 < k) : topBytes v k = v / 2 ^ (8 * (k - 3)) := by
  have hsplit : 2 ^ (8 * k) = 2 ^ (8 * (k - 3)) * 2 ^ 24 := by
    rw [← Nat.pow_add]
    congr 1
    omega
  rw [topBytes, hsplit, Nat.mul_div_mul_right _ _ (by decide)]

theorem and_low {x : Word} : (x &&& 0x007fffff).toNat = x.toNat % 2 ^ 23 := by
  rw [BitVec.toNat_and]
  exact Nat.and_two_pow_sub_one_eq_mod x.toNat 23

theorem and_sign {x : Word} : x &&& 0x00800000 = 0 ↔ x.toNat.testBit 23 = false := by
  have hand : (x &&& 0x00800000).toNat = (x.toNat.testBit 23).toNat * 2 ^ 23 := by
    rw [BitVec.toNat_and]
    exact Nat.and_two_pow x.toNat 23
  rw [← BitVec.toNat_inj, hand]
  cases x.toNat.testBit 23 <;> simp

/-! ## GetCompact -/

theorem lt_pow_byteLength : v < 2 ^ (8 * byteLength v) := by
  apply Nat.size_le.1
  unfold byteLength
  omega

theorem topBytes_lt : topBytes v (byteLength v) < 2 ^ 24 := by
  apply Nat.div_lt_of_lt_mul
  exact Nat.mul_lt_mul_of_pos_right lt_pow_byteLength (by decide)

/-- The mantissa reaches into the sign exactly when the top bit of the highest byte is set. -/
theorem testBit_topBytes : (topBytes v (byteLength v)).testBit 23 = decide (v ≠ 0 ∧ v.size = 8 * byteLength v) := by
  have hlt := topBytes_lt (v := v)
  have hbit : (topBytes v (byteLength v)).testBit 23 = decide (2 ^ 23 ≤ topBytes v (byteLength v)) := by
    rw [Nat.testBit_eq_decide_div_mod_eq, decide_eq_decide]
    omega
  rw [hbit, decide_eq_decide]
  rcases Nat.eq_zero_or_pos v with rfl | hv
  · simp [topBytes]
  · have hsize := Nat.size_pos.2 hv
    have hpow : 2 ^ 23 * 2 ^ (8 * byteLength v) = 2 ^ (8 * byteLength v - 1) * 2 ^ 24 := by
      rw [← Nat.pow_add, ← Nat.pow_add]
      congr 1
      unfold byteLength
      omega
    rw [topBytes, Nat.le_div_iff_mul_le (Nat.two_pow_pos _), hpow, Nat.mul_le_mul_right_iff (by decide), ← Nat.lt_size]
    unfold byteLength
    omega

theorem toNat_compactWord (a : ArithUint256) :
    (compactWord a (byteLength a.value)).toNat = topBytes a.value (byteLength a.value) := by
  have hlt := topBytes_lt (v := a.value)
  unfold compactWord
  split
  · rename_i hle
    rw [topBytes_of_le hle] at hlt ⊢
    have hsmall : a.value < 2 ^ 24 := lt_pow_byteLength.trans_le (Nat.pow_le_pow_right (by decide) (by omega))
    rw [BitVec.toNat_setWidth, BitVec.toNat_shiftLeft, BaseUint.toNat_getLow64,
      Nat.mod_eq_of_lt (hsmall.trans (by decide)), Nat.shiftLeft_eq, Nat.mod_eq_of_lt (hlt.trans (by decide)),
      Nat.mod_eq_of_lt (hlt.trans (by decide))]
  · rename_i hgt
    rw [topBytes_of_lt (by omega)] at hlt ⊢
    rw [BitVec.toNat_setWidth, BaseUint.toNat_getLow64, BaseUint.value_shr, Nat.mod_eq_of_lt (hlt.trans (by decide)),
      Nat.mod_eq_of_lt (hlt.trans (by decide))]

theorem toNat_compactParts (a : ArithUint256) :
    (compactParts a).1.toNat = mantissa a.value ∧ (compactParts a).2 = compactSize a.value := by
  have hword := toNat_compactWord a
  have hsize : (a.bits + 7) / 8 = byteLength a.value := by rw [BaseUint.bits_eq, byteLength]
  rw [compactParts, hsize]
  split
  · rename_i hsign
    rw [ne_eq, and_sign, hword, testBit_topBytes, Bool.not_eq_false, decide_eq_true_eq] at hsign
    have hnext : compactSize a.value = byteLength a.value + 1 := by
      rw [compactSize, if_neg hsign.1, signedLength]
      omega
    refine ⟨?_, hnext.symm⟩
    rw [BitVec.toNat_ushiftRight, hword, Nat.shiftRight_eq_div_pow, mantissa, topBytes, topBytes, hnext,
      Nat.div_div_eq_div_mul, ← Nat.pow_add]
    rfl
  · rename_i hsign
    rw [not_not, and_sign, hword, testBit_topBytes, decide_eq_false_iff_not] at hsign
    have hnext : compactSize a.value = byteLength a.value := by
      rw [compactSize]
      split
      · rename_i hzero
        rw [hzero]
        rfl
      · rename_i hpos
        have hne : a.value.size ≠ 8 * byteLength a.value := fun h => hsign ⟨hpos, h⟩
        have hsome := Nat.size_pos.2 (Nat.pos_of_ne_zero hpos)
        unfold signedLength byteLength at *
        omega
    exact ⟨by rw [hword, mantissa, hnext], hnext.symm⟩

theorem mantissa_lt : mantissa v < 2 ^ 23 := by
  rw [mantissa, compactSize]
  split
  · rename_i hzero
    simp [hzero, topBytes]
  · have hlt : v < 2 ^ (8 * signedLength v - 1) := by
      apply Nat.size_le.1
      unfold signedLength
      omega
    apply Nat.div_lt_of_lt_mul
    calc v * 2 ^ 24 < 2 ^ (8 * signedLength v - 1) * 2 ^ 24 := Nat.mul_lt_mul_of_pos_right hlt (by decide)
      _ = 2 ^ (8 * signedLength v) * 2 ^ 23 := by
        rw [← Nat.pow_add, ← Nat.pow_add]
        congr 1

theorem two_pow_le_mantissa (h : v ≠ 0) : 2 ^ 15 ≤ mantissa v := by
  have hpos := Nat.pos_of_ne_zero h
  rw [mantissa, compactSize, if_neg h, topBytes, Nat.le_div_iff_mul_le (Nat.two_pow_pos _)]
  rcases Nat.eq_zero_or_pos (v.size / 8) with hone | hmore
  · rw [signedLength, hone]
    omega
  · have hlow : 2 ^ (8 * (v.size / 8) - 1) ≤ v := Nat.lt_size.1 (by omega)
    calc 2 ^ 15 * 2 ^ (8 * signedLength v) = 2 ^ (8 * (v.size / 8) - 1) * 2 ^ 24 := by
          rw [← Nat.pow_add, ← Nat.pow_add]
          congr 1
          unfold signedLength
          omega
      _ ≤ v * 2 ^ 24 := Nat.mul_le_mul_right _ hlow

theorem compactSize_le (h : v < 2 ^ 256) : compactSize v ≤ 33 := by
  have hsize := Nat.size_le.2 h
  unfold compactSize signedLength
  split <;> omega

theorem toNat_getCompact (a : ArithUint256) :
    (getCompact a false).toNat = mantissa a.value + 2 ^ 24 * compactSize a.value := by
  obtain ⟨hword, hsize⟩ := toNat_compactParts a
  have hm := mantissa_lt (v := a.value)
  have hs := compactSize_le (v := a.value) BaseUint.value_lt
  have hor := Nat.two_pow_add_eq_or_of_lt (i := 24) (hm.trans (by decide)) (compactSize a.value)
  have hshift : (BitVec.ofNat 32 (compactSize a.value) <<< 24).toNat = 2 ^ 24 * compactSize a.value := by
    rw [BitVec.toNat_shiftLeft, BitVec.toNat_ofNat, Nat.shiftLeft_eq]
    omega
  have hsign : getCompact a false = (compactParts a).1 ||| BitVec.ofNat 32 (compactParts a).2 <<< 24 := by simp [getCompact]
  rw [hsign, BitVec.toNat_or, hword, hsize, hshift, Nat.lor_comm, ← hor, Nat.add_comm]

theorem getCompact_mono {a b : ArithUint256} (h : a.value ≤ b.value) : getCompact a false ≤ getCompact b false := by
  rw [BitVec.le_def, toNat_getCompact, toNat_getCompact]
  have hm := mantissa_lt (v := a.value)
  have hsize : compactSize a.value ≤ compactSize b.value := by
    have hsigned := signedLength_mono h
    unfold compactSize
    split <;> split <;> omega
  rcases hsize.eq_or_lt with heq | hlt
  · have hmantissa : mantissa a.value ≤ mantissa b.value := by
      rw [mantissa, mantissa, heq]
      exact Nat.div_le_div_right (Nat.mul_le_mul_right _ h)
    omega
  · omega

/-! ## SetCompact -/

/-- The mantissa of a compact, with the bytes cut off that its size leaves out. -/
def wordOf (n : Nat) : Nat := n % 2 ^ 23 / 2 ^ (8 * (3 - n / 2 ^ 24))

theorem wordOf_lt {n : Nat} : wordOf n < 2 ^ 23 := (Nat.div_le_self _ _).trans_lt (Nat.mod_lt _ (by decide))

theorem mul_div_pow (x k : Nat) : x * 2 ^ (8 * k) / 2 ^ 24 = x / 2 ^ (8 * (3 - k)) * 2 ^ (8 * (k - 3)) := by
  rcases Nat.le_total k 3 with hle | hge
  · have hsplit : 2 ^ 24 = 2 ^ (8 * (3 - k)) * 2 ^ (8 * k) := by
      rw [← Nat.pow_add]
      congr 1
      omega
    rw [hsplit, Nat.mul_div_mul_right _ _ (Nat.two_pow_pos _), Nat.sub_eq_zero_of_le hle]
    simp
  · have hsplit : 2 ^ (8 * k) = 2 ^ (8 * (k - 3)) * 2 ^ 24 := by
      rw [← Nat.pow_add]
      congr 1
      omega
    rw [hsplit, ← Nat.mul_assoc, Nat.mul_div_cancel _ (by decide), Nat.sub_eq_zero_of_le hge]
    simp

theorem compactValue_eq {n : Nat} : compactValue n = wordOf n * 2 ^ (8 * (n / 2 ^ 24 - 3)) := mul_div_pow _ _

theorem toNat_word (n : Word) : (n >>> 24).toNat = n.toNat / 2 ^ 24 ∧
    (if (n >>> 24).toNat ≤ 3 then (n &&& 0x007fffff) >>> (8 * (3 - (n >>> 24).toNat)) else n &&& 0x007fffff).toNat =
      wordOf n.toNat := by
  have hsize : (n >>> 24).toNat = n.toNat / 2 ^ 24 := by rw [BitVec.toNat_ushiftRight, Nat.shiftRight_eq_div_pow]
  refine ⟨hsize, ?_⟩
  rw [hsize, wordOf]
  split
  · rw [BitVec.toNat_ushiftRight, Nat.shiftRight_eq_div_pow, and_low]
  · rename_i hgt
    rw [and_low, Nat.sub_eq_zero_of_le (by omega)]
    simp

theorem value_setCompact (n : Word) : (setCompact n).target.value = compactValue n.toNat % 2 ^ 256 := by
  obtain ⟨hsize, hword⟩ := toNat_word n
  have hlt := wordOf_lt (n := n.toNat)
  rw [setCompact]
  dsimp only
  generalize (if (n >>> 24).toNat ≤ 3 then _ else _ : Word) = nWord at hword ⊢
  have hsmall : (BaseUint.ofUInt64 (nWord.setWidth 64) : ArithUint256).value = wordOf n.toNat := by
    rw [BaseUint.value_ofUInt64 (by decide), BitVec.toNat_setWidth, hword, Nat.mod_eq_of_lt (hlt.trans (by decide))]
  rw [hsize, compactValue_eq]
  split
  · rename_i hle
    rw [hsmall, Nat.sub_eq_zero_of_le hle]
    simp
    omega
  · rw [BaseUint.value_shl, hsmall]

theorem fOverflow_iff (n : Word) : (setCompact n).fOverflow = true ↔ 2 ^ 256 ≤ compactValue n.toNat := by
  obtain ⟨hsize, hword⟩ := toNat_word n
  have hlt := wordOf_lt (n := n.toNat)
  rw [setCompact]
  dsimp only
  generalize (if (n >>> 24).toNat ≤ 3 then _ else _ : Word) = nWord at hword ⊢
  have hle : n.toNat / 2 ^ 24 < 256 := Nat.div_lt_of_lt_mul n.isLt
  rw [hsize, compactValue_eq, ← hword]
  rw [← hword] at hlt
  simp only [Bool.and_eq_true, Bool.or_eq_true, bne_iff_ne, ne_eq, decide_eq_true_eq, BitVec.lt_def, ← BitVec.toNat_inj]
  generalize n.toNat / 2 ^ 24 = size at hle
  rcases Nat.lt_or_ge size 33 with hsmall | hlarge
  · have hpow : 2 ^ (8 * (size - 3)) ≤ 2 ^ 232 := Nat.pow_le_pow_right (by decide) (by omega)
    have hmul : nWord.toNat * 2 ^ (8 * (size - 3)) ≤ 2 ^ 23 * 2 ^ 232 := Nat.mul_le_mul hlt.le hpow
    simp
    omega
  · rcases Nat.lt_or_ge size 35 with hmid | hover
    · obtain rfl | rfl : size = 33 ∨ size = 34 := by omega
      · simp
        omega
      · simp
        omega
    · have hpow : 2 ^ 256 ≤ 2 ^ (8 * (size - 3)) := Nat.pow_le_pow_right (by decide) (by omega)
      rcases Nat.eq_zero_or_pos nWord.toNat with hzero | hpos
      · simp [hzero]
      · have hmul : 1 * 2 ^ 256 ≤ nWord.toNat * 2 ^ (8 * (size - 3)) := Nat.mul_le_mul hpos hpow
        rw [Nat.one_mul] at hmul
        refine ⟨fun _ => hmul, fun _ => ⟨fun h => ?_, .inl (.inl (by omega))⟩⟩
        have hzero : nWord.toNat = 0 := by simpa using h
        omega

theorem fNegative_iff (n : Word) :
    (setCompact n).fNegative = true ↔ compactValue n.toNat ≠ 0 ∧ n.toNat.testBit 23 = true := by
  obtain ⟨hsize, hword⟩ := toNat_word n
  rw [setCompact]
  dsimp only
  generalize (if (n >>> 24).toNat ≤ 3 then _ else _ : Word) = nWord at hword ⊢
  have hzero : compactValue n.toNat = 0 ↔ nWord = 0 := by
    rw [compactValue_eq, ← hword, Nat.mul_eq_zero, ← BitVec.toNat_inj]
    simp
  rw [ne_eq, hzero, ← Bool.not_eq_false (n.toNat.testBit 23), ← and_sign]
  simp

/-! ## There and back -/

/-- A compact that is the shortest form of its number: no mantissa of two bytes that has room for a
third, and no bytes in it that the size leaves out. -/
def Canonical (n : Word) : Prop :=
  n = 0 ∨ (2 ^ 15 ≤ n.toNat % 2 ^ 23 ∧ 2 ^ (8 * (3 - n.toNat / 2 ^ 24)) ∣ n.toNat % 2 ^ 23)

instance {n : Word} : Decidable (Canonical n) := inferInstanceAs (Decidable (_ ∨ _))

theorem getCompact_parts (a : ArithUint256) :
    (getCompact a false).toNat % 2 ^ 23 = mantissa a.value ∧ (getCompact a false).toNat / 2 ^ 24 = compactSize a.value := by
  have hm := mantissa_lt (v := a.value)
  rw [toNat_getCompact]
  omega

theorem compactValue_getCompact (a : ArithUint256) : compactValue (getCompact a false).toNat = truncate a.value := by
  obtain ⟨hword, hsize⟩ := getCompact_parts a
  rw [compactValue, hword, hsize, mul_div_pow, truncate, mantissa, pow_256]
  by_cases hzero : a.value = 0
  · simp [hzero, topBytes]
  · rw [compactSize, if_neg hzero]
    rcases Nat.lt_or_ge 3 (signedLength a.value) with hgt | hle
    · rw [topBytes_of_lt hgt, Nat.sub_eq_zero_of_le hgt.le]
      simp
    · rw [topBytes_of_le hle, Nat.sub_eq_zero_of_le hle, Nat.mul_div_cancel _ (Nat.two_pow_pos _)]
      simp

theorem target_getCompact (a : ArithUint256) : (setCompact (getCompact a false)).target.value = truncate a.value := by
  rw [value_setCompact, compactValue_getCompact]
  exact Nat.mod_eq_of_lt (truncate_le.trans_lt BaseUint.value_lt)

theorem flags_getCompact (a : ArithUint256) :
    (setCompact (getCompact a false)).fNegative = false ∧ (setCompact (getCompact a false)).fOverflow = false := by
  have hm := mantissa_lt (v := a.value)
  constructor
  · rw [← Bool.not_eq_true, fNegative_iff]
    rintro ⟨-, hbit⟩
    rw [toNat_getCompact, Nat.testBit_eq_decide_div_mod_eq, decide_eq_true_eq] at hbit
    omega
  · rw [← Bool.not_eq_true, fOverflow_iff, compactValue_getCompact]
    have hlt : truncate a.value < 2 ^ 256 := truncate_le.trans_lt BaseUint.value_lt
    omega

theorem compactSize_eq {v m s : Nat} (hv : v * 2 ^ 24 = m * 2 ^ (8 * s)) (hlow : 2 ^ 15 ≤ m) (hhigh : m < 2 ^ 23) :
    compactSize v = s ∧ mantissa v = m := by
  have hsize : compactSize v = s := by
    have hpow := Nat.two_pow_pos (8 * s)
    have hmul : 2 ^ 15 * 2 ^ (8 * s) ≤ v * 2 ^ 24 := hv ▸ Nat.mul_le_mul_right _ hlow
    have hlt : v * 2 ^ 24 < 2 ^ 23 * 2 ^ (8 * s) := hv ▸ Nat.mul_lt_mul_of_pos_right hhigh hpow
    have hne : v ≠ 0 := by
      rintro rfl
      omega
    obtain ⟨k, rfl⟩ : ∃ k, s = k + 1 := by
      refine ⟨s - 1, ?_⟩
      rcases Nat.eq_zero_or_pos s with rfl | hs
      · simp at hmul hlt
        omega
      · omega
    have hup : v.size ≤ 8 * k + 7 := by
      apply Nat.size_le.2
      rw [show 8 * (k + 1) = 8 * k + 7 + 1 by omega, Nat.pow_succ] at hlt
      omega
    have hdown : 8 * k ≤ v.size := by
      rcases Nat.eq_zero_or_pos k with rfl | hk
      · simp
      · have hbit : 2 ^ (8 * k - 1) ≤ v := by
          rw [show 8 * (k + 1) = 8 * k - 1 + 9 by omega, Nat.pow_add] at hmul
          omega
        have hlt := Nat.lt_size.2 hbit
        omega
    rw [compactSize, if_neg hne, signedLength]
    omega
  refine ⟨hsize, ?_⟩
  rw [mantissa, hsize, topBytes, hv, Nat.mul_div_cancel _ (Nat.two_pow_pos _)]

theorem getCompact_setCompact {n : Word} (hn : Canonical n) (hneg : (setCompact n).fNegative = false)
    (hover : (setCompact n).fOverflow = false) : getCompact (setCompact n).target false = n := by
  rcases hn with rfl | ⟨hlow, hdvd⟩
  · decide
  · have hexact : compactValue n.toNat * 2 ^ 24 = n.toNat % 2 ^ 23 * 2 ^ (8 * (n.toNat / 2 ^ 24)) := by
      apply Nat.div_mul_cancel
      have hpow : 2 ^ 24 ∣ 2 ^ (8 * (3 - n.toNat / 2 ^ 24)) * 2 ^ (8 * (n.toNat / 2 ^ 24)) := by
        rw [← Nat.pow_add]
        exact Nat.pow_dvd_pow 2 (by omega)
      exact hpow.trans (Nat.mul_dvd_mul_right hdvd _)
    have hsmall : compactValue n.toNat < 2 ^ 256 := by
      have hnot := (fOverflow_iff n).not.1 (by simp [hover])
      omega
    have hvalue : (setCompact n).target.value = compactValue n.toNat := by
      rw [value_setCompact, Nat.mod_eq_of_lt hsmall]
    have hsign : n.toNat.testBit 23 = false := by
      have hnot := (fNegative_iff n).not.1 (by simp [hneg])
      by_contra hset
      refine hnot ⟨fun h0 => ?_, Bool.eq_true_of_not_eq_false hset⟩
      rw [h0, Nat.zero_mul, eq_comm, Nat.mul_eq_zero] at hexact
      have hpow := Nat.two_pow_pos (8 * (n.toNat / 2 ^ 24))
      omega
    obtain ⟨hsize, hm⟩ := compactSize_eq hexact hlow (Nat.mod_lt _ (by decide))
    apply BitVec.eq_of_toNat_eq
    rw [toNat_getCompact, hvalue, hsize, hm]
    rw [Nat.testBit_eq_decide_div_mod_eq, decide_eq_false_iff_not] at hsign
    omega

/-- Encoding a number and decoding it is rounding down; decoding a canonical compact loses nothing;
and the order of numbers is that of their compacts, up to what is rounded. -/
theorem setCompact_getCompact (a b : ArithUint256) (n : Word) :
    IsGreatest {u | u ≤ a.value ∧ byteLength u = byteLength a.value ∧ OnlyTopThree u}
      (setCompact (getCompact a false)).target.value ∧
    (setCompact (getCompact a false)).fNegative = false ∧ (setCompact (getCompact a false)).fOverflow = false ∧
    (Canonical n ∧ (setCompact n).fNegative = false ∧ (setCompact n).fOverflow = false →
      getCompact (setCompact n).target false = n) ∧
    (a.value ≤ b.value → getCompact a false ≤ getCompact b false ∧
      (setCompact (getCompact a false)).target.value ≤ (setCompact (getCompact b false)).target.value) := by
  obtain ⟨hneg, hover⟩ := flags_getCompact a
  refine ⟨?_, hneg, hover, fun h => getCompact_setCompact h.1 h.2.1 h.2.2, fun h => ⟨getCompact_mono h, ?_⟩⟩
  · rw [target_getCompact]
    exact isGreatest_truncate
  · rw [target_getCompact, target_getCompact]
    exact truncate_mono h

theorem setCompact_getCompact_sample : getCompact (setCompact 0x1e0fffff).target false = 0x1e0fffff :=
  (setCompact_getCompact (BaseUint.ofUInt64 0) (BaseUint.ofUInt64 1) 0x1e0fffff).2.2.2.1
    ⟨by decide, by decide, by decide⟩

theorem canonical_getCompact (a : ArithUint256) : Canonical (getCompact a false) := by
  obtain ⟨hword, hsize⟩ := getCompact_parts a
  by_cases hzero : a.value = 0
  · left
    apply BitVec.eq_of_toNat_eq
    rw [toNat_getCompact, hzero]
    rfl
  · right
    rw [hword, hsize]
    refine ⟨two_pow_le_mantissa hzero, ?_⟩
    rcases Nat.lt_or_ge 3 (compactSize a.value) with hgt | hle
    · rw [Nat.sub_eq_zero_of_le hgt.le]
      exact Nat.one_dvd _
    · rw [mantissa, topBytes_of_le hle]
      exact Nat.dvd_mul_left _ _

/-- `GetCompact` gives the canonical compacts without flags, and all of them. -/
theorem range_getCompact (n : Word) : (∃ a : ArithUint256, getCompact a false = n) ↔
    Canonical n ∧ (setCompact n).fNegative = false ∧ (setCompact n).fOverflow = false := by
  constructor
  · intro h
    obtain ⟨a, rfl⟩ := h
    exact ⟨canonical_getCompact a, flags_getCompact a⟩
  · intro h
    exact ⟨(setCompact n).target, getCompact_setCompact h.1 h.2.1 h.2.2⟩

end Zumy.Arith
