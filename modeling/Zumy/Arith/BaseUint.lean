/-
  Zumy.Arith.BaseUint — arith_uint256.h, arith_uint256.cpp: base_uint<BITS>, unsigned numbers of
  `WIDTH = BITS / 32` words.

  The operators are the loops of the source over the words. Each has one lemma that says what
  number it computes: arithmetic modulo `2 ^ (32 * width)`, and division rounded down. A
  division by zero, which throws `uint_error`, is `none`.
-/
import Zumy.Lib.Limbs

namespace Zumy.Arith

open Zumy.Lib

abbrev Word := BitVec 32

/-- `uint32_t pn[WIDTH]`, the lowest word first. -/
structure BaseUint (width : Nat) where
  pn : List Word
  length_pn : pn.length = width
  deriving DecidableEq

namespace BaseUint

variable {width : Nat} {a b : BaseUint width} {shift : Nat}

def value (a : BaseUint width) : Nat := limbsValue a.pn

theorem value_lt : a.value < 2 ^ (32 * width) := by
  have hlt := limbsValue_lt (a := a.pn)
  rwa [a.length_pn] at hlt

theorem value_inj : a.value = b.value ↔ a = b := by
  refine ⟨fun h => ?_, congrArg value⟩
  have hpn := (limbsValue_inj (by decide) (a.length_pn.trans b.length_pn.symm)).1 h
  cases a
  cases b
  cases hpn
  rfl

/-! ## Small numbers -/

def zero : BaseUint width := ⟨List.replicate width 0, List.length_replicate⟩

@[simp] theorem value_zero : (zero : BaseUint width).value = 0 := limbsValue_replicate_zero

/-- `base_uint(uint64_t b)`. -/
def ofUInt64 (b : BitVec 64) : BaseUint width :=
  ⟨((List.replicate width 0).set 0 (b.setWidth 32)).set 1 ((b >>> 32).setWidth 32), by simp⟩

theorem value_ofUInt64 (hw : 2 ≤ width) {b : BitVec 64} : (ofUInt64 b : BaseUint width).value = b.toNat := by
  obtain ⟨n, rfl⟩ := Nat.exists_eq_add_of_le' hw
  have hb := b.isLt
  have hrest : limbsValue (List.replicate n (0 : Word)) = 0 := limbsValue_replicate_zero
  simp only [value, ofUInt64, List.replicate_succ, List.set_cons_zero, List.set_cons_succ, limbsValue_cons, hrest,
    BitVec.toNat_setWidth, BitVec.toNat_ushiftRight, Nat.shiftRight_eq_div_pow]
  omega

def getLow64 (a : BaseUint width) : BitVec 64 := (a.pn.getD 0 0).setWidth 64 ||| (a.pn.getD 1 0).setWidth 64 <<< 32

theorem toNat_getLow64 : a.getLow64.toNat = a.value % 2 ^ 64 := by
  apply Nat.eq_of_testBit_eq
  intro j
  rw [Nat.testBit_mod_two_pow, value, testBit_limbsValue (by decide), getLow64, BitVec.testBit_toNat, BitVec.getLsbD_or,
    BitVec.getLsbD_shiftLeft, BitVec.getLsbD_setWidth, BitVec.getLsbD_setWidth]
  by_cases hlow : j < 32
  · rw [Nat.div_eq_of_lt hlow, Nat.mod_eq_of_lt hlow]
    simp [hlow]
  · by_cases hhigh : j < 64
    · have hword : j / 32 = 1 := by omega
      have hbit : j % 32 = j - 32 := by omega
      rw [hword, hbit, BitVec.getLsbD_of_ge _ j (by omega)]
      simp [hlow, hhigh, show j - 32 < 64 by omega]
    · simp [hhigh, BitVec.getLsbD_of_ge _ j (Nat.le_of_not_lt hlow)]

/-! ## Addition and subtraction -/

/-- `n = carry + pn[i] + b.pn[i]`. -/
def add (a b : BaseUint width) : BaseUint width :=
  ⟨carryLoop 0 (List.zipWith (fun p y => p.setWidth 64 + y.setWidth 64) a.pn b.pn),
    by rw [length_carryLoop, List.length_zipWith, a.length_pn, b.length_pn, Nat.min_self]⟩

theorem value_add : (a.add b).value = (a.value + b.value) % 2 ^ (32 * width) := by
  have hterm : ∀ p y : Word, (p.setWidth 64 + y.setWidth 64).toNat = p.toNat + 1 * y.toNat := by
    intro p y
    have hp := p.isLt
    have hy := y.isLt
    rw [BitVec.toNat_add, BitVec.toNat_setWidth, BitVec.toNat_setWidth]
    omega
  have hsum := limbsValue_mulAdd (by decide) hterm (a.length_pn.trans b.length_pn.symm).le
  rwa [Nat.one_mul, a.length_pn] at hsum

def not (a : BaseUint width) : BaseUint width := ⟨complement a.pn, length_complement.trans a.length_pn⟩

theorem value_not : a.not.value = 2 ^ (32 * width) - 1 - a.value := by
  have hsum := limbsValue_complement (a := a.pn)
  rw [a.length_pn] at hsum
  change limbsValue (complement a.pn) = 2 ^ (32 * width) - 1 - limbsValue a.pn
  omega

def inc (a : BaseUint width) : BaseUint width := ⟨increment a.pn, length_increment.trans a.length_pn⟩

theorem value_inc : a.inc.value = (a.value + 1) % 2 ^ (32 * width) := by
  have hsum := limbsValue_increment (a := a.pn)
  rwa [a.length_pn] at hsum

/-- `operator-()`: the complement, and `++` on it. -/
def neg (a : BaseUint width) : BaseUint width := a.not.inc

theorem value_neg : a.neg.value = (2 ^ (32 * width) - a.value) % 2 ^ (32 * width) := by
  have hlt := value_lt (a := a)
  rw [neg, value_inc, value_not]
  congr 1
  omega

/-- `*this += -b`. -/
def sub (a b : BaseUint width) : BaseUint width := a.add b.neg

theorem value_sub (h : b.value ≤ a.value) : (a.sub b).value = a.value - b.value := by
  have hlt := value_lt (a := a)
  have hback : a.value + (2 ^ (32 * width) - b.value) = a.value - b.value + 2 ^ (32 * width) := by omega
  rw [sub, value_add, value_neg, Nat.add_mod_mod, hback, Nat.add_mod_right, Nat.mod_eq_of_lt (by omega)]

/-! ## Multiplication -/

/-- `operator*=(uint32_t b32)`: `n = carry + (uint64_t)b32 * pn[i]`. -/
def mulWord (a : BaseUint width) (b32 : Word) : BaseUint width :=
  ⟨carryLoop 0 (a.pn.map fun y => b32.setWidth 64 * y.setWidth 64), by rw [length_carryLoop, List.length_map, a.length_pn]⟩

theorem toNat_mulTerm (x y : Word) : (x.setWidth 64 * y.setWidth 64).toNat = x.toNat * y.toNat := by
  have hx := x.isLt
  have hy := y.isLt
  have hmul : x.toNat * y.toNat ≤ (2 ^ 32 - 1) * (2 ^ 32 - 1) := Nat.mul_le_mul (by omega) (by omega)
  rw [BitVec.toNat_mul, BitVec.toNat_setWidth, BitVec.toNat_setWidth, Nat.mod_eq_of_lt (by omega : x.toNat < 2 ^ 64),
    Nat.mod_eq_of_lt (by omega : y.toNat < 2 ^ 64)]
  omega

theorem value_mulWord {b32 : Word} : (a.mulWord b32).value = a.value * b32.toNat % 2 ^ (32 * width) := by
  have hmul := limbsValue_mulLimb (a := a.pn) b32.isLt (toNat_mulTerm b32)
  rwa [a.length_pn] at hmul

/-! ## Shifts -/

/-- The turns of `operator<<=`, where `shift` is `32 * k + s`. -/
def shlTurn (a : List Word) (k s : Nat) (pn : List Word) (i : Nat) : List Word :=
  let pn := if i + k + 1 < pn.length ∧ s ≠ 0 then orAt pn (i + k + 1) (a.getD i 0 >>> (32 - s)) else pn
  if i + k < pn.length then orAt pn (i + k) (a.getD i 0 <<< s) else pn

/-- The turns of `operator>>=`. -/
def shrTurn (a : List Word) (k s : Nat) (pn : List Word) (i : Nat) : List Word :=
  let pn := if k + 1 ≤ i ∧ s ≠ 0 then orAt pn (i - k - 1) (a.getD i 0 <<< (32 - s)) else pn
  if k ≤ i then orAt pn (i - k) (a.getD i 0 >>> s) else pn

@[simp] theorem length_shlTurn {l pn : List Word} {k s i : Nat} : (shlTurn l k s pn i).length = pn.length := by
  unfold shlTurn
  dsimp only
  split <;> split <;> simp

@[simp] theorem length_shrTurn {l pn : List Word} {k s i : Nat} : (shrTurn l k s pn i).length = pn.length := by
  unfold shrTurn
  dsimp only
  split <;> split <;> simp

theorem length_turns {turn : List Word → Nat → List Word} (h : ∀ pn i, (turn pn i).length = pn.length) (is : List Nat) :
    (is.foldl turn (List.replicate width 0)).length = width := by
  have hfold : ∀ pn, (is.foldl turn pn).length = pn.length := by
    induction is with
    | nil => exact fun _ => rfl
    | cons i is ih => exact fun pn => by rw [List.foldl_cons, ih, h]
  rw [hfold, List.length_replicate]

def shl (a : BaseUint width) (shift : Nat) : BaseUint width :=
  ⟨(List.range width).foldl (shlTurn a.pn (shift / 32) (shift % 32)) (List.replicate width 0),
    length_turns (fun _ _ => length_shlTurn) _⟩

def shr (a : BaseUint width) (shift : Nat) : BaseUint width :=
  ⟨(List.range width).foldl (shrTurn a.pn (shift / 32) (shift % 32)) (List.replicate width 0),
    length_turns (fun _ _ => length_shrTurn) _⟩

theorem getLsbD_word {l : List Word} {i t : Nat} (ht : t < 32) :
    (l.getD i 0).getLsbD t = (limbsValue l).testBit (32 * i + t) := by
  rw [testBit_limbsValue (by decide), Nat.mul_add_div (by decide), Nat.mul_add_mod, Nat.div_eq_of_lt ht,
    Nat.mod_eq_of_lt ht, Nat.add_zero]

theorem testBit_orIf {pn : List Word} {c : Prop} [Decidable c] {i j : Nat} {x : Word} :
    (limbsValue (if c then orAt pn i x else pn)).testBit j =
      ((limbsValue pn).testBit j || (decide c && decide (j / 32 = i) && decide (i < pn.length) && x.getLsbD (j % 32))) := by
  split
  · rename_i hc
    simp [testBit_orAt, hc]
  · rename_i hc
    simp [hc]

theorem length_orIf {pn : List Word} {c : Prop} [Decidable c] {i : Nat} {x : Word} :
    (if c then orAt pn i x else pn).length = pn.length := by
  split
  · exact length_orAt
  · rfl

/-- A word goes to two places: its low bits to the upper part of one word, and its high bits to
the lower part of the next. -/
theorem testBit_shlTurn {l pn : List Word} {n j : Nat} : (limbsValue (shlTurn l (shift / 32) (shift % 32) pn n)).testBit j =
    ((limbsValue pn).testBit j || (decide (j < 32 * pn.length) && decide (shift + 32 * n ≤ j) &&
      decide (j < shift + 32 * (n + 1)) && (limbsValue l).testBit (j - shift))) := by
  have hlow : j / 32 = n + shift / 32 → shift % 32 ≤ j % 32 →
      (l.getD n 0).getLsbD (j % 32 - shift % 32) = (limbsValue l).testBit (j - shift) := by
    intro hword hbit
    rw [getLsbD_word (by omega), show 32 * n + (j % 32 - shift % 32) = j - shift by omega]
  have hhigh : j / 32 = n + shift / 32 + 1 → j % 32 < shift % 32 →
      (l.getD n 0).getLsbD (32 - shift % 32 + j % 32) = (limbsValue l).testBit (j - shift) := by
    intro hword hbit
    rw [getLsbD_word (by omega), show 32 * n + (32 - shift % 32 + j % 32) = j - shift by omega]
  have hnone : shift % 32 ≤ j % 32 → (l.getD n 0).getLsbD (32 - shift % 32 + j % 32) = false := fun h =>
    BitVec.getLsbD_of_ge _ _ (by omega)
  rw [shlTurn, testBit_orIf, testBit_orIf, length_orIf, BitVec.getLsbD_ushiftRight, BitVec.getLsbD_shiftLeft, Bool.or_assoc]
  congr 1
  rw [Bool.eq_iff_iff]
  simp only [Bool.or_eq_true, Bool.and_eq_true, Bool.not_eq_true', decide_eq_true_eq, decide_eq_false_iff_not]
  constructor
  · rintro (⟨⟨⟨⟨-, -⟩, hword⟩, hlen⟩, hbit⟩ | ⟨⟨⟨-, hword⟩, hlen⟩, ⟨-, hle⟩, hbit⟩)
    · by_cases hlt : j % 32 < shift % 32
      · exact ⟨⟨⟨by omega, by omega⟩, by omega⟩, hhigh hword hlt ▸ hbit⟩
      · rw [hnone (by omega)] at hbit
        cases hbit
    · exact ⟨⟨⟨by omega, by omega⟩, by omega⟩, hlow hword (by omega) ▸ hbit⟩
  · rintro ⟨⟨⟨hlen, hfrom⟩, hto⟩, hbit⟩
    by_cases hlt : j % 32 < shift % 32
    · have hword : j / 32 = n + shift / 32 + 1 := by omega
      exact .inl ⟨⟨⟨⟨by omega, by omega⟩, hword⟩, by omega⟩, (hhigh hword hlt).trans hbit⟩
    · have hword : j / 32 = n + shift / 32 := by omega
      exact .inr ⟨⟨⟨by omega, hword⟩, by omega⟩, ⟨by omega, hlt⟩, (hlow hword (by omega)).trans hbit⟩

theorem testBit_shrTurn {l pn : List Word} {n j : Nat} (hn : n < pn.length) :
    (limbsValue (shrTurn l (shift / 32) (shift % 32) pn n)).testBit j =
      ((limbsValue pn).testBit j || (decide (32 * n ≤ j + shift) && decide (j + shift < 32 * (n + 1)) &&
        (limbsValue l).testBit (j + shift))) := by
  have hlow : j / 32 = n - shift / 32 → shift / 32 ≤ n → j % 32 + shift % 32 < 32 →
      (l.getD n 0).getLsbD (shift % 32 + j % 32) = (limbsValue l).testBit (j + shift) := by
    intro hword hle hbit
    rw [getLsbD_word (by omega), show 32 * n + (shift % 32 + j % 32) = j + shift by omega]
  have hhigh : j / 32 = n - shift / 32 - 1 → shift / 32 + 1 ≤ n → 32 ≤ j % 32 + shift % 32 →
      (l.getD n 0).getLsbD (j % 32 - (32 - shift % 32)) = (limbsValue l).testBit (j + shift) := by
    intro hword hle hbit
    rw [getLsbD_word (by omega), show 32 * n + (j % 32 - (32 - shift % 32)) = j + shift by omega]
  have hnone : 32 ≤ j % 32 + shift % 32 → (l.getD n 0).getLsbD (shift % 32 + j % 32) = false := fun h =>
    BitVec.getLsbD_of_ge _ _ (by omega)
  rw [shrTurn, testBit_orIf, testBit_orIf, length_orIf, BitVec.getLsbD_ushiftRight, BitVec.getLsbD_shiftLeft, Bool.or_assoc]
  congr 1
  rw [Bool.eq_iff_iff]
  simp only [Bool.or_eq_true, Bool.and_eq_true, Bool.not_eq_true', decide_eq_true_eq, decide_eq_false_iff_not]
  constructor
  · rintro (⟨⟨⟨⟨hle, hs⟩, hword⟩, -⟩, ⟨-, hge⟩, hbit⟩ | ⟨⟨⟨hle, hword⟩, -⟩, hbit⟩)
    · exact ⟨⟨by omega, by omega⟩, hhigh hword hle (by omega) ▸ hbit⟩
    · by_cases hlt : j % 32 + shift % 32 < 32
      · exact ⟨⟨by omega, by omega⟩, hlow hword hle hlt ▸ hbit⟩
      · rw [hnone (by omega)] at hbit
        cases hbit
  · rintro ⟨⟨hfrom, hto⟩, hbit⟩
    by_cases hlt : j % 32 + shift % 32 < 32
    · have hword : j / 32 = n - shift / 32 := by omega
      exact .inr ⟨⟨⟨by omega, hword⟩, by omega⟩, (hlow hword (by omega) hlt).trans hbit⟩
    · have hword : j / 32 = n - shift / 32 - 1 := by omega
      exact .inl ⟨⟨⟨⟨by omega, by omega⟩, hword⟩, by omega⟩, ⟨by omega, by omega⟩,
        (hhigh hword (by omega) (by omega)).trans hbit⟩

theorem testBit_shlTurns (width shift : Nat) (l : List Word) (n j : Nat) :
    (limbsValue ((List.range n).foldl (shlTurn l (shift / 32) (shift % 32)) (List.replicate width 0))).testBit j =
      (decide (j < 32 * width) && decide (shift ≤ j) && decide (j < shift + 32 * n) && (limbsValue l).testBit (j - shift)) := by
  induction n with
  | zero =>
    by_cases hle : shift ≤ j
    · simp [Nat.not_lt.2 hle]
    · simp [hle]
  | succ n ih =>
    rw [List.range_succ, List.foldl_append, List.foldl_cons, List.foldl_nil, testBit_shlTurn, ih,
      length_turns (fun _ _ => length_shlTurn), Bool.eq_iff_iff]
    simp only [Bool.or_eq_true, Bool.and_eq_true, decide_eq_true_eq]
    constructor
    · rintro (⟨⟨⟨hlen, hfrom⟩, hto⟩, hbit⟩ | ⟨⟨⟨hlen, hfrom⟩, hto⟩, hbit⟩)
      · exact ⟨⟨⟨hlen, hfrom⟩, by omega⟩, hbit⟩
      · exact ⟨⟨⟨hlen, by omega⟩, hto⟩, hbit⟩
    · rintro ⟨⟨⟨hlen, hfrom⟩, hto⟩, hbit⟩
      rcases Nat.lt_or_ge j (shift + 32 * n) with hold | hnew
      · exact .inl ⟨⟨⟨hlen, hfrom⟩, hold⟩, hbit⟩
      · exact .inr ⟨⟨⟨hlen, hnew⟩, hto⟩, hbit⟩

theorem value_shl : (a.shl shift).value = a.value * 2 ^ shift % 2 ^ (32 * width) := by
  apply Nat.eq_of_testBit_eq
  intro j
  have hturns := testBit_shlTurns width shift a.pn width j
  have hhigh : ¬ j - shift < 32 * width → a.value.testBit (j - shift) = false := fun h =>
    Nat.testBit_lt_two_pow (value_lt.trans_le (Nat.pow_le_pow_right (by decide) (by omega)))
  rw [value, shl, hturns, Nat.testBit_mod_two_pow, ← Nat.shiftLeft_eq, Nat.testBit_shiftLeft, Bool.and_assoc, Bool.and_assoc]
  congr 2
  by_cases hlt : j - shift < 32 * width
  · rw [decide_eq_true (by omega : j < shift + 32 * width), Bool.true_and, value]
  · rw [← value, hhigh hlt, Bool.and_false]

theorem testBit_shrTurns (shift : Nat) (l : List Word) {n : Nat} (j : Nat) (hn : n ≤ width) :
    (limbsValue ((List.range n).foldl (shrTurn l (shift / 32) (shift % 32)) (List.replicate width 0))).testBit j =
      (decide (j + shift < 32 * n) && (limbsValue l).testBit (j + shift)) := by
  induction n with
  | zero => simp
  | succ n ih =>
    have hturn : ∀ (pn : List Word) i, (shrTurn l (shift / 32) (shift % 32) pn i).length = pn.length := fun _ _ =>
      length_shrTurn
    rw [List.range_succ, List.foldl_append, List.foldl_cons, List.foldl_nil,
      testBit_shrTurn (hn.trans_eq (length_turns hturn _).symm), ih (by omega), Bool.eq_iff_iff]
    simp only [Bool.or_eq_true, Bool.and_eq_true, decide_eq_true_eq]
    constructor
    · rintro (⟨hto, hbit⟩ | ⟨⟨-, hto⟩, hbit⟩)
      · exact ⟨by omega, hbit⟩
      · exact ⟨hto, hbit⟩
    · rintro ⟨hto, hbit⟩
      rcases Nat.lt_or_ge (j + shift) (32 * n) with hold | hnew
      · exact .inl ⟨hold, hbit⟩
      · exact .inr ⟨⟨hnew, hto⟩, hbit⟩

theorem value_shr : (a.shr shift).value = a.value / 2 ^ shift := by
  apply Nat.eq_of_testBit_eq
  intro j
  have hturns := testBit_shrTurns shift a.pn j (Nat.le_refl width)
  rw [value, shr, hturns, ← Nat.shiftRight_eq_div_pow, Nat.testBit_shiftRight, Nat.add_comm shift]
  by_cases hlt : j + shift < 32 * width
  · rw [decide_eq_true hlt, Bool.true_and, value]
  · have hhigh : a.value.testBit (j + shift) = false :=
      Nat.testBit_lt_two_pow (value_lt.trans_le (Nat.pow_le_pow_right (by decide) (by omega)))
    rw [hhigh, ← value, hhigh, Bool.and_false]

/-! ## Comparison -/

/-- `CompareTo`: from the top word down. -/
def compareTo (a b : BaseUint width) : Ordering := compareBelow a.pn b.pn width

theorem compareTo_eq : a.compareTo b = compare a.value b.value := by
  rw [compareTo, compareBelow_eq a.length_pn.ge b.length_pn.ge, value, value]
  rw [List.take_of_length_le a.length_pn.le, List.take_of_length_le b.length_pn.le]

/-- `operator>=`. -/
def ge (a b : BaseUint width) : Bool := (a.compareTo b).isGE

/-- `operator>`. -/
def gt (a b : BaseUint width) : Bool := (a.compareTo b).isGT

theorem ge_iff : a.ge b = true ↔ b.value ≤ a.value := by rw [ge, compareTo_eq, Nat.isGE_compare]

theorem gt_iff : a.gt b = true ↔ b.value < a.value := by
  rw [gt, compareTo_eq, Ordering.isGT_iff_eq_gt, Nat.compare_eq_gt]

/-- `EqualTo(uint64_t b)`. -/
def equalTo (a : BaseUint width) (b : BitVec 64) : Bool :=
  (a.pn.drop 2).all (· == 0) && a.pn.getD 1 0 == (b >>> 32).setWidth 32 && a.pn.getD 0 0 == b.setWidth 32

theorem equalTo_iff (hw : 2 ≤ width) {b : BitVec 64} : a.equalTo b = true ↔ a.value = b.toNat := by
  obtain ⟨n, rfl⟩ := Nat.exists_eq_add_of_le' hw
  rw [← value_ofUInt64 hw, value_inj]
  obtain ⟨pn, hlen⟩ := a
  obtain ⟨x, y, pn, rfl⟩ : ∃ x y l, pn = x :: y :: l := by
    match pn, hlen with
    | x :: y :: l, _ => exact ⟨x, y, l, rfl⟩
  have hrest : pn.length = n := by simpa using hlen
  simp only [equalTo, ofUInt64, mk.injEq, List.replicate_succ, List.set_cons_zero, List.set_cons_succ, List.cons.injEq]
  rw [List.eq_replicate_iff]
  simp [hrest]
  tauto

/-! ## Bits -/

/-- The highest bit of a word from `n` down, plus one; `1` when there is none above the lowest. -/
def topBit (x : Word) : Nat → Nat
  | 0 => 1
  | n + 1 => if x.getLsbD (n + 1) then n + 2 else topBit x n

def bitsBelow (pn : List Word) : Nat → Nat
  | 0 => 0
  | pos + 1 => if pn.getD pos 0 ≠ 0 then 32 * pos + topBit (pn.getD pos 0) 31 else bitsBelow pn pos

def bits (a : BaseUint width) : Nat := bitsBelow a.pn width

theorem topBit_eq {x : Word} {n : Nat} (hx : x ≠ 0) (h : x.toNat < 2 ^ (n + 1)) : topBit x n = x.toNat.size := by
  induction n with
  | zero =>
    have hpos : x.toNat ≠ 0 := fun h0 => hx (BitVec.eq_of_toNat_eq h0)
    rw [topBit, show x.toNat = 1 by omega, Nat.size_one]
  | succ n ih =>
    rw [topBit]
    split
    · rename_i hbit
      have hge : 2 ^ (n + 1) ≤ x.toNat := Nat.ge_two_pow_of_testBit hbit
      have hlt := Nat.lt_size.2 hge
      have hle := Nat.size_le.2 h
      omega
    · rename_i hbit
      apply ih
      apply Nat.lt_pow_two_of_testBit
      intro i hi
      rcases hi.eq_or_lt with rfl | hlt
      · exact Bool.eq_false_of_not_eq_true hbit
      · exact Nat.testBit_lt_two_pow (h.trans_le (Nat.pow_le_pow_right (by decide) hlt))

theorem size_add_mul {low n k : Nat} (hlow : low < 2 ^ n) (hk : k ≠ 0) : (low + 2 ^ n * k).size = n + k.size := by
  have hup : 2 ^ n * (k + 1) ≤ 2 ^ n * 2 ^ k.size := Nat.mul_le_mul_left _ (Nat.lt_size_self k)
  have hdown : 2 ^ n * 2 ^ (k.size - 1) ≤ 2 ^ n * k :=
    Nat.mul_le_mul_left _ (Nat.lt_size.1 (Nat.sub_lt (Nat.size_pos.2 (Nat.pos_of_ne_zero hk)) Nat.one_pos))
  rw [← Nat.pow_add] at hup hdown
  rw [Nat.mul_add, Nat.mul_one] at hup
  have hle : (low + 2 ^ n * k).size ≤ n + k.size := Nat.size_le.2 (by omega)
  have hlt : n + (k.size - 1) < (low + 2 ^ n * k).size := Nat.lt_size.2 (by omega)
  omega

theorem bitsBelow_eq {pn : List Word} {n : Nat} (h : n ≤ pn.length) : bitsBelow pn n = (limbsValue (pn.take n)).size := by
  induction n with
  | zero => simp [bitsBelow]
  | succ n ih =>
    have hlow := limbsValue_take_lt (a := pn) (i := n)
    rw [bitsBelow, limbsValue_take_succ h]
    split
    · rename_i hne
      rw [topBit_eq hne (pn.getD n 0).isLt, size_add_mul hlow fun h0 => hne (BitVec.eq_of_toNat_eq h0)]
    · rename_i hzero
      rw [not_not.1 hzero, ih (by omega)]
      simp

theorem bits_eq : a.bits = a.value.size := by
  rw [bits, bitsBelow_eq a.length_pn.ge, List.take_of_length_le a.length_pn.le, value]

/-! ## Division -/

/-- The turns from `shift = n - 1` down. The divisor stands at `div`, the rest at `num`, and the
quotient so far at the front. -/
def divLoop : Nat → BaseUint width → BaseUint width → BaseUint width → BaseUint width
  | 0, q, _, _ => q
  | shift + 1, q, num, div =>
    if num.ge div then
      divLoop shift ⟨orAt q.pn (shift / 32) ((1 : Word) <<< (shift % 32)), length_orAt.trans q.length_pn⟩ (num.sub div) (div.shr 1)
    else divLoop shift q num (div.shr 1)

/-- `operator/=`. -/
def div (a b : BaseUint width) : Option (BaseUint width) :=
  if b.bits = 0 then none
  else if a.bits < b.bits then some zero
  else some (divLoop (a.bits - b.bits + 1) zero a (b.shl (a.bits - b.bits)))

theorem value_setBit {q : BaseUint width} {n : Nat} (hn : n < 32 * width) (hq : q.value % 2 ^ (n + 1) = 0) :
    limbsValue (orAt q.pn (n / 32) ((1 : Word) <<< (n % 32))) = q.value + 2 ^ n := by
  have hsmall : 2 ^ n < 2 ^ (n + 1) := Nat.pow_lt_pow_right (by decide) (Nat.lt_succ_self n)
  have hor : q.value + 2 ^ n = q.value ||| 2 ^ n := by
    obtain ⟨c, hc⟩ := Nat.dvd_of_mod_eq_zero hq
    rw [hc, Nat.two_pow_add_eq_or_of_lt hsmall]
  rw [hor]
  apply Nat.eq_of_testBit_eq
  intro j
  rw [testBit_orAt (by decide), Nat.testBit_or, Nat.testBit_two_pow, value, q.length_pn, BitVec.getLsbD_shiftLeft]
  congr 1
  rw [Bool.eq_iff_iff]
  simp only [Bool.and_eq_true, Bool.not_eq_true', decide_eq_true_eq, decide_eq_false_iff_not]
  constructor
  · rintro ⟨⟨hword, -⟩, ⟨-, hle⟩, hbit⟩
    have hone : j % 32 - n % 32 = 0 := by simpa using hbit
    omega
  · rintro rfl
    exact ⟨⟨rfl, by omega⟩, ⟨by omega, by omega⟩, by simp⟩

theorem value_divLoop {d n : Nat} {q num div : BaseUint width} (hn : n ≤ 32 * width) (hq : q.value % 2 ^ n = 0)
    (hdiv : ∀ m, n = m + 1 → div.value = d * 2 ^ m) :
    (divLoop n q num div).value = q.value + (restore d n num.value).2 := by
  induction n generalizing q num div with
  | zero => rfl
  | succ n ih =>
    have hnow := hdiv n rfl
    have hback : ∀ m, n = m + 1 → (div.shr 1).value = d * 2 ^ m := by
      intro m hm
      rw [value_shr, hnow, hm, Nat.pow_succ, ← Nat.mul_assoc, Nat.pow_one, Nat.mul_div_cancel _ (by decide)]
    have hdvd : 2 ^ n ∣ q.value := (Nat.pow_dvd_pow 2 (Nat.le_succ n)).trans (Nat.dvd_of_mod_eq_zero hq)
    rw [divLoop, restore]
    by_cases hle : d * 2 ^ n ≤ num.value
    · rw [if_pos (ge_iff.2 (hnow.trans_le hle)), if_pos hle]
      have hset := value_setBit hn hq
      rw [ih (by omega) ?_ hback, value_sub (hnow.trans_le hle), hnow]
      · change limbsValue _ + _ = _
        rw [hset, Nat.add_assoc]
      · change limbsValue _ % _ = 0
        rw [hset]
        exact Nat.mod_eq_zero_of_dvd (Nat.dvd_add hdvd (Nat.dvd_refl _))
    · rw [if_neg fun hge => hle (hnow.symm.trans_le (ge_iff.1 hge)), if_neg hle]
      exact ih (by omega) (Nat.mod_eq_zero_of_dvd hdvd) hback

theorem value_div (h : b.value ≠ 0) : ∃ q, a.div b = some q ∧ q.value = a.value / b.value := by
  have hbits : b.value.size ≠ 0 := fun h0 => h (Nat.size_eq_zero.1 h0)
  rw [div, bits_eq, bits_eq, if_neg hbits]
  have hhigh : 2 ^ (b.value.size - 1) ≤ b.value := Nat.lt_size.1 (by omega)
  split
  · rename_i hlt
    have hle : a.value < 2 ^ (b.value.size - 1) := Nat.size_le.1 (by omega)
    exact ⟨zero, rfl, by rw [value_zero, Nat.div_eq_of_lt (hle.trans_le hhigh)]⟩
  · rename_i hge
    have hwidth : a.value.size ≤ 32 * width := Nat.size_le.2 value_lt
    have hshift : b.value * 2 ^ (a.value.size - b.value.size) < 2 ^ (32 * width) := by
      calc b.value * 2 ^ (a.value.size - b.value.size)
          < 2 ^ b.value.size * 2 ^ (a.value.size - b.value.size) :=
            Nat.mul_lt_mul_of_pos_right (Nat.lt_size_self _) (Nat.two_pow_pos _)
        _ = 2 ^ a.value.size := by rw [← Nat.pow_add, Nat.add_sub_cancel' (Nat.le_of_not_lt hge)]
        _ ≤ 2 ^ (32 * width) := Nat.pow_le_pow_right (by decide) hwidth
    have hover : a.value < b.value * 2 ^ (a.value.size - b.value.size + 1) := by
      calc a.value < 2 ^ a.value.size := Nat.lt_size_self _
        _ = 2 ^ (b.value.size - 1) * 2 ^ (a.value.size - b.value.size + 1) := by
          rw [← Nat.pow_add]
          congr 1
          omega
        _ ≤ b.value * 2 ^ (a.value.size - b.value.size + 1) := Nat.mul_le_mul_right _ hhigh
    refine ⟨_, rfl, ?_⟩
    rw [value_divLoop (d := b.value) (by omega) (by rw [value_zero, Nat.zero_mod]) ?_, value_zero, Nat.zero_add,
      restore_eq hover]
    rintro m hm
    rw [value_shl, Nat.mod_eq_of_lt hshift]
    congr 2
    omega

end BaseUint

end Zumy.Arith
