/-
  Zumy.Lib.Decimal — integers written in decimal one after the other.

  `decimal` writes an integer without leading zeros, a minus sign before a negative one.
  Two of them without anything between them can often be cut elsewhere.

  - `decimalValue_decimal`: one integer alone is read back from its decimals.
  - `mem_cuts`: `cuts` lists the triples of integers whose decimals, one after the other, are
    a given text.
-/
import Mathlib.Data.List.Infix
import Mathlib.Data.List.Range

namespace Zumy.Lib

def decimal : Int → List Char
  | .ofNat n => Nat.toDigits 10 n
  | .negSucc n => '-' :: Nat.toDigits 10 (n + 1)

def decimalValue : List Char → Int
  | '-' :: l => -(Nat.ofDigitChars 10 l 0 : Int)
  | l => Nat.ofDigitChars 10 l 0

theorem decimalValue_of_not_minus {l : List Char} (h : ∀ l', l ≠ '-' :: l') : decimalValue l = Nat.ofDigitChars 10 l 0 := by
  unfold decimalValue
  split
  · rename_i l'
    exact absurd rfl (h l')
  · rfl

theorem decimalValue_decimal (i : Int) : decimalValue (decimal i) = i := by
  cases i with
  | negSucc n =>
    show -(Nat.ofDigitChars 10 (Nat.toDigits 10 (n + 1)) 0 : Int) = Int.negSucc n
    rw [Nat.ofDigitChars_ten_toDigits, Int.negSucc_eq]
    rfl
  | ofNat n =>
    show decimalValue (Nat.toDigits 10 n) = n
    rw [decimalValue_of_not_minus, Nat.ofDigitChars_ten_toDigits]
    intro l' h
    have hdigit : '-'.isDigit = true := by
      apply Nat.isDigit_of_mem_toDigits (b := 10) (n := n) (by decide) (by decide)
      rw [h]
      exact List.mem_cons_self
    revert hdigit
    decide

def readDecimal (l : List Char) : Option Int := if decimal (decimalValue l) = l then some (decimalValue l) else none

theorem readDecimal_eq_some {l : List Char} {i : Int} : readDecimal l = some i ↔ decimal i = l := by
  unfold readDecimal
  constructor
  · intro h
    split at h
    · rename_i hl
      cases h
      exact hl
    · cases h
  · intro h
    subst h
    rw [decimalValue_decimal, if_pos rfl]

def cuts (l : List Char) : List (Int × Int × Int) :=
  (List.range (l.length + 1)).flatMap fun p =>
    (List.range ((l.drop p).length + 1)).filterMap fun q =>
      (readDecimal (l.take p)).bind fun i =>
        (readDecimal ((l.drop p).take q)).bind fun j =>
          (readDecimal ((l.drop p).drop q)).map fun k => (i, j, k)

theorem mem_cuts {l : List Char} {i j k : Int} : (i, j, k) ∈ cuts l ↔ decimal i ++ decimal j ++ decimal k = l := by
  unfold cuts
  simp only [List.mem_flatMap, List.mem_range, List.mem_filterMap, Option.bind_eq_some_iff, Option.map_eq_some_iff,
    readDecimal_eq_some, Prod.mk.injEq]
  constructor
  · intro h
    obtain ⟨p, -, q, -, i', hi, j', hj, k', hk, rfl, rfl, rfl⟩ := h
    rw [hi, hj, hk, List.append_assoc, List.take_append_drop, List.take_append_drop]
  · intro h
    subst h
    refine ⟨(decimal i).length, ?_, (decimal j).length, ?_, i, ?_, j, ?_, k, ?_, rfl, rfl, rfl⟩
    · simp only [List.length_append]
      omega
    · simp only [List.length_drop, List.length_append]
      omega
    · rw [List.append_assoc, List.take_left]
    · rw [List.append_assoc, List.drop_left, List.take_left]
    · rw [List.append_assoc, List.drop_left, List.drop_left]

end Zumy.Lib
