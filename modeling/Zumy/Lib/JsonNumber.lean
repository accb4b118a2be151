/-
  Zumy.Lib.JsonNumber — the numbers of JSON: a text, and the exact rational it stands for.

  A number's parts carry the grammar, so only a well-formed number can be built: a run of
  digits is not empty, and only `0` starts with a zero.

  - `takeWhile_digits_append`: where a run of digits ends is read off the text.
  - `abs_of_mul_zpow`: when a factor that is not divisible by ten, times a power of ten, is an
    integer, the power is not negative.
-/
import Mathlib.Algebra.Order.Field.Power
import Mathlib.Algebra.Order.Ring.Rat
import Mathlib.Tactic.Linarith
import Mathlib.Tactic.NormNum
import Mathlib.Tactic.Positivity
import Mathlib.Tactic.Ring

namespace Zumy.Lib

structure Digits where
  chars : List Char
  ne_nil : chars ≠ []
  isDigit : ∀ c ∈ chars, c.isDigit = true

structure JsonExponent where
  mark : Char
  isMark : mark = 'e' ∨ mark = 'E'
  /-- The sign, when one is written: `true` for a minus -/
  sign : Option Bool
  digits : Digits

structure JsonNumber where
  minus : Bool
  whole : Digits
  noLeadingZero : whole.chars.head? = some '0' → whole.chars = ['0']
  fraction : Option Digits
  exponent : Option JsonExponent

def minusText (minus : Bool) : List Char := if minus then ['-'] else []

def signText : Option Bool → List Char
  | none => []
  | some false => ['+']
  | some true => ['-']

def fractionText : Option Digits → List Char
  | none => []
  | some fraction => '.' :: fraction.chars

def exponentText : Option JsonExponent → List Char
  | none => []
  | some e => e.mark :: (signText e.sign ++ e.digits.chars)

def fractionDigits : Option Digits → List Char
  | none => []
  | some fraction => fraction.chars

def exponentDigits : Option JsonExponent → List Char
  | none => []
  | some e => e.digits.chars

def exponentMinus : Option JsonExponent → Bool
  | none => false
  | some e => e.sign = some true

def signed (minus : Bool) (n : Int) : Int := if minus then -n else n

namespace JsonNumber

def text (n : JsonNumber) : List Char :=
  minusText n.minus ++ (n.whole.chars ++ (fractionText n.fraction ++ exponentText n.exponent))

def significand (n : JsonNumber) : Nat := Nat.ofDigitChars 10 (n.whole.chars ++ fractionDigits n.fraction) 0

def exponentValue (n : JsonNumber) : Int :=
  signed (exponentMinus n.exponent) (Nat.ofDigitChars 10 (exponentDigits n.exponent) 0)

def value (n : JsonNumber) : ℚ :=
  signed n.minus n.significand * (10 : ℚ) ^ (n.exponentValue - (fractionDigits n.fraction).length)

end JsonNumber

/-! ## Digits -/

def Stops (l : List Char) : Prop := ∀ c ∈ l.head?, c.isDigit = false

theorem toNat_of_isDigit {c : Char} (h : c.isDigit = true) : '0'.toNat ≤ c.toNat ∧ c.toNat - '0'.toNat < 10 := by
  have hc := Char.isDigit_iff_toNat.1 h
  have h9 : '9'.toNat = '0'.toNat + 9 := rfl
  omega

theorem takeWhile_digits_append {ds l : List Char} (hds : ∀ c ∈ ds, c.isDigit = true) (hl : Stops l) :
    (ds ++ l).takeWhile Char.isDigit = ds ∧ (ds ++ l).dropWhile Char.isDigit = l := by
  have hstop : l.takeWhile Char.isDigit = [] ∧ l.dropWhile Char.isDigit = l := by
    cases l with
    | nil => exact ⟨rfl, rfl⟩
    | cons c l =>
      have hc : c.isDigit = false := hl c rfl
      exact ⟨List.takeWhile_cons_of_neg (by simp [hc]), List.dropWhile_cons_of_neg (by simp [hc])⟩
  rw [List.takeWhile_append_of_pos hds, List.dropWhile_append_of_pos hds, hstop.1, hstop.2]
  exact ⟨List.append_nil ds, rfl⟩

theorem ofDigitChars_lt {ds : List Char} (hds : ∀ c ∈ ds, c.isDigit = true) : Nat.ofDigitChars 10 ds 0 < 10 ^ ds.length := by
  induction ds with
  | nil => simp
  | cons c ds ih =>
    obtain ⟨-, hc⟩ := toNat_of_isDigit (hds c List.mem_cons_self)
    have hrest := ih fun c h => hds c (List.mem_cons_of_mem _ h)
    rw [Nat.ofDigitChars_cons, Nat.ofDigitChars_eq_ofDigitChars_zero, List.length_cons, Nat.pow_succ, Nat.mul_zero, Nat.zero_add]
    have hle := Nat.mul_le_mul_left (10 ^ ds.length) (Nat.le_of_lt_succ hc)
    omega

theorem stops_nil : Stops [] := fun _ h => by simp at h

theorem stops_cons {c : Char} {l : List Char} (h : c.isDigit = false) : Stops (c :: l) := by
  intro d hd
  cases hd
  exact h

theorem stops_exponentText (e : Option JsonExponent) : Stops (exponentText e) := by
  cases e with
  | none => exact stops_nil
  | some e => obtain h | h := e.isMark <;> exact stops_cons (by rw [h]; decide)

theorem stops_fractionText (f : Option Digits) (e : Option JsonExponent) : Stops (fractionText f ++ exponentText e) := by
  cases f with
  | none => exact stops_exponentText e
  | some f => exact stops_cons (by decide)

/-! ## Multiples of powers of ten -/

/-- A multiple of a negative power of ten that is an integer: the factor is divisible by ten. -/
theorem nonneg_of_mul_zpow {m v e : Int} (h : (m : ℚ) * (10 : ℚ) ^ e = v) (hm : ¬ (10 : Int) ∣ m) : 0 ≤ e := by
  by_contra hneg
  obtain ⟨k, rfl⟩ : ∃ k : Nat, e = -((k + 1 : Nat) : Int) := ⟨(-e - 1).toNat, by omega⟩
  rw [zpow_neg, zpow_natCast, ← div_eq_mul_inv, div_eq_iff (by positivity)] at h
  have hint : m = v * 10 ^ (k + 1) := by exact_mod_cast h
  exact hm (hint ▸ Dvd.dvd.mul_left (dvd_pow_self 10 (Nat.succ_ne_zero k)) v)

theorem abs_of_mul_zpow {m v e : Int} (h : (m : ℚ) * (10 : ℚ) ^ e = v) (hm : ¬ (10 : Int) ∣ m) : |m| * 10 ^ e.toNat = |v| := by
  have he := nonneg_of_mul_zpow h hm
  obtain ⟨k, rfl⟩ := Int.eq_ofNat_of_zero_le he
  rw [zpow_natCast] at h
  have hint : m * 10 ^ k = v := by exact_mod_cast h
  rw [← hint, abs_mul, abs_of_nonneg (show (0 : Int) ≤ 10 ^ k by positivity)]
  rfl

/-- Digits that lead, not divisible by ten, bound what is left when the zeros at the end are taken off. -/
theorem le_of_leading {a j b m z : Nat} (ha : ¬ 10 ∣ a) (hb : b < 10 ^ j) (h : m * 10 ^ z = a * 10 ^ j + b) : a ≤ m := by
  have hzj : z ≤ j := by
    by_contra hlt
    have hdvd : 10 ^ (j + 1) ∣ a * 10 ^ j + b := h ▸ Dvd.dvd.mul_left (pow_dvd_pow 10 (by omega)) m
    have hb0 : 10 ^ j ∣ b := (Nat.dvd_add_right (Nat.dvd_mul_left _ a)).1 ((pow_dvd_pow 10 (Nat.le_succ j)).trans hdvd)
    rw [Nat.eq_zero_of_dvd_of_lt hb0 hb, Nat.add_zero, Nat.pow_succ, Nat.mul_comm a] at hdvd
    exact ha (Nat.dvd_of_mul_dvd_mul_left (by positivity) hdvd)
  have hle : a * 10 ^ z ≤ m * 10 ^ z := by
    calc a * 10 ^ z ≤ a * 10 ^ j := Nat.mul_le_mul_left a (Nat.pow_le_pow_right (by decide) hzj)
      _ ≤ m * 10 ^ z := by omega
  exact Nat.le_of_mul_le_mul_right hle (by positivity)

end Zumy.Lib
