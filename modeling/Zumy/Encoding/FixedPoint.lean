/-
  Zumy.Encoding.FixedPoint — utilstrencodings.cpp: `ParseFixedPoint`, the decimal amounts of
  the RPC interface.

  The mantissa is read without the zeros at its end, which are counted. Signed operations on
  64 bits that overflow are an outcome of their own, `overflow`. The text's end is an `int`.

  - `mantissaDigits_ends`: reading the digits of a number; a refusal means that too many count.
  - `scan_ends`, `scan_text`: the scan accepts numbers only, and what it computes from one.
  - `parseFixedPoint_correct_iff`: the call is right for the texts of a given length when the
    length fits the `int`, and only then (`garbage_accepted`).
-/
import Mathlib.Algebra.Order.Ring.Int
import Mathlib.Data.Nat.Factorization.Basic
import Zumy.Lib.JsonNumber

namespace Zumy.Encoding

open Zumy.Lib

/-- How a call ends without an amount: it returns false, or an operation is undefined. -/
inductive Failure
  | refused
  | overflow
  deriving DecidableEq

abbrev Parsed := Except Failure

def int64 (n : Int) : Parsed Int := if -2 ^ 63 ≤ n ∧ n < 2 ^ 63 then .ok n else .error .overflow

/-- The conversion to `int` -/
def int32 (n : Nat) : Int := Int.bmod n (2 ^ 32)

def UPPER_BOUND : Int := 10 ^ 18 - 1

/-- `mantissa *= 10`, as often as asked for, each time behind the check -/
def timesTen (tooLarge : Int → Bool) : Nat → Int → Parsed Int
  | 0, mantissa => .ok mantissa
  | i + 1, mantissa => if tooLarge mantissa then .error .refused else int64 (mantissa * 10) >>= timesTen tooLarge i

structure Mantissa where
  mantissa : Int
  mantissa_tzeros : Nat

def processMantissaDigit (ch : Char) (m : Mantissa) : Parsed Mantissa :=
  if ch = '0' then .ok { m with mantissa_tzeros := m.mantissa_tzeros + 1 }
  else do
    let mantissa ← timesTen (fun mantissa => UPPER_BOUND / 10 < mantissa) (m.mantissa_tzeros + 1) m.mantissa
    let mantissa ← int64 (mantissa + (ch.toNat - '0'.toNat : Nat))
    return ⟨mantissa, 0⟩

def processExponentDigit (ch : Char) (exponent : Int) : Parsed Int :=
  if UPPER_BOUND / 10 < exponent then .error .refused
  else do
    let exponent ← int64 (exponent * 10)
    let exponent ← int64 (exponent + ch.toNat)
    int64 (exponent - '0'.toNat)

section Scan

variable {σ : Type}

/-- The loop over the digits at `ptr`: what they make, and the text behind them -/
def overDigits (process : Char → σ → Parsed σ) : σ → List Char → Parsed (σ × List Char)
  | s, [] => .ok (s, [])
  | s, ch :: val => if ch.isDigit then process ch s >>= fun s => overDigits process s val else .ok (s, ch :: val)

def someDigits (process : Char → σ → Parsed σ) (s : σ) (val : List Char) : Parsed (σ × List Char) :=
  if val.head?.any Char.isDigit then overDigits process s val else .error .refused

end Scan

def scanMinus : List Char → Bool × List Char
  | '-' :: val => (true, val)
  | val => (false, val)

def scanWhole : List Char → Parsed (Mantissa × List Char)
  | '0' :: val => .ok (⟨0, 0⟩, val)
  | val => someDigits processMantissaDigit ⟨0, 0⟩ val

def scanFraction (m : Mantissa) : List Char → Parsed ((Mantissa × Nat) × List Char)
  | '.' :: val => someDigits (fun ch (m : Mantissa × Nat) => (·, m.2 + 1) <$> processMantissaDigit ch m.1) (m, 0) val
  | val => .ok ((m, 0), val)

def scanExponentSign : List Char → Bool × List Char
  | '+' :: val => (false, val)
  | '-' :: val => (true, val)
  | val => (false, val)

def scanExponent : List Char → Parsed ((Bool × Int) × List Char)
  | [] => .ok ((false, 0), [])
  | ch :: val =>
    if ch = 'e' ∨ ch = 'E' then
      (fun e => (((scanExponentSign val).1, e.1), e.2)) <$> someDigits processExponentDigit 0 (scanExponentSign val).2
    else .ok ((false, 0), ch :: val)

structure Scanned where
  mantissa_sign : Bool
  mantissa : Mantissa
  point_ofs : Nat
  exponent_sign : Bool
  exponent : Int

def scan (val : List Char) : Parsed Scanned := do
  let sign := scanMinus val
  let whole ← scanWhole sign.2
  let fraction ← scanFraction whole.1 whole.2
  let exponent ← scanExponent fraction.2
  if exponent.2 = [] then return ⟨sign.1, fraction.1.1, fraction.1.2, exponent.1.1, exponent.1.2⟩ else .error .refused

/-- `n`, or its negation when the sign asks for it -/
def negateIf (sign : Bool) (n : Int) : Parsed Int := if sign then int64 (-n) else .ok n

def finalize (decimals : Nat) (s : Scanned) : Parsed Int := do
  let exponent ← negateIf s.exponent_sign s.exponent
  let exponent ← int64 (exponent - s.point_ofs)
  let exponent ← int64 (exponent + s.mantissa.mantissa_tzeros)
  let mantissa ← negateIf s.mantissa_sign s.mantissa.mantissa
  let exponent ← int64 (exponent + decimals)
  if exponent < 0 then .error .refused
  else if 18 ≤ exponent then .error .refused
  else do
    let mantissa ← timesTen (fun mantissa => UPPER_BOUND / 10 < mantissa ∨ mantissa < -(UPPER_BOUND / 10)) exponent.toNat mantissa
    if UPPER_BOUND < mantissa ∨ mantissa < -UPPER_BOUND then .error .refused else return mantissa

/-- `end` is an `int`: the call reads the characters in front of it, and none when it is negative.
The scan accepts only at the end of what it reads; with a negative end it finds no digit. -/
def parseFixedPoint (val : List Char) (decimals : Nat) : Parsed Int := do
  let s ← scan (val.take (int32 val.length).toNat)
  finalize decimals s

/-! ## How a call ends -/

/-- An outcome is an amount with the one property, or a refusal for the given reason. -/
inductive Ends {α : Type} (good : α → Prop) (reason : Prop) : Parsed α → Prop
  | ok {a : α} (h : good a) : Ends good reason (.ok a)
  | refused (h : reason) : Ends good reason (.error .refused)

section Ends

variable {α β : Type} {x : Parsed α} {good : α → Prop} {reason : Prop}

theorem Ends.amount {a : α} (h : Ends good reason (.ok a)) : good a := by
  cases h with
  | ok h => exact h

theorem Ends.refusal (h : Ends good reason (.error .refused)) : reason := by
  cases h with
  | refused h => exact h

theorem Ends.bind {f : α → Parsed β} {good' : β → Prop} {reason' : Prop} (h : Ends good reason x)
    (hf : ∀ a, good a → Ends good' reason' (f a)) (hreason : reason → reason') : Ends good' reason' (x >>= f) := by
  cases h with
  | ok h => exact hf _ h
  | refused h => exact .refused (hreason h)

theorem Ends.imp {good' : α → Prop} {reason' : Prop} (h : Ends good reason x) (hgood : ∀ a, good a → good' a)
    (hreason : reason → reason') : Ends good' reason' x := by
  cases h with
  | ok h => exact .ok (hgood _ h)
  | refused h => exact .refused (hreason h)

theorem Ends.map {f : α → β} {good' : β → Prop} (h : Ends good reason x) (hf : ∀ a, good a → good' (f a)) :
    Ends good' reason (f <$> x) := by
  cases h with
  | ok h => exact .ok (hf _ h)
  | refused h => exact .refused h

theorem Ends.map_trivial {f : α → β} (h : Ends good reason x) : Ends (fun _ => True) True (f <$> x) :=
  (h.imp (fun _ _ => trivial) fun _ => trivial).map fun _ _ => trivial

theorem Ends.ne_overflow (h : Ends good reason x) : x ≠ .error .overflow := by
  intro hx
  subst hx
  cases h

end Ends

theorem ok_bind {α β : Type} {a : α} {f : α → Parsed β} : ((.ok a : Parsed α) >>= f) = f a := rfl

theorem int64_of_mem {n : Int} (h : -2 ^ 63 ≤ n ∧ n < 2 ^ 63) : int64 n = .ok n := if_pos h

/-! ## Multiplying by ten -/

theorem timesTen_eq {tooLarge : Int → Bool} {n : Nat} {m : Int}
    (h : ∀ k : Nat, tooLarge (m * 10 ^ k) = decide (10 ^ 17 ≤ |m * 10 ^ k|)) :
    timesTen tooLarge n m = if n = 0 ∨ |m| * 10 ^ n < 10 ^ 18 then .ok (m * 10 ^ n) else .error .refused := by
  induction n generalizing m with
  | zero => simp [timesTen]
  | succ n ih =>
    have hpow : (1 : Int) ≤ 10 ^ n := Int.pow_pos (by decide)
    have hm := h 0
    rw [pow_zero, mul_one] at hm
    rw [timesTen, hm]
    by_cases hlarge : 10 ^ 17 ≤ |m|
    · rw [if_pos (by simpa using hlarge), if_neg]
      rintro (hn | hlt)
      · omega
      · have := Int.mul_le_mul_of_nonneg_left hpow (abs_nonneg m)
        rw [pow_succ, ← mul_assoc] at hlt
        omega
    · have hrange := abs_lt.1 (not_le.1 hlarge)
      rw [if_neg (by simpa using hlarge), int64_of_mem (by omega), ok_bind,
        ih fun k => by rw [mul_assoc, ← pow_succ']; exact h (k + 1), abs_mul, mul_assoc, mul_assoc, ← pow_succ']
      by_cases hn : n = 0
      · subst hn
        rw [if_pos (Or.inl rfl), if_pos (Or.inr (by simpa using by omega))]
      · have hor : (n = 0 ∨ |m| * 10 ^ (n + 1) < 10 ^ 18) ↔ (n + 1 = 0 ∨ |m| * 10 ^ (n + 1) < 10 ^ 18) := by omega
        rw [show |(10 : Int)| * 10 ^ n = 10 ^ (n + 1) by rw [pow_succ']; rfl]
        simp only [hor]

theorem timesTen_natCast {n a : Nat} : timesTen (fun mantissa => UPPER_BOUND / 10 < mantissa) n a =
    if n = 0 ∨ a * 10 ^ n < 10 ^ 18 then .ok ((a * 10 ^ n : Nat) : Int) else .error .refused := by
  rw [timesTen_eq]
  · have hcond : (n = 0 ∨ |(a : Int)| * 10 ^ n < 10 ^ 18) ↔ (n = 0 ∨ a * 10 ^ n < 10 ^ 18) := by
      rw [abs_of_nonneg (Int.natCast_nonneg a)]
      exact or_congr_right (by norm_cast)
    simp only [hcond]
    push_cast
    rfl
  · intro k
    have hbound : UPPER_BOUND / 10 = 10 ^ 17 - 1 := rfl
    rw [hbound, abs_of_nonneg (by positivity)]
    exact decide_eq_decide.2 (by omega)

/-! ## The mantissa -/

/-- The digits so far make `n`: the mantissa is `n` without the zeros at its end. -/
structure Reads (m : Mantissa) (n : Nat) (a : Nat) : Prop where
  mantissa : m.mantissa = a
  value : a * 10 ^ m.mantissa_tzeros = n
  stripped : a = 0 ∨ ¬ 10 ∣ a
  fits : a < 10 ^ 18

/-- Too many digits count: those in front, without the zeros at their end, do not fit. -/
def TooLong (n : Nat) : Prop := ∃ a j b, 10 ^ 18 ≤ a ∧ ¬ 10 ∣ a ∧ b < 10 ^ j ∧ n = a * 10 ^ j + b

theorem processMantissaDigit_ends {m : Mantissa} {n a : Nat} {ch : Char} (hm : Reads m n a) (hch : ch.isDigit = true) :
    Ends (fun m' => (∃ a', Reads m' (10 * n + (ch.toNat - '0'.toNat)) a') ∧ m'.mantissa_tzeros ≤ m.mantissa_tzeros + 1)
      (10 ^ 18 ≤ 10 * n + (ch.toNat - '0'.toNat) ∧ ¬ 10 ∣ 10 * n + (ch.toNat - '0'.toNat)) (processMantissaDigit ch m) := by
  obtain ⟨hge, hlt⟩ := toNat_of_isDigit hch
  have hten : a * 10 ^ (m.mantissa_tzeros + 1) = 10 * n := by rw [pow_succ, ← mul_assoc, hm.value, Nat.mul_comm]
  unfold processMantissaDigit
  split
  · rename_i hzero
    subst hzero
    exact .ok ⟨⟨a, hm.mantissa, hten, hm.stripped, hm.fits⟩, Nat.le_refl _⟩
  · rename_i hzero
    have hpos : 0 < ch.toNat - '0'.toNat := by
      have hne : ch.toNat ≠ '0'.toNat := fun heq => hzero (Char.toNat_inj.1 heq)
      omega
    generalize ch.toNat - '0'.toNat = k at hlt hpos ⊢
    rw [hm.mantissa, timesTen_natCast, hten]
    by_cases hfits : m.mantissa_tzeros + 1 = 0 ∨ 10 * n < 10 ^ 18
    · rw [if_pos hfits, ok_bind, int64_of_mem (by omega)]
      exact .ok ⟨⟨10 * n + k, by push_cast; rfl, by simp, Or.inr (by omega), by omega⟩, Nat.zero_le _⟩
    · rw [if_neg hfits]
      exact .refused ⟨by omega, by omega⟩

def mantissaDigits (ds : List Char) (m : Mantissa) : Parsed Mantissa := ds.foldlM (fun m ch => processMantissaDigit ch m) m

theorem mantissaDigits_append {ds ds' : List Char} {m : Mantissa} :
    mantissaDigits (ds ++ ds') m = mantissaDigits ds m >>= mantissaDigits ds' := List.foldlM_append

theorem mantissaDigits_ends {ds : List Char} {m : Mantissa} {n a : Nat} (hds : ∀ c ∈ ds, c.isDigit = true) (hm : Reads m n a) :
    Ends (fun m' => (∃ a', Reads m' (Nat.ofDigitChars 10 ds n) a') ∧ m'.mantissa_tzeros ≤ m.mantissa_tzeros + ds.length)
      (TooLong (Nat.ofDigitChars 10 ds n)) (mantissaDigits ds m) := by
  induction ds generalizing m n a with
  | nil => exact .ok ⟨⟨a, hm⟩, Nat.le_refl _⟩
  | cons c ds ih =>
    have hrest : ∀ c ∈ ds, c.isDigit = true := fun c h => hds c (List.mem_cons_of_mem _ h)
    unfold mantissaDigits
    rw [List.foldlM_cons, Nat.ofDigitChars_cons]
    refine (processMantissaDigit_ends hm (hds c List.mem_cons_self)).bind ?_ ?_
    · intro m' h
      obtain ⟨⟨a', hm'⟩, hzeros⟩ := h
      refine (ih hrest hm').imp ?_ id
      intro m'' h
      obtain ⟨hm'', hzeros'⟩ := h
      refine ⟨hm'', ?_⟩
      rw [List.length_cons]
      omega
    · intro h
      refine ⟨_, ds.length, _, h.1, h.2, ofDigitChars_lt hrest, ?_⟩
      rw [Nat.ofDigitChars_eq_ofDigitChars_zero, Nat.mul_comm]

/-! ## The exponent -/

theorem processExponentDigit_ends {e : Nat} {ch : Char} (he : e < 10 ^ 18) (hch : ch.isDigit = true) :
    Ends (fun e' : Int => e' = (10 * e + (ch.toNat - '0'.toNat) : Nat) ∧ 10 * e + (ch.toNat - '0'.toNat) < 10 ^ 18)
      (10 ^ 18 ≤ 10 * e + (ch.toNat - '0'.toNat)) (processExponentDigit ch e) := by
  obtain ⟨hge, hlt⟩ := toNat_of_isDigit hch
  have h0 : '0'.toNat = 48 := rfl
  have hbound : UPPER_BOUND / 10 = 10 ^ 17 - 1 := rfl
  unfold processExponentDigit
  rw [hbound]
  split
  · exact .refused (by omega)
  · rw [int64_of_mem (by omega), ok_bind, int64_of_mem (by omega), ok_bind, int64_of_mem (by omega)]
    exact .ok ⟨by omega, by omega⟩

def exponentLoop (ds : List Char) (e : Int) : Parsed Int := ds.foldlM (fun e ch => processExponentDigit ch e) e

theorem exponentLoop_ends {ds : List Char} {e : Nat} (hds : ∀ c ∈ ds, c.isDigit = true) (he : e < 10 ^ 18) :
    Ends (fun e' : Int => e' = (Nat.ofDigitChars 10 ds e : Nat) ∧ Nat.ofDigitChars 10 ds e < 10 ^ 18)
      (10 ^ 18 ≤ Nat.ofDigitChars 10 ds e) (exponentLoop ds e) := by
  induction ds generalizing e with
  | nil => exact .ok ⟨rfl, he⟩
  | cons c ds ih =>
    have hrest : ∀ c ∈ ds, c.isDigit = true := fun c h => hds c (List.mem_cons_of_mem _ h)
    unfold exponentLoop
    rw [List.foldlM_cons, Nat.ofDigitChars_cons]
    refine (processExponentDigit_ends he (hds c List.mem_cons_self)).bind ?_ ?_
    · intro e' h
      rw [h.1]
      exact ih hrest h.2
    · intro h
      rw [Nat.ofDigitChars_eq_ofDigitChars_zero]
      have hpow : 1 ≤ 10 ^ ds.length := Nat.pow_pos (by decide)
      have := Nat.mul_le_mul hpow h
      omega

/-! ## The scan -/

section Digits

variable {σ : Type} {process : Char → σ → Parsed σ} {s : σ}

theorem overDigits_eq {val : List Char} : overDigits process s val =
    (·, val.dropWhile Char.isDigit) <$> (val.takeWhile Char.isDigit).foldlM (fun s ch => process ch s) s := by
  induction val generalizing s with
  | nil => rfl
  | cons ch val ih =>
    unfold overDigits
    by_cases hch : ch.isDigit = true
    · rw [if_pos hch, List.takeWhile_cons_of_pos hch, List.dropWhile_cons_of_pos hch, List.foldlM_cons, map_bind]
      exact congrArg _ (funext fun s => ih)
    · rw [if_neg hch, List.takeWhile_cons_of_neg hch, List.dropWhile_cons_of_neg hch]
      rfl

theorem someDigits_text {ds : Digits} {rest : List Char} (h : Stops rest) :
    someDigits process s (ds.chars ++ rest) = (·, rest) <$> ds.chars.foldlM (fun s ch => process ch s) s := by
  obtain ⟨htake, hdrop⟩ := takeWhile_digits_append ds.isDigit h
  have hhead : (ds.chars ++ rest).head?.any Char.isDigit = true := by
    rw [List.head?_append_of_ne_nil _ ds.ne_nil, List.head?_eq_some_head ds.ne_nil]
    exact ds.isDigit _ (List.head_mem ds.ne_nil)
  rw [someDigits, if_pos hhead, overDigits_eq, htake, hdrop]

theorem someDigits_ends {val : List Char} (good : σ → Prop)
    (h : ∀ ds : List Char, (∀ c ∈ ds, c.isDigit = true) → Ends good True (ds.foldlM (fun s ch => process ch s) s)) :
    Ends (fun p => good p.1 ∧ ∃ ds : Digits, val = ds.chars ++ p.2) True (someDigits process s val) := by
  unfold someDigits
  split
  · rename_i hhead
    have htake : val.takeWhile Char.isDigit ≠ [] := by
      cases val with
      | nil => cases hhead
      | cons c val =>
        have hc : c.isDigit = true := hhead
        rw [List.takeWhile_cons_of_pos hc]
        exact List.cons_ne_nil _ _
    have hdigits : ∀ c ∈ val.takeWhile Char.isDigit, c.isDigit = true := fun c hc => List.all_eq_true.1 (List.all_takeWhile) c hc
    rw [overDigits_eq]
    refine (h _ hdigits).map ?_
    intro s' hs'
    exact ⟨hs', ⟨_, htake, hdigits⟩, (List.takeWhile_append_dropWhile).symm⟩
  · exact .refused trivial

end Digits

theorem scanMinus_text {minus : Bool} {rest : List Char} (h : rest.head? ≠ some '-') :
    scanMinus (minusText minus ++ rest) = (minus, rest) := by
  cases minus with
  | true => rfl
  | false =>
    show scanMinus rest = (false, rest)
    unfold scanMinus
    split
    · exact absurd rfl h
    · rfl

theorem scanMinus_eq (val : List Char) : val = minusText (scanMinus val).1 ++ (scanMinus val).2 := by
  unfold scanMinus
  split <;> rfl

theorem scanExponentSign_text (sign : Option Bool) (ds : Digits) (rest : List Char) :
    scanExponentSign (signText sign ++ (ds.chars ++ rest)) = (decide (sign = some true), ds.chars ++ rest) := by
  match sign with
  | some false => rfl
  | some true => rfl
  | none =>
    show scanExponentSign (ds.chars ++ rest) = (false, ds.chars ++ rest)
    have hhead : ∀ c, (ds.chars ++ rest).head? = some c → c.isDigit = true := by
      intro c hc
      rw [List.head?_append_of_ne_nil _ ds.ne_nil] at hc
      exact ds.isDigit c (List.mem_of_head? hc)
    unfold scanExponentSign
    split
    · rename_i hval
      exact absurd (hhead '+' (by rw [hval]; rfl)) (by decide)
    · rename_i hval
      exact absurd (hhead '-' (by rw [hval]; rfl)) (by decide)
    · rfl

theorem scanExponentSign_eq (val : List Char) : ∃ sign, val = signText sign ++ (scanExponentSign val).2 := by
  unfold scanExponentSign
  split
  · exact ⟨some false, rfl⟩
  · exact ⟨some true, rfl⟩
  · exact ⟨none, rfl⟩

theorem reads_zero : Reads ⟨0, 0⟩ 0 0 := ⟨rfl, rfl, Or.inl rfl, by decide⟩

theorem scanWhole_ends {val : List Char} :
    Ends (fun p => (∃ n a, Reads p.1 n a) ∧
      ∃ whole : Digits, (whole.chars.head? = some '0' → whole.chars = ['0']) ∧ val = whole.chars ++ p.2) True (scanWhole val) := by
  unfold scanWhole
  split
  · exact .ok ⟨⟨0, 0, reads_zero⟩, ⟨['0'], List.cons_ne_nil _ _, List.forall_mem_singleton.2 rfl⟩, fun _ => rfl, rfl⟩
  · rename_i hzero
    have hdigits : Ends (fun p => (∃ n a, Reads p.1 n a) ∧ ∃ ds : Digits, val = ds.chars ++ p.2) True
        (someDigits processMantissaDigit ⟨0, 0⟩ val) :=
      someDigits_ends (fun m => ∃ n a, Reads m n a) fun ds hds =>
        (mantissaDigits_ends hds reads_zero).imp (fun _ h => ⟨_, h.1⟩) fun _ => trivial
    refine hdigits.imp ?_ id
    intro p h
    obtain ⟨hreads, ds, hval⟩ := h
    refine ⟨hreads, ds, ?_, hval⟩
    intro hhead
    cases hds : ds.chars with
    | nil => exact absurd hds ds.ne_nil
    | cons c chars =>
      rw [hds] at hhead hval
      cases hhead
      exact absurd hval (hzero _)

theorem foldlM_fraction {ds : List Char} {m : Mantissa} {k : Nat} :
    ds.foldlM (fun (p : Mantissa × Nat) ch => (·, p.2 + 1) <$> processMantissaDigit ch p.1) (m, k) =
      (·, k + ds.length) <$> mantissaDigits ds m := by
  induction ds generalizing m k with
  | nil => rfl
  | cons c ds ih =>
    unfold mantissaDigits
    rw [List.foldlM_cons, List.foldlM_cons, bind_map_left, map_bind]
    refine congrArg _ (funext fun m' => ?_)
    rw [ih, List.length_cons, Nat.add_right_comm, Nat.add_assoc]
    rfl

theorem scanFraction_ends {m : Mantissa} {n a : Nat} {val : List Char} (hm : Reads m n a) :
    Ends (fun p => ∃ f, val = fractionText f ++ p.2) True (scanFraction m val) := by
  unfold scanFraction
  split
  · rename_i rest
    have hdigits : Ends (fun p => True ∧ ∃ ds : Digits, rest = ds.chars ++ p.2) True
        (someDigits (fun ch (m : Mantissa × Nat) => (·, m.2 + 1) <$> processMantissaDigit ch m.1) (m, 0) rest) := by
      refine someDigits_ends (fun _ => True) fun ds hds => ?_
      rw [foldlM_fraction]
      exact (mantissaDigits_ends hds hm).map_trivial
    refine hdigits.imp ?_ id
    intro p h
    obtain ⟨-, ds, hrest⟩ := h
    exact ⟨some ds, congrArg ('.' :: ·) hrest⟩
  · exact .ok ⟨none, rfl⟩

theorem scanExponent_ends {val : List Char} : Ends (fun p => ∃ e, val = exponentText e ++ p.2) True (scanExponent val) := by
  unfold scanExponent
  split
  · exact .ok ⟨none, rfl⟩
  · rename_i ch val
    split
    · rename_i hmark
      have hdigits : Ends (fun p => True ∧ ∃ ds : Digits, (scanExponentSign val).2 = ds.chars ++ p.2) True
          (someDigits processExponentDigit 0 (scanExponentSign val).2) :=
        someDigits_ends (fun _ => True) fun ds hds =>
          (exponentLoop_ends (e := 0) hds (by decide)).imp (fun _ _ => trivial) fun _ => trivial
      refine hdigits.map ?_
      intro p h
      obtain ⟨-, ds, hrest⟩ := h
      obtain ⟨sign, hsign⟩ := scanExponentSign_eq val
      refine ⟨some ⟨ch, hmark, sign, ds⟩, congrArg (ch :: ·) ?_⟩
      show val = signText sign ++ ds.chars ++ p.2
      rw [List.append_assoc, ← hrest]
      exact hsign
    · exact .ok ⟨none, rfl⟩

theorem scan_ends (val : List Char) : Ends (fun _ => ∃ n : JsonNumber, n.text = val) True (scan val) := by
  refine scanWhole_ends.bind ?_ id
  rintro ⟨m, rest⟩ ⟨⟨n, a, hm⟩, whole, hlead, hwhole⟩
  refine (scanFraction_ends hm).bind ?_ id
  rintro ⟨f, rest'⟩ ⟨fraction, hfraction⟩
  refine scanExponent_ends.bind ?_ id
  rintro ⟨e, rest''⟩ ⟨exponent, hexponent⟩
  show Ends _ _ (if rest'' = [] then _ else _)
  split
  · rename_i hnil
    subst hnil
    rw [List.append_nil] at hexponent
    refine .ok ⟨⟨(scanMinus val).1, whole, hlead, fraction, exponent⟩, ?_⟩
    show minusText (scanMinus val).1 ++ (whole.chars ++ (fractionText fraction ++ exponentText exponent)) = val
    rw [← hexponent, ← hfraction, ← hwhole]
    exact (scanMinus_eq val).symm
  · exact .refused trivial

def wholeDigits (n : JsonNumber) : List Char := if n.whole.chars = ['0'] then [] else n.whole.chars

def readNumber (n : JsonNumber) : Parsed Scanned := do
  let whole ← mantissaDigits (wholeDigits n) ⟨0, 0⟩
  let fraction ← mantissaDigits (fractionDigits n.fraction) whole
  let exponent ← exponentLoop (exponentDigits n.exponent) 0
  return ⟨n.minus, fraction, (fractionDigits n.fraction).length, exponentMinus n.exponent, exponent⟩

theorem scanWhole_text (n : JsonNumber) {rest : List Char} (h : Stops rest) :
    scanWhole (n.whole.chars ++ rest) = (·, rest) <$> mantissaDigits (wholeDigits n) ⟨0, 0⟩ := by
  unfold wholeDigits
  by_cases hzero : n.whole.chars = ['0']
  · rw [if_pos hzero, hzero]
    rfl
  · rw [if_neg hzero, scanWhole, someDigits_text h]
    · rfl
    · intro val hval
      apply hzero
      apply n.noLeadingZero
      have hhead : (n.whole.chars ++ rest).head? = n.whole.chars.head? := List.head?_append_of_ne_nil _ n.whole.ne_nil
      rw [← hhead, hval]
      rfl

theorem scanFraction_text {m : Mantissa} (f : Option Digits) (e : Option JsonExponent) :
    scanFraction m (fractionText f ++ exponentText e) =
      (fun m' => ((m', (fractionDigits f).length), exponentText e)) <$> mantissaDigits (fractionDigits f) m := by
  cases f with
  | some f =>
    show someDigits _ _ (f.chars ++ exponentText e) = _
    rw [someDigits_text (stops_exponentText e), foldlM_fraction, Nat.zero_add, Functor.map_map]
    rfl
  | none =>
    show scanFraction m (exponentText e) = .ok ((m, 0), exponentText e)
    unfold scanFraction
    split
    · rename_i rest heq
      cases e with
      | none => cases heq
      | some e =>
        have hmark : e.mark = '.' := (List.cons.inj heq).1
        obtain h | h := e.isMark <;> exact absurd (h.symm.trans hmark) (by decide)
    · rfl

theorem scanExponent_text (e : Option JsonExponent) :
    scanExponent (exponentText e) = (fun e' => ((exponentMinus e, e'), [])) <$> exponentLoop (exponentDigits e) 0 := by
  cases e with
  | none => rfl
  | some e =>
    have hsign := scanExponentSign_text e.sign e.digits []
    rw [List.append_nil] at hsign
    show (if e.mark = 'e' ∨ e.mark = 'E' then _ else _) = _
    rw [if_pos e.isMark, hsign, ← List.append_nil e.digits.chars, someDigits_text stops_nil, Functor.map_map, List.append_nil]
    rfl

theorem scan_text (n : JsonNumber) : scan n.text = readNumber n := by
  have hminus : scanMinus n.text =
      (n.minus, n.whole.chars ++ (fractionText n.fraction ++ exponentText n.exponent)) := by
    refine scanMinus_text ?_
    rw [List.head?_append_of_ne_nil _ n.whole.ne_nil]
    intro h
    exact absurd (n.whole.isDigit '-' (List.mem_of_head? h)) (by decide)
  unfold scan readNumber
  rw [hminus]
  dsimp only
  rw [scanWhole_text n (stops_fractionText _ _), bind_map_left]
  refine congrArg _ (funext fun whole => ?_)
  rw [scanFraction_text, bind_map_left]
  refine congrArg _ (funext fun fraction => ?_)
  rw [scanExponent_text, bind_map_left]
  exact congrArg _ (funext fun exponent => if_pos rfl)

theorem ofDigitChars_wholeDigits (n : JsonNumber) : Nat.ofDigitChars 10 (wholeDigits n ++ fractionDigits n.fraction) 0 = n.significand := by
  unfold wholeDigits JsonNumber.significand
  split
  · rename_i hzero
    rw [hzero]
    rfl
  · rfl

structure Knows (n : JsonNumber) (s : Scanned) : Prop where
  mantissa_sign : s.mantissa_sign = n.minus
  mantissa : ∃ a, Reads s.mantissa n.significand a
  tzeros : s.mantissa.mantissa_tzeros ≤ n.text.length
  point_ofs : s.point_ofs = (fractionDigits n.fraction).length
  exponent_sign : s.exponent_sign = exponentMinus n.exponent
  exponent : s.exponent = Nat.ofDigitChars 10 (exponentDigits n.exponent) 0
  exponent_fits : Nat.ofDigitChars 10 (exponentDigits n.exponent) 0 < 10 ^ 18

theorem length_text (n : JsonNumber) : n.whole.chars.length + (fractionDigits n.fraction).length ≤ n.text.length := by
  have hfraction : (fractionDigits n.fraction).length ≤ (fractionText n.fraction).length := by
    cases n.fraction with
    | none => exact Nat.le_refl _
    | some f => exact Nat.le_succ _
  simp only [JsonNumber.text, List.length_append]
  omega

theorem isDigit_fractionDigits (f : Option Digits) : ∀ c ∈ fractionDigits f, c.isDigit = true := by
  cases f with
  | none => exact fun c h => absurd h List.not_mem_nil
  | some f => exact f.isDigit

theorem isDigit_exponentDigits (e : Option JsonExponent) : ∀ c ∈ exponentDigits e, c.isDigit = true := by
  cases e with
  | none => exact fun c h => absurd h List.not_mem_nil
  | some e => exact e.digits.isDigit

theorem isDigit_wholeDigits (n : JsonNumber) : ∀ c ∈ wholeDigits n, c.isDigit = true := by
  unfold wholeDigits
  split
  · exact fun c h => absurd h List.not_mem_nil
  · exact n.whole.isDigit

theorem length_wholeDigits (n : JsonNumber) : (wholeDigits n).length ≤ n.whole.chars.length := by
  unfold wholeDigits
  split
  · exact Nat.zero_le _
  · exact Nat.le_refl _

theorem readNumber_ends (n : JsonNumber) : Ends (Knows n)
    (TooLong n.significand ∨ 10 ^ 18 ≤ Nat.ofDigitChars 10 (exponentDigits n.exponent) 0) (readNumber n) := by
  have hdigits : ∀ c ∈ wholeDigits n ++ fractionDigits n.fraction, c.isDigit = true := by
    intro c hc
    rcases List.mem_append.1 hc with hc | hc
    · exact isDigit_wholeDigits n c hc
    · exact isDigit_fractionDigits n.fraction c hc
  have hmantissa := mantissaDigits_ends hdigits reads_zero
  have hlength := length_text n
  have hwhole := length_wholeDigits n
  rw [ofDigitChars_wholeDigits, mantissaDigits_append] at hmantissa
  unfold readNumber
  rw [← bind_assoc]
  refine hmantissa.bind ?_ Or.inl
  rintro m ⟨hm, hzeros⟩
  refine (exponentLoop_ends (e := 0) (isDigit_exponentDigits n.exponent) (by decide)).bind ?_ Or.inr
  rintro e ⟨he, hfits⟩
  rw [List.length_append] at hzeros
  exact .ok ⟨rfl, hm, by simp only at hzeros ⊢; omega, rfl, rfl, he, hfits⟩

/-! ## The amount -/

theorem negateIf_eq {sign : Bool} {n : Nat} (h : n < 10 ^ 18) : negateIf sign n = .ok (signed sign n) := by
  cases sign with
  | true => exact int64_of_mem (by omega)
  | false => rfl

theorem signed_cases (sign : Bool) (n : Nat) : signed sign n = n ∨ signed sign n = -n := by
  cases sign with
  | true => exact Or.inr rfl
  | false => exact Or.inl rfl

theorem abs_signed (sign : Bool) (n : Nat) : |signed sign n| = n := by
  cases sign with
  | true => exact (abs_neg _).trans (abs_of_nonneg (Int.natCast_nonneg n))
  | false => exact abs_of_nonneg (Int.natCast_nonneg n)

def fixedExponent (s : Scanned) (decimals : Nat) : Int :=
  signed s.exponent_sign s.exponent - s.point_ofs + s.mantissa.mantissa_tzeros + decimals

theorem finalize_eq {s : Scanned} {decimals a e : Nat} (hm : s.mantissa.mantissa = a) (ha : a < 10 ^ 18) (hexp : s.exponent = e)
    (he : e < 10 ^ 18) (hofs : s.point_ofs < 2 ^ 31) (hzeros : s.mantissa.mantissa_tzeros < 2 ^ 31) (hdec : decimals ≤ 17) :
    finalize decimals s =
      if 0 ≤ fixedExponent s decimals ∧ fixedExponent s decimals < 18 ∧ a * 10 ^ (fixedExponent s decimals).toNat < 10 ^ 18
      then .ok (signed s.mantissa_sign a * 10 ^ (fixedExponent s decimals).toNat) else .error .refused := by
  have hsign := signed_cases s.exponent_sign e
  unfold finalize fixedExponent
  rw [hexp, hm, negateIf_eq he, ok_bind, int64_of_mem (by omega), ok_bind, int64_of_mem (by omega), ok_bind, negateIf_eq ha,
    ok_bind, int64_of_mem (by omega), ok_bind]
  generalize signed s.exponent_sign (e : Int) - s.point_ofs + s.mantissa.mantissa_tzeros + decimals = e'
  by_cases hneg : e' < 0
  · rw [if_pos hneg, if_neg (fun h => absurd h.1 (not_le.2 hneg))]
  by_cases hbig : 18 ≤ e'
  · rw [if_neg hneg, if_pos hbig, if_neg (fun h => absurd h.2.1 (not_lt.2 hbig))]
  have hbound : UPPER_BOUND / 10 = 10 ^ 17 - 1 := rfl
  have hsigned : |signed s.mantissa_sign a| = a := abs_signed _ a
  rw [if_neg hneg, if_neg hbig, timesTen_eq, hsigned]
  · have hcond : (e'.toNat = 0 ∨ (a : Int) * 10 ^ e'.toNat < 10 ^ 18) ↔ a * 10 ^ e'.toNat < 10 ^ 18 := by
      constructor
      · rintro (h | h)
        · rw [h, pow_zero, mul_one]
          exact ha
        · exact_mod_cast h
      · intro h
        exact Or.inr (by exact_mod_cast h)
    simp only [hcond]
    by_cases hfits : a * 10 ^ e'.toNat < 10 ^ 18
    · have habs : |signed s.mantissa_sign a * 10 ^ e'.toNat| < 10 ^ 18 := by
        rw [abs_mul, hsigned, abs_of_nonneg (show (0 : Int) ≤ 10 ^ e'.toNat by positivity)]
        exact_mod_cast hfits
      have hrange := abs_lt.1 habs
      have hupper : UPPER_BOUND = 10 ^ 18 - 1 := rfl
      rw [if_pos hfits, ok_bind, if_neg (by omega), if_pos ⟨by omega, by omega, hfits⟩]
      rfl
    · rw [if_neg hfits, if_neg fun h => hfits h.2.2]
      rfl
  · intro k
    rw [hbound]
    refine decide_eq_decide.2 ?_
    rw [le_abs]
    omega

/-- A text stands for an amount: it is a number, and the amount is the number's multiple. -/
def Represents (val : List Char) (decimals : Nat) (v : Int) : Prop :=
  |v| < 10 ^ 18 ∧ ∃ n : JsonNumber, n.text = val ∧ n.value * 10 ^ decimals = v

structure Correct (val : List Char) (decimals : Nat) : Prop where
  defined : parseFixedPoint val decimals ≠ .error .overflow
  sound : ∀ v, parseFixedPoint val decimals = .ok v → Represents val decimals v
  complete : ∀ v, Represents val decimals v → v ≠ 0 → parseFixedPoint val decimals = .ok v

/-- The number's multiple, from what is left of its digits when `z` zeros at their end are taken off -/
theorem value_mul {n : JsonNumber} (decimals : Nat) {a z : Nat} (h : a * 10 ^ z = n.significand) :
    n.value * 10 ^ decimals =
      signed n.minus a * (10 : ℚ) ^ (n.exponentValue - (fractionDigits n.fraction).length + z + decimals) := by
  have hsign : ((signed n.minus n.significand : Int) : ℚ) = (signed n.minus a : Int) * 10 ^ z := by
    rw [← h]
    unfold signed
    split <;> push_cast <;> ring
  have hten : (10 : ℚ) ≠ 0 := by norm_num
  unfold JsonNumber.value
  rw [hsign, add_assoc, zpow_add₀ hten _ ((z : Int) + decimals), zpow_add₀ hten, zpow_natCast, zpow_natCast]
  ring

theorem Knows.fixedExponent {n : JsonNumber} {s : Scanned} {decimals : Nat} (h : Knows n s) : fixedExponent s decimals =
    n.exponentValue - (fractionDigits n.fraction).length + s.mantissa.mantissa_tzeros + decimals := by
  unfold Encoding.fixedExponent JsonNumber.exponentValue
  rw [h.exponent_sign, h.exponent, h.point_ofs]

/-- The power of ten that the number's multiple has, when `z` zeros at the end of its digits are taken off -/
def multipleExponent (n : JsonNumber) (decimals z : Nat) : Int :=
  n.exponentValue - (fractionDigits n.fraction).length + z + decimals

theorem not_dvd_signed {sign : Bool} {a : Nat} (h : ¬ 10 ∣ a) : ¬ (10 : Int) ∣ signed sign a := by
  intro hdvd
  have habs := (dvd_abs 10 _).2 hdvd
  rw [abs_signed] at habs
  exact h (Int.natCast_dvd_natCast.1 habs)

theorem amount_of_stripped {n : JsonNumber} {decimals a z : Nat} {v : Int} (h : a * 10 ^ z = n.significand) (ha : ¬ 10 ∣ a)
    (hv : n.value * 10 ^ decimals = v) : 0 ≤ multipleExponent n decimals z ∧ a * 10 ^ (multipleExponent n decimals z).toNat = |v| := by
  rw [value_mul decimals h] at hv
  refine ⟨nonneg_of_mul_zpow hv (not_dvd_signed ha), ?_⟩
  rw [← abs_of_mul_zpow hv (not_dvd_signed ha), abs_signed]
  rfl

theorem exists_stripped {n : JsonNumber} {decimals : Nat} {v : Int} (hv : n.value * 10 ^ decimals = v) (hzero : v ≠ 0) :
    ∃ a z, a * 10 ^ z = n.significand ∧ ¬ 10 ∣ a := by
  have hsig : n.significand ≠ 0 := by
    intro hsig
    have hmul := value_mul (n := n) decimals (a := 0) (z := 0) (by rw [hsig, Nat.zero_mul])
    rw [hv] at hmul
    apply hzero
    have hsigned : signed n.minus ((0 : Nat) : Int) = 0 := by
      unfold signed
      split <;> rfl
    rw [hsigned, Int.cast_zero, zero_mul] at hmul
    exact_mod_cast hmul
  obtain ⟨z, a, ha, h⟩ := Nat.exists_eq_pow_mul_and_not_dvd hsig 10 (by decide)
  exact ⟨a, z, by rw [h, Nat.mul_comm], ha⟩

theorem lt_of_pow_le {k : Nat} {v : Int} {a : Nat} (ha : a ≠ 0) (h : (a : Int) * 10 ^ k = |v|) (hv : |v| < 10 ^ 18) : k < 18 := by
  by_contra hk
  have hpow : (10 : Int) ^ 18 ≤ 10 ^ k := pow_le_pow_right₀ (by decide) (not_lt.1 hk)
  have hone : (1 : Int) ≤ a := by omega
  have := Int.mul_le_mul hone hpow (by decide) (by omega)
  omega

/-- A number without an amount that the scan refuses: its digits, or its exponent, are too long. -/
theorem zero_of_refused {n : JsonNumber} {decimals : Nat} {v : Int} (hlen : n.text.length < 2 ^ 31) (hdec : decimals ≤ 17)
    (hrefused : TooLong n.significand ∨ 10 ^ 18 ≤ Nat.ofDigitChars 10 (exponentDigits n.exponent) 0) (hrange : |v| < 10 ^ 18)
    (hv : n.value * 10 ^ decimals = v) : v = 0 := by
  by_contra hzero
  obtain ⟨a, z, hsig, ha⟩ := exists_stripped hv hzero
  obtain ⟨hnonneg, habs⟩ := amount_of_stripped hsig ha hv
  have hpos : a ≠ 0 := fun h => ha (h ▸ dvd_zero 10)
  have hlength := length_text n
  rcases hrefused with hlong | hexp
  · obtain ⟨b, j, c, hb, hdvd, hc, hlead⟩ := hlong
    have hle : b ≤ a := le_of_leading hdvd hc (hsig.trans hlead)
    have hpow : (1 : Int) ≤ 10 ^ (multipleExponent n decimals z).toNat := Int.pow_pos (by decide)
    have := Int.mul_le_mul_of_nonneg_left hpow (Int.natCast_nonneg a)
    omega
  · have hsmall := lt_of_pow_le hpos habs hrange
    have hzlen : z < (n.whole.chars ++ fractionDigits n.fraction).length := by
      have hdigits : ∀ c ∈ n.whole.chars ++ fractionDigits n.fraction, c.isDigit = true := by
        intro c hc
        rcases List.mem_append.1 hc with hc | hc
        · exact n.whole.isDigit c hc
        · exact isDigit_fractionDigits n.fraction c hc
      refine (Nat.pow_lt_pow_iff_right (by decide : 1 < 10)).1 ?_
      calc 10 ^ z ≤ a * 10 ^ z := Nat.le_mul_of_pos_left _ (Nat.pos_of_ne_zero hpos)
        _ = n.significand := hsig
        _ < _ := ofDigitChars_lt hdigits
    rw [List.length_append] at hzlen
    unfold multipleExponent JsonNumber.exponentValue at hnonneg hsmall
    have hsign := signed_cases (exponentMinus n.exponent) (Nat.ofDigitChars 10 (exponentDigits n.exponent) 0)
    rcases hsign with hsign | hsign <;> rw [hsign] at hnonneg hsmall <;> omega

theorem finalize_ends {n : JsonNumber} {decimals : Nat} {s : Scanned} (hlen : n.text.length < 2 ^ 31) (hdec : decimals ≤ 17)
    (h : Knows n s) : Ends (fun v : Int => |v| < 10 ^ 18 ∧ n.value * 10 ^ decimals = v)
      (∀ v : Int, |v| < 10 ^ 18 → n.value * 10 ^ decimals = v → v = 0) (finalize decimals s) := by
  obtain ⟨a, hreads⟩ := h.mantissa
  have hlength := length_text n
  have hofs := h.point_ofs
  have hzeros := h.tzeros
  have hmul := value_mul decimals hreads.value
  rw [finalize_eq hreads.mantissa hreads.fits h.exponent h.exponent_fits (by omega) (by omega) hdec, h.mantissa_sign,
    h.fixedExponent]
  rw [← multipleExponent] at hmul ⊢
  split
  · rename_i hcond
    obtain ⟨hnonneg, -, hfits⟩ := hcond
    refine .ok ⟨?_, ?_⟩
    · rw [abs_mul, abs_signed, abs_of_nonneg (show (0 : Int) ≤ 10 ^ _ by positivity)]
      exact_mod_cast hfits
    · rw [hmul]
      obtain ⟨k, hk⟩ := Int.eq_ofNat_of_zero_le hnonneg
      rw [hk, zpow_natCast]
      push_cast
      rfl
  · rename_i hcond
    refine .refused ?_
    intro v hrange hv
    by_contra hzero
    have ha : ¬ 10 ∣ a := by
      rcases hreads.stripped with h0 | hdvd
      · obtain ⟨b, z, hsig, hb⟩ := exists_stripped hv hzero
        have h := hreads.value.trans hsig.symm
        rw [h0, Nat.zero_mul] at h
        have hb0 : b = 0 := (Nat.mul_eq_zero.1 h.symm).resolve_right (by positivity)
        exact absurd (hb0 ▸ dvd_zero 10) hb
      · exact hdvd
    obtain ⟨hnonneg, habs⟩ := amount_of_stripped hreads.value ha hv
    have hpos : a ≠ 0 := fun h => ha (h ▸ dvd_zero 10)
    have hsmall := lt_of_pow_le hpos habs hrange
    have hfits : (a : Int) * 10 ^ (multipleExponent n decimals s.mantissa.mantissa_tzeros).toNat < 10 ^ 18 := habs ▸ hrange
    exact hcond ⟨hnonneg, by omega, by exact_mod_cast hfits⟩

theorem int32_eq {n : Nat} (h : n < 2 ^ 31) : int32 n = n := Int.bmod_eq_of_le (by omega) (by omega)

theorem parseFixedPoint_eq {val : List Char} {decimals : Nat} (h : val.length < 2 ^ 31) :
    parseFixedPoint val decimals = scan val >>= finalize decimals := by
  unfold parseFixedPoint
  rw [int32_eq h, Int.toNat_natCast, List.take_length]

theorem parseFixedPoint_text {n : JsonNumber} {decimals : Nat} (hlen : n.text.length < 2 ^ 31) (hdec : decimals ≤ 17) :
    Ends (fun v : Int => |v| < 10 ^ 18 ∧ n.value * 10 ^ decimals = v)
      (∀ v : Int, |v| < 10 ^ 18 → n.value * 10 ^ decimals = v → v = 0) (parseFixedPoint n.text decimals) := by
  rw [parseFixedPoint_eq hlen, scan_text]
  exact (readNumber_ends n).bind (fun s hs => finalize_ends hlen hdec hs)
    fun hrefused v hrange hv => zero_of_refused hlen hdec hrefused hrange hv

theorem correct_of_length {val : List Char} {decimals : Nat} (hlen : val.length < 2 ^ 31) (hdec : decimals ≤ 17) :
    Correct val decimals := by
  have hscan := scan_ends val
  have hends : Ends (Represents val decimals) True (parseFixedPoint val decimals) := by
    cases hs : scan val with
    | error e =>
      rw [hs] at hscan
      rw [parseFixedPoint_eq hlen, hs]
      cases hscan with
      | refused h => exact .refused h
    | ok s =>
      rw [hs] at hscan
      obtain ⟨n, rfl⟩ := hscan.amount
      exact (parseFixedPoint_text hlen hdec).imp (fun v h => ⟨h.1, n, rfl, h.2⟩) fun _ => trivial
  refine ⟨hends.ne_overflow, ?_, ?_⟩
  · intro v hv
    rw [hv] at hends
    exact hends.amount
  · intro v hv hzero
    obtain ⟨hrange, n, hn, hvalue⟩ := hv
    subst hn
    have htext := parseFixedPoint_text (n := n) hlen hdec
    match hp : parseFixedPoint n.text decimals with
    | .ok v' =>
      rw [hp] at htext
      have heq : (v' : ℚ) = v := htext.amount.2.symm.trans hvalue
      rw [show v' = v by exact_mod_cast heq]
    | .error .refused =>
      rw [hp] at htext
      exact absurd (htext.refusal v hrange hvalue) hzero
    | .error .overflow =>
      rw [hp] at htext
      cases htext

/-! ## Texts whose length is no `int` -/

theorem isDigit_zeros (k : Nat) : ∀ c ∈ List.replicate k '0', c.isDigit = true := by
  intro c hc
  rw [List.eq_of_mem_replicate hc]
  rfl

/-- `k + 1` zeros -/
def zeros (k : Nat) : Digits := ⟨List.replicate (k + 1) '0', List.cons_ne_nil _ _, isDigit_zeros (k + 1)⟩

/-- `1.0…0` -/
def oneNumber (k : Nat) : JsonNumber := ⟨false, ⟨['1'], List.cons_ne_nil _ _, List.forall_mem_singleton.2 rfl⟩, by decide, some (zeros k), none⟩

theorem represents_oneNumber (k : Nat) : Represents (oneNumber k).text 0 1 := by
  refine ⟨by decide, oneNumber k, rfl, ?_⟩
  have hsig : 1 * 10 ^ (k + 1) = (oneNumber k).significand := by
    show _ = Nat.ofDigitChars 10 (['1'] ++ List.replicate (k + 1) '0') 0
    rw [Nat.ofDigitChars_append, Nat.ofDigitChars_replicate_zero, Nat.mul_comm]
    rfl
  have hlen : (fractionDigits (oneNumber k).fraction).length = k + 1 := List.length_replicate
  rw [value_mul 0 hsig, hlen]
  have hexp : (oneNumber k).exponentValue - ((k + 1 : Nat) : Int) + ((k + 1 : Nat) : Int) + ((0 : Nat) : Int) = 0 := by
    show (0 : Int) - _ + _ + _ = 0
    omega
  rw [hexp, zpow_zero, mul_one]
  rfl

/-- A zero, written with `r` characters -/
def zeroText : Nat → List Char
  | 0 => []
  | 1 => ['0']
  | 2 => ['-', '0']
  | r + 3 => '0' :: 'e' :: List.replicate (r + 1) '0'

theorem length_zeroText (r : Nat) : (zeroText r).length = r := by
  match r with
  | 0 => rfl
  | 1 => rfl
  | 2 => rfl
  | r + 3 => simp [zeroText]

theorem exponentLoop_zeros (k : Nat) : exponentLoop (List.replicate k '0') 0 = .ok 0 := by
  induction k with
  | zero => rfl
  | succ k ih =>
    have hdigit : processExponentDigit '0' 0 = .ok 0 := by decide
    unfold exponentLoop
    rw [List.replicate_succ, List.foldlM_cons, hdigit, ok_bind]
    exact ih

/-- `0e0…0` -/
def zeroNumber (r : Nat) : JsonNumber := ⟨false, zeros 0, fun _ => rfl, none, some ⟨'e', Or.inl rfl, none, zeros r⟩⟩

theorem readNumber_zeroNumber (r : Nat) : readNumber (zeroNumber r) = .ok ⟨false, ⟨0, 0⟩, 0, false, 0⟩ := by
  have hwhole : wholeDigits (zeroNumber r) = [] := rfl
  have hexp : exponentLoop (exponentDigits (zeroNumber r).exponent) 0 = .ok 0 := exponentLoop_zeros (r + 1)
  unfold readNumber
  rw [hwhole, hexp]
  rfl

theorem parseFixedPoint_zeroText {r : Nat} (hr : 0 < r) (hlt : r < 2 ^ 31) : parseFixedPoint (zeroText r) 0 = .ok 0 := by
  rw [parseFixedPoint_eq (by rw [length_zeroText]; exact hlt)]
  match r, hr with
  | 1, _ => rfl
  | 2, _ => rfl
  | r + 3, _ =>
    show scan (zeroNumber r).text >>= finalize 0 = .ok 0
    rw [scan_text, readNumber_zeroNumber, ok_bind]
    decide

theorem parseFixedPoint_take {val : List Char} {decimals r : Nat} (h : int32 val.length = r) (hr : r ≤ val.length) (hlt : r < 2 ^ 31) :
    parseFixedPoint val decimals = parseFixedPoint (val.take r) decimals := by
  have hlen : (val.take r).length = r := by rw [List.length_take, Nat.min_eq_left hr]
  have hright : parseFixedPoint (val.take r) decimals = scan (val.take r) >>= finalize decimals :=
    parseFixedPoint_eq (by rw [hlen]; exact hlt)
  rw [hright]
  unfold parseFixedPoint
  rw [h, Int.toNat_natCast]

theorem mem_text {n : JsonNumber} {c : Char} (h : c ∈ n.text) : c.isDigit = true ∨ c ∈ ['-', '.', 'e', 'E', '+'] := by
  unfold JsonNumber.text at h
  simp only [List.mem_append] at h
  rcases h with h | h | h | h
  · unfold minusText at h
    split at h <;> simp_all
  · exact Or.inl (n.whole.isDigit c h)
  · cases hf : n.fraction with
    | none => simp [hf, fractionText] at h
    | some f =>
      rw [hf] at h
      rcases List.mem_cons.1 h with rfl | h
      · exact Or.inr (by decide)
      · exact Or.inl (f.isDigit c h)
  · cases he : n.exponent with
    | none => simp [he, exponentText] at h
    | some e =>
      rw [he] at h
      rcases List.mem_cons.1 h with rfl | h
      · rcases e.isMark with hmark | hmark <;> rw [hmark] <;> exact Or.inr (by decide)
      · rcases List.mem_append.1 h with h | h
        · unfold signText at h
          split at h <;> simp_all
        · exact Or.inl (e.digits.isDigit c h)

/-- The end falls short of the text: what is in front of it is a zero, what follows is not read. -/
theorem not_correct_of_garbage {r k : Nat} (hr : 0 < r) (hlt : r < 2 ^ 31) (hk : 0 < k) (h : int32 (r + k) = r) :
    ¬ Correct (zeroText r ++ List.replicate k 'x') 0 := by
  intro hcorrect
  have hlen : (zeroText r ++ List.replicate k 'x').length = r + k := by
    rw [List.length_append, length_zeroText, List.length_replicate]
  have haccepted : parseFixedPoint (zeroText r ++ List.replicate k 'x') 0 = .ok 0 := by
    rw [parseFixedPoint_take (hlen ▸ h) (by omega) hlt, List.take_left' (length_zeroText r)]
    exact parseFixedPoint_zeroText hr hlt
  obtain ⟨-, n, htext, -⟩ := hcorrect.sound 0 haccepted
  have hx : 'x' ∈ n.text := htext ▸ List.mem_append_right _ (List.mem_replicate.2 ⟨by omega, rfl⟩)
  exact absurd (mem_text hx) (by decide)

theorem not_correct_of_negative {k : Nat} (h : int32 (k + 3) ≤ 0) : ¬ Correct (oneNumber k).text 0 := by
  intro hcorrect
  have hlen : (oneNumber k).text.length = k + 3 := by
    show ('1' :: '.' :: (List.replicate (k + 1) '0' ++ [])).length = k + 3
    simp
  have haccepted := hcorrect.complete 1 (represents_oneNumber k) (by decide)
  unfold parseFixedPoint at haccepted
  rw [hlen, Int.toNat_of_nonpos h] at haccepted
  cases haccepted

/-- Four gigabytes behind a zero are not read. -/
theorem garbage_accepted : ¬ Correct (zeroText 1 ++ List.replicate (2 ^ 32) 'x') 0 :=
  not_correct_of_garbage (by decide) (by decide) (by decide) (by decide)

theorem parseFixedPoint_correct_iff (length : Nat) :
    (∀ val decimals, val.length = length → decimals ≤ 17 → Correct val decimals) ↔ length < 2 ^ 31 := by
  constructor
  · intro h
    by_contra hlong
    by_cases hneg : int32 length ≤ 0
    · have hlen : (oneNumber (length - 3)).text.length = length := by
        show ('1' :: '.' :: (List.replicate (length - 3 + 1) '0' ++ [])).length = length
        simp
        omega
      refine not_correct_of_negative (k := length - 3) ?_ (h _ 0 hlen (Nat.zero_le _))
      rw [Nat.sub_add_cancel (by omega)]
      exact hneg
    · obtain ⟨r, hr⟩ := Int.eq_ofNat_of_zero_le (not_le.1 hneg).le
      have hlt : r < 2 ^ 31 := by
        have := Int.bmod_lt (x := length) (m := 2 ^ 32) (by decide)
        have hr' : Int.bmod length (2 ^ 32) = r := hr
        omega
      have hsum : r + (length - r) = length := by omega
      refine not_correct_of_garbage (r := r) (k := length - r) (by omega) hlt (by omega) (by rw [hsum]; exact hr) (h _ 0 ?_ (Nat.zero_le _))
      rw [List.length_append, length_zeroText, List.length_replicate, hsum]
  · intro h val decimals hlen hdec
    exact correct_of_length (hlen ▸ h) hdec

end Zumy.Encoding
