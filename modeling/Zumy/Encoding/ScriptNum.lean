/-
  Zumy.Encoding.ScriptNum — script.h: `CScriptNum`, the numbers of the scripts.

  A number is written as the bytes of its absolute value, the lowest first, with its sign in
  the high bit of the last one; a byte is added where that bit is in use. `none` is an
  operation that C++ leaves undefined: an overflow, a shift by 64 bits, or an assertion that
  fails.

  - `set_vch_concat`: how the decoder takes the two apart.
-/
import Mathlib.Data.Nat.Bitwise
import Mathlib.Tactic.Ring
import Zumy.Lib.Bytes

namespace Zumy.ScriptNum

open Lib

/-! ## The source -/

/-- `int64_t` arithmetic. -/
def int64 (n : Int) : Option Int64 := if -2 ^ 63 ≤ n ∧ n < 2 ^ 63 then some (Int64.ofInt n) else none

/-- The loop of `serialize`; an absolute value has eight bytes at most. -/
def absBytes : Nat → Nat → List UInt8
  | 0, _ => []
  | fuel + 1, absvalue => if absvalue = 0 then [] else UInt8.ofNat (absvalue % 256) :: absBytes fuel (absvalue / 256)

def withSign (neg : Bool) (result : List UInt8) : List UInt8 :=
  match result.getLast? with
  | none => []
  | some back =>
    if 128 ≤ back.toNat then result ++ [if neg then 0x80 else 0]
    else if neg then result.dropLast ++ [back ||| 0x80] else result

def serialize (value : Int64) : Option (List UInt8) :=
  if value = 0 then some []
  else if value = Int64.minValue then none
  else some (withSign (decide (value.toInt < 0)) (absBytes 8 value.toInt.natAbs))

/-- The loop of `set_vch`, from byte `i`. -/
def orBytes : Nat → Nat → List UInt8 → Nat
  | _, result, [] => result
  | i, result, b :: vch => orBytes (i + 1) (result ||| b.toNat <<< (8 * i)) vch

def set_vch (vch : List UInt8) : Option Int64 :=
  match vch.getLast? with
  | none => some 0
  | some back =>
    if 8 < vch.length then none
    else
      let result := orBytes 0 0 vch
      if 128 ≤ back.toNat then some (-(Int64.ofNat (result.ldiff (0x80 <<< (8 * (vch.length - 1))))))
      else some (Int64.ofNat result)

/-- The check of `fRequireMinimal`. -/
def minimal (vch : List UInt8) : Bool :=
  match vch.getLast? with
  | none => true
  | some back => back.toNat % 128 ≠ 0 || vch.dropLast.getLast?.any (128 ≤ ·.toNat)

structure CScriptNum where
  m_value : Int64
  deriving DecidableEq

namespace CScriptNum

/-- `CScriptNum(vch, fRequireMinimal, nMaxNumSize)`, with the text of the error it throws. -/
def ofVch (vch : List UInt8) (fRequireMinimal : Bool) (nMaxNumSize : Nat) : Except String (Option CScriptNum) :=
  if nMaxNumSize < vch.length then .error "script number overflow"
  else if fRequireMinimal && !minimal vch then .error "non-minimally encoded script number"
  else .ok ((set_vch vch).map .mk)

variable (a : CScriptNum) (rhs : Int64)

def add : Option CScriptNum := (int64 (a.m_value.toInt + rhs.toInt)).map .mk

def sub : Option CScriptNum := (int64 (a.m_value.toInt - rhs.toInt)).map .mk

/-- `operator-()` -/
def neg : Option CScriptNum := if a.m_value = Int64.minValue then none else (int64 (-a.m_value.toInt)).map .mk

/-- `operator+=`, with its assertion. -/
def addAssign : Option CScriptNum :=
  let value := a.m_value.toInt
  let rhs' := rhs.toInt
  if rhs' = 0 ∨ (0 < rhs' ∧ value ≤ 2 ^ 63 - 1 - rhs') ∨ (rhs' < 0 ∧ -2 ^ 63 - rhs' ≤ value) then a.add rhs else none

/-- `operator-=`, with its assertion. -/
def subAssign : Option CScriptNum :=
  let value := a.m_value.toInt
  let rhs' := rhs.toInt
  if rhs' = 0 ∨ (0 < rhs' ∧ -2 ^ 63 + rhs' ≤ value) ∨ (rhs' < 0 ∧ value ≤ 2 ^ 63 - 1 + rhs') then a.sub rhs else none

end CScriptNum

/-! ## Bytes of an absolute value -/

theorem ofLeBytes_lt (l : List UInt8) : ofLeBytes l < 256 ^ l.length := by
  induction l with
  | nil => exact Nat.one_pos
  | cons b l ih =>
    have hb := b.toNat_lt
    rw [ofLeBytes, List.length_cons, pow_succ]
    omega

theorem ofLeBytes_concat (l : List UInt8) (b : UInt8) : ofLeBytes (l ++ [b]) = ofLeBytes l + 256 ^ l.length * b.toNat := by
  induction l with
  | nil => simp [ofLeBytes]
  | cons a l ih =>
    rw [List.cons_append, ofLeBytes, ih, ofLeBytes, List.length_cons, pow_succ', Nat.mul_assoc]
    omega

theorem ofLeBytes_pos {l : List UInt8} {b : UInt8} (hlast : l.getLast? = some b) (hb : b ≠ 0) : 0 < ofLeBytes l := by
  obtain ⟨init, rfl⟩ := List.getLast?_eq_some_iff.1 hlast
  have hpos : 0 < b.toNat := Nat.pos_of_ne_zero fun hzero => hb (UInt8.toNat_inj.1 hzero)
  have hmul := Nat.mul_pos (Nat.pow_pos (n := init.length) (show 0 < 256 by decide)) hpos
  rw [ofLeBytes_concat]
  omega

theorem ofLeBytes_absBytes (k n : Nat) (hn : n < 256 ^ k) : ofLeBytes (absBytes k n) = n := by
  induction k generalizing n with
  | zero =>
    rw [pow_zero] at hn
    show 0 = n
    omega
  | succ k ih =>
    rw [absBytes]
    by_cases hzero : n = 0
    · rw [if_pos hzero, hzero]
      rfl
    · rw [if_neg hzero, ofLeBytes, ih _ (Nat.div_lt_of_lt_mul (by rwa [pow_succ'] at hn)), toNat_byte]
      omega

theorem length_absBytes (k n : Nat) : (absBytes k n).length ≤ k := by
  induction k generalizing n with
  | zero => rfl
  | succ k ih =>
    rw [absBytes]
    by_cases hzero : n = 0
    · rw [if_pos hzero]
      exact Nat.zero_le _
    · rw [if_neg hzero]
      exact Nat.succ_le_succ (ih _)

theorem absBytes_ofLeBytes {k : Nat} (l : List UInt8) (hk : l.length ≤ k) (hlast : l.getLast? ≠ some 0) :
    absBytes k (ofLeBytes l) = l := by
  induction l generalizing k with
  | nil => cases k <;> rfl
  | cons b l ih =>
    cases k with
    | zero => cases hk
    | succ k =>
      have hpos : 0 < ofLeBytes (b :: l) := by
        have hlast' := List.getLast?_eq_some_getLast (List.cons_ne_nil b l)
        exact ofLeBytes_pos hlast' fun hzero => hlast (hzero ▸ hlast')
      have hrest : l.getLast? ≠ some 0 := by
        cases l with
        | nil => simp
        | cons c l => exact hlast
      have hb := b.toNat_lt
      rw [absBytes, if_neg hpos.ne']
      rw [ofLeBytes, show (b.toNat + 256 * ofLeBytes l) % 256 = b.toNat by omega,
        show (b.toNat + 256 * ofLeBytes l) / 256 = ofLeBytes l by omega, ih (Nat.le_of_succ_le_succ hk) hrest, UInt8.ofNat_toNat]

theorem absBytes_last {k n : Nat} (hn : n < 256 ^ k) : (absBytes k n).getLast? ≠ some 0 := by
  induction k generalizing n with
  | zero => simp [absBytes]
  | succ k ih =>
    have hnext : n / 256 < 256 ^ k := Nat.div_lt_of_lt_mul (by rwa [pow_succ'] at hn)
    have hih := ih hnext
    have hvalue := ofLeBytes_absBytes k _ hnext
    rw [absBytes]
    by_cases hzero : n = 0
    · simp [hzero]
    · rw [if_neg hzero]
      cases hrest : absBytes k (n / 256) with
      | nil =>
        rw [hrest] at hvalue
        intro hlast
        have hbyte : (UInt8.ofNat (n % 256)).toNat = 0 := congrArg UInt8.toNat (Option.some.inj hlast)
        have hsmall : 0 = n / 256 := hvalue
        rw [toNat_byte] at hbyte
        omega
      | cons c l =>
        rw [hrest] at hih
        exact hih

/-! ## The decoder -/

theorem orBytes_eq (vch : List UInt8) {i result : Nat} (hresult : result < 256 ^ i) :
    orBytes i result vch = result + 256 ^ i * ofLeBytes vch := by
  induction vch generalizing i result with
  | nil => simp [orBytes, ofLeBytes]
  | cons b vch ih =>
    have hpow : 256 ^ i = 2 ^ (8 * i) := by rw [show 256 = 2 ^ 8 from rfl, ← pow_mul]
    have hor : result ||| b.toNat <<< (8 * i) = result + 256 ^ i * b.toNat := by
      rw [Nat.or_comm, ← Nat.shiftLeft_add_eq_or_of_lt (by rwa [← hpow]), Nat.shiftLeft_eq, hpow]
      ring
    have hb : b.toNat + 1 ≤ 256 := b.toNat_lt
    have hmul := Nat.mul_le_mul_left (256 ^ i) hb
    rw [Nat.mul_succ] at hmul
    rw [orBytes, hor, ih (by rw [pow_succ]; omega), ofLeBytes, pow_succ]
    ring

theorem ldiff_top {x i : Nat} (hx : x < 2 ^ i) : (x + 2 ^ i).ldiff (2 ^ i) = x := by
  apply Nat.eq_of_testBit_eq
  intro j
  rw [Nat.testBit_ldiff, Nat.testBit_two_pow, Nat.add_comm]
  rcases Nat.lt_trichotomy j i with hlt | rfl | hgt
  · simp [Nat.testBit_two_pow_add_gt hlt, hlt.ne']
  · simp [Nat.testBit_lt_two_pow hx]
  · have hpow : 2 ^ i * 2 ≤ 2 ^ j := by
      rw [← pow_succ]
      exact Nat.pow_le_pow_right (by decide) hgt
    rw [Nat.testBit_lt_two_pow (show 2 ^ i + x < 2 ^ j by omega), Nat.testBit_lt_two_pow (show x < 2 ^ j by omega)]
    rfl

/-- The absolute value of `init ++ [back]`. -/
def magnitude (init : List UInt8) (back : UInt8) : Nat := ofLeBytes init + 256 ^ init.length * (back.toNat % 128)

theorem magnitude_lt (init : List UInt8) (back : UInt8) : magnitude init back < 256 ^ init.length * 128 := by
  have hlow := ofLeBytes_lt init
  have hmul := Nat.mul_le_mul_left (256 ^ init.length) (Nat.succ_le_of_lt (Nat.mod_lt back.toNat (show 128 > 0 by decide)))
  unfold magnitude
  rw [Nat.mul_succ] at hmul
  omega

theorem set_vch_concat {init : List UInt8} (back : UInt8) (hlength : init.length ≤ 7) :
    ∃ v, set_vch (init ++ [back]) = some v ∧
      v.toInt = if 128 ≤ back.toNat then -(magnitude init back : Int) else magnitude init back := by
  have hresult : orBytes 0 0 (init ++ [back]) = ofLeBytes init + 256 ^ init.length * back.toNat := by
    rw [orBytes_eq _ (by simp), ofLeBytes_concat]
    simp
  have hlt : magnitude init back < 2 ^ 63 := by
    have hpow : 256 ^ init.length ≤ 256 ^ 7 := Nat.pow_le_pow_right (by decide) hlength
    have := magnitude_lt init back
    omega
  unfold set_vch
  rw [List.getLast?_concat]
  dsimp only
  rw [if_neg (by simp; omega), hresult, List.length_append, List.length_singleton, Nat.add_sub_cancel]
  have hback := back.toNat_lt
  by_cases hneg : 128 ≤ back.toNat
  · have hbit : 0x80 <<< (8 * init.length) = 2 ^ (8 * init.length + 7) := by
      rw [Nat.shiftLeft_eq, pow_add]
      ring
    have hpow : 256 ^ init.length = 2 ^ (8 * init.length) := by rw [show 256 = 2 ^ 8 from rfl, ← pow_mul]
    have hsplit : ofLeBytes init + 256 ^ init.length * back.toNat = magnitude init back + 2 ^ (8 * init.length + 7) := by
      have hmul : 256 ^ init.length * back.toNat = 256 ^ init.length * (back.toNat % 128) + 256 ^ init.length * 128 := by
        rw [← Nat.mul_add, show back.toNat % 128 + 128 = back.toNat by omega]
      rw [hmul, magnitude, pow_add, ← hpow]
      omega
    have hsmall : magnitude init back < 2 ^ (8 * init.length + 7) := by
      rw [pow_add, ← hpow]
      exact magnitude_lt init back
    refine ⟨_, if_pos hneg, ?_⟩
    rw [if_pos hneg, hbit, hsplit, ldiff_top hsmall, Int64.toInt_neg, Int64.toInt_ofNat_of_lt hlt]
    exact Int.bmod_eq_of_le (by omega) (by omega)
  · refine ⟨_, if_neg hneg, ?_⟩
    have hsame : ofLeBytes init + 256 ^ init.length * back.toNat = magnitude init back := by
      rw [magnitude, Nat.mod_eq_of_lt (by omega)]
    rw [if_neg hneg, hsame, Int64.toInt_ofNat_of_lt hlt]

/-! ## The encoder -/

theorem toNat_or_high {back : UInt8} (hlow : ¬ 128 ≤ back.toNat) : (back ||| 0x80).toNat = back.toNat + 128 := by
  have hor := Nat.two_pow_add_eq_or_of_lt (i := 7) (Nat.lt_of_not_le hlow) 1
  rw [UInt8.toNat_or]
  show back.toNat ||| 128 = _
  rw [Nat.or_comm, ← hor, Nat.add_comm]

theorem withSign_spec (neg : Bool) {result : List UInt8} (hne : result ≠ []) (hlast : result.getLast? ≠ some 0)
    (hlength : result.length ≤ 8) (hsmall : ofLeBytes result < 2 ^ 63) :
    ∃ init back, withSign neg result = init ++ [back] ∧ init.length ≤ 7 ∧ magnitude init back = ofLeBytes result ∧
      (128 ≤ back.toNat ↔ neg = true) ∧ minimal (init ++ [back]) = true := by
  obtain ⟨low, top, rfl⟩ : ∃ low top, result = low ++ [top] := ⟨_, _, (List.dropLast_concat_getLast hne).symm⟩
  have htop : top.toNat ≠ 0 := fun hzero => hlast (by
    rw [List.getLast?_concat]
    exact congrArg some (UInt8.toNat_inj.1 hzero))
  rw [ofLeBytes_concat] at hsmall ⊢
  rw [List.length_append, List.length_singleton] at hlength
  unfold withSign
  simp only [List.getLast?_concat, List.dropLast_concat]
  by_cases hhigh : 128 ≤ top.toNat
  · rw [if_pos hhigh]
    refine ⟨low ++ [top], if neg then 0x80 else 0, rfl, ?_, ?_, ?_, ?_⟩
    · by_contra hlong
      rw [List.length_append, List.length_singleton] at hlong
      have hseven : low.length = 7 := by omega
      rw [hseven] at hsmall
      omega
    · rw [magnitude, ofLeBytes_concat]
      cases neg <;> simp
    · cases neg <;> simp
    · simp [minimal, hhigh]
  · rw [if_neg hhigh]
    cases neg with
    | false => exact ⟨low, top, rfl, by omega, by rw [magnitude, Nat.mod_eq_of_lt (by omega)], by simpa using hhigh,
        by simp [minimal]; omega⟩
    | true =>
      have hor := toNat_or_high hhigh
      refine ⟨low, top ||| 0x80, rfl, by omega, ?_, by simp [hor], ?_⟩
      · rw [magnitude, hor]
        congr 2
        omega
      · simp [minimal, hor]
        omega

theorem magnitude_pos {init : List UInt8} {back : UInt8} (hmin : minimal (init ++ [back]) = true) : 0 < magnitude init back := by
  unfold magnitude
  by_cases hzero : back.toNat % 128 = 0
  · have hlast : init.getLast?.any (128 ≤ ·.toNat) = true := by simpa [minimal, hzero] using hmin
    obtain ⟨top, htop, hhigh⟩ := (Option.any_eq_true _ _).1 hlast
    have hpos := ofLeBytes_pos htop fun hnull => by
      rw [hnull] at hhigh
      exact absurd (of_decide_eq_true hhigh) (by decide)
    omega
  · have hmul := Nat.mul_pos (Nat.pow_pos (n := init.length) (show 0 < 256 by decide)) (Nat.pos_of_ne_zero hzero)
    omega

theorem withSign_concat {init : List UInt8} {back : UInt8} (hmin : minimal (init ++ [back]) = true) (hlength : init.length ≤ 7) :
    withSign (decide (128 ≤ back.toNat)) (absBytes 8 (magnitude init back)) = init ++ [back] := by
  have hback := back.toNat_lt
  by_cases hzero : back.toNat % 128 = 0
  · have hlast : init.getLast?.any (128 ≤ ·.toNat) = true := by simpa [minimal, hzero] using hmin
    obtain ⟨top, htop, hhigh⟩ := (Option.any_eq_true _ _).1 hlast
    have hhigh := of_decide_eq_true hhigh
    have hbytes : absBytes 8 (magnitude init back) = init := by
      rw [magnitude, hzero, Nat.mul_zero, Nat.add_zero]
      refine absBytes_ofLeBytes init (by omega) fun hnull => ?_
      cases hnull.symm.trans htop
      exact absurd hhigh (by decide)
    rw [hbytes, withSign, htop]
    dsimp only
    rw [if_pos hhigh]
    congr 2
    apply UInt8.toNat_inj.1
    by_cases hneg : 128 ≤ back.toNat
    · rw [if_pos (decide_eq_true hneg)]
      show 128 = back.toNat
      omega
    · rw [if_neg (by simpa using hneg)]
      show 0 = back.toNat
      omega
  · have hlow : (UInt8.ofNat (back.toNat % 128)).toNat = back.toNat % 128 := by
      rw [UInt8.toNat_ofNat', Nat.mod_eq_of_lt (by omega)]
    have hbytes : absBytes 8 (magnitude init back) = init ++ [UInt8.ofNat (back.toNat % 128)] := by
      have hvalue : magnitude init back = ofLeBytes (init ++ [UInt8.ofNat (back.toNat % 128)]) := by
        rw [magnitude, ofLeBytes_concat, hlow]
      rw [hvalue]
      refine absBytes_ofLeBytes _ (by simp; omega) fun hnull => hzero ?_
      rw [List.getLast?_concat, Option.some.injEq] at hnull
      rw [← hlow, hnull]
      rfl
    have hnot : ¬ 128 ≤ (UInt8.ofNat (back.toNat % 128)).toNat := by omega
    rw [hbytes, withSign, List.getLast?_concat]
    dsimp only
    rw [if_neg hnot, List.dropLast_concat]
    by_cases hneg : 128 ≤ back.toNat
    · rw [if_pos (decide_eq_true hneg)]
      congr 2
      apply UInt8.toNat_inj.1
      rw [toNat_or_high hnot]
      omega
    · rw [if_neg (by simpa using hneg)]
      congr 2
      apply UInt8.toNat_inj.1
      omega

theorem set_vch_cases (vch : List UInt8) (hlength : vch.length ≤ 8) :
    (vch = [] ∧ set_vch vch = some 0) ∨ ∃ init back v, vch = init ++ [back] ∧ set_vch vch = some v ∧
      v.toInt = if 128 ≤ back.toNat then -(magnitude init back : Int) else magnitude init back := by
  by_cases hnil : vch = []
  · exact .inl ⟨hnil, by rw [hnil]; rfl⟩
  · have hconcat := List.dropLast_concat_getLast hnil
    have hinit : vch.dropLast.length ≤ 7 := by
      rw [List.length_dropLast]
      omega
    obtain ⟨v, hv, hvalue⟩ := set_vch_concat (vch.getLast hnil) hinit
    rw [hconcat] at hv
    exact .inr ⟨_, _, v, hconcat.symm, hv, hvalue⟩

theorem length_le_of_set_vch {vch : List UInt8} {v : Int64} (h : set_vch vch = some v) : vch.length ≤ 8 := by
  unfold set_vch at h
  split at h
  · next hnil =>
    rw [List.getLast?_eq_none_iff.1 hnil]
    exact Nat.zero_le _
  · split at h
    · cases h
    · next hle => omega

namespace CScriptNum

theorem operand_lt {vch : List UInt8} {f : Bool} {a : CScriptNum} (h : ofVch vch f 4 = .ok (some a)) :
    -2 ^ 31 < a.m_value.toInt ∧ a.m_value.toInt < 2 ^ 31 := by
  unfold ofVch at h
  split at h
  · cases h
  · next hle =>
    split at h
    · cases h
    · obtain ⟨v, hv, rfl⟩ := Option.map_eq_some_iff.1 (Except.ok.inj h)
      rcases set_vch_cases vch (by omega) with ⟨-, hzero⟩ | ⟨init, back, v', rfl, hv', hvalue⟩
      · cases hzero.symm.trans hv
        decide
      · rw [hv, Option.some.injEq] at hv'
        subst hv'
        rw [List.length_append, List.length_singleton] at hle
        have hpow : 256 ^ init.length ≤ 256 ^ 3 := Nat.pow_le_pow_right (by decide) (by omega)
        have hlt := magnitude_lt init back
        show -2 ^ 31 < v.toInt ∧ v.toInt < 2 ^ 31
        rw [hvalue]
        split <;> omega

theorem int64_some {n : Int} (hlow : -2 ^ 63 ≤ n) (hhigh : n < 2 ^ 63) : ∃ v, int64 n = some v ∧ v.toInt = n :=
  ⟨_, if_pos ⟨hlow, hhigh⟩, Int64.toInt_ofInt_of_le hlow hhigh⟩

/-- The codec of script numbers, and the operands of the numeric opcodes. -/
theorem scriptNum_codec :
    (∀ v : Int64, v ≠ Int64.minValue → ∃ vch, serialize v = some vch ∧ vch.length ≤ 9 ∧
      ∀ nMaxNumSize, vch.length ≤ nMaxNumSize → ofVch vch true nMaxNumSize = .ok (some ⟨v⟩)) ∧
    (∀ vch nMaxNumSize r, ofVch vch true nMaxNumSize = .ok r → vch.length ≤ 8 ∨ r ≠ none →
      ∃ a, r = some a ∧ serialize a.m_value = some vch) ∧
    ∀ vch₁ vch₂ f₁ f₂ a b, ofVch vch₁ f₁ 4 = .ok (some a) → ofVch vch₂ f₂ 4 = .ok (some b) →
      (∃ c, a.add b.m_value = some c ∧ a.addAssign b.m_value = some c ∧ c.m_value.toInt = a.m_value.toInt + b.m_value.toInt) ∧
      (∃ c, a.sub b.m_value = some c ∧ a.subAssign b.m_value = some c ∧ c.m_value.toInt = a.m_value.toInt - b.m_value.toInt) ∧
      ∃ c, a.neg = some c ∧ c.m_value.toInt = -a.m_value.toInt := by
  refine ⟨fun v hv => ?_, fun vch nMaxNumSize r hr hdefined => ?_, fun vch₁ vch₂ f₁ f₂ a b ha hb => ?_⟩
  · by_cases hzero : v = 0
    · subst hzero
      exact ⟨[], rfl, Nat.zero_le _, fun nMaxNumSize _ => by simp [ofVch, minimal, set_vch]⟩
    · have hint : v.toInt ≠ 0 := fun h => hzero (Int64.toInt_inj.1 h)
      have hmin : v.toInt ≠ -2 ^ 63 := fun h => hv (Int64.toInt_inj.1 h)
      have hlow := v.le_toInt
      have hhigh := v.toInt_lt
      have hbytes := ofLeBytes_absBytes 8 v.toInt.natAbs (by omega)
      have hne : absBytes 8 v.toInt.natAbs ≠ [] := fun hnil => by
        have hnull : 0 = v.toInt.natAbs := by rw [← hbytes, hnil]; rfl
        omega
      obtain ⟨init, back, hwith, hinit, hvalue, hsign, hminimal⟩ := withSign_spec (decide (v.toInt < 0)) hne
        (absBytes_last (by omega)) (length_absBytes 8 _) (by omega)
      obtain ⟨v', hset, hv'⟩ := set_vch_concat back hinit
      have hsame : v' = v := by
        apply Int64.toInt_inj.1
        rw [hv', hvalue, hbytes]
        rw [decide_eq_true_eq] at hsign
        split <;> omega
      subst hsame
      refine ⟨init ++ [back], ?_, by simp; omega, fun nMaxNumSize hmax => ?_⟩
      · rw [serialize, if_neg hzero, if_neg hv, hwith]
      · rw [ofVch, if_neg (by omega), hminimal, hset]
        rfl
  · unfold ofVch at hr
    split at hr
    · cases hr
    · split at hr
      · cases hr
      · next hminimal =>
        cases hr
        have hlength : vch.length ≤ 8 := by
          rcases hdefined with hle | hsome
          · exact hle
          · cases hset : set_vch vch with
            | none => exact absurd (by rw [hset]; rfl) hsome
            | some v => exact length_le_of_set_vch hset
        rw [Bool.true_and, Bool.not_eq_true', Bool.not_eq_false] at hminimal
        rcases set_vch_cases vch hlength with ⟨rfl, hset⟩ | ⟨init, back, v, rfl, hset, hvalue⟩
        · exact ⟨⟨0⟩, by rw [hset]; rfl, rfl⟩
        · have hinit : init.length ≤ 7 := by
            rw [List.length_append, List.length_singleton] at hlength
            omega
          have hpos := magnitude_pos hminimal
          have hlt := magnitude_lt init back
          have hpow : 256 ^ init.length ≤ 256 ^ 7 := Nat.pow_le_pow_right (by decide) hinit
          have habs : v.toInt.natAbs = magnitude init back := by
            rw [hvalue]
            split <;> omega
          have hsign : decide (v.toInt < 0) = decide (128 ≤ back.toNat) := by
            rw [hvalue, decide_eq_decide]
            split <;> omega
          have hzero : v ≠ 0 := fun h => by
            rw [h] at habs
            exact absurd habs.symm hpos.ne'
          have hmin : v ≠ Int64.minValue := fun h => by
            have hnat : v.toInt.natAbs = 2 ^ 63 := by rw [h]; rfl
            omega
          refine ⟨⟨v⟩, by rw [hset]; rfl, ?_⟩
          rw [serialize, if_neg hzero, if_neg hmin, habs, hsign, withSign_concat hminimal hinit]
  · obtain ⟨halow, hahigh⟩ := operand_lt ha
    obtain ⟨hblow, hbhigh⟩ := operand_lt hb
    obtain ⟨c, hc, hcvalue⟩ := int64_some (n := a.m_value.toInt + b.m_value.toInt) (by omega) (by omega)
    obtain ⟨d, hd, hdvalue⟩ := int64_some (n := a.m_value.toInt - b.m_value.toInt) (by omega) (by omega)
    obtain ⟨e, he, hevalue⟩ := int64_some (n := -a.m_value.toInt) (by omega) (by omega)
    have hadd : a.add b.m_value = some ⟨c⟩ := by rw [add, hc, Option.map_some]
    have hsub : a.sub b.m_value = some ⟨d⟩ := by rw [sub, hd, Option.map_some]
    refine ⟨⟨⟨c⟩, hadd, ?_, hcvalue⟩, ⟨⟨d⟩, hsub, ?_, hdvalue⟩, ⟨e⟩, ?_, hevalue⟩
    · simp only [addAssign, hadd]
      exact if_pos (by omega)
    · simp only [subAssign, hsub]
      exact if_pos (by omega)
    · have hmin : a.m_value ≠ Int64.minValue := fun h => by
        have hvalue : a.m_value.toInt = -2 ^ 63 := by rw [h]; rfl
        omega
      rw [neg, if_neg hmin, he, Option.map_some]

end CScriptNum

end Zumy.ScriptNum
