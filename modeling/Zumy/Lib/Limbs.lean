/-
  Zumy.Lib.Limbs — numbers as lists of limbs, the lowest first, and the loops over limbs that
  compute with them.

  `limbsValue` is the number. The operations keep the number of limbs, so each is exact up to
  a multiple of `2 ^ (w * length)`.

  - `limbsValue_complement`, `limbsValue_increment`: complement, and one more.
  - `compareBelow_eq`: limbs compared from the top are the numbers compared.
  - `testBit_limbsValue`, `testBit_orAt`: the bits of the number are those of the limbs.
  - `restore_eq`: division by shifting the divisor back, bit by bit.
-/
import Mathlib.Data.Nat.Digits.Lemmas
import Mathlib.Data.Nat.Size
import Mathlib.Tactic.Ring

namespace Zumy.Lib

variable {w : Nat} {a b : List (BitVec w)} {x : BitVec w} {i : Nat}

def limbsValue (l : List (BitVec w)) : Nat := Nat.ofDigits (2 ^ w) (l.map BitVec.toNat)

@[simp] theorem limbsValue_nil : limbsValue ([] : List (BitVec w)) = 0 := rfl

@[simp] theorem limbsValue_cons : limbsValue (x :: a) = x.toNat + 2 ^ w * limbsValue a := by
  rw [limbsValue, List.map_cons, Nat.ofDigits_cons]
  rfl

theorem limbsValue_append : limbsValue (a ++ b) = limbsValue a + 2 ^ (w * a.length) * limbsValue b := by
  rw [limbsValue, List.map_append, Nat.ofDigits_append, List.length_map, ← pow_mul]
  rfl

theorem limbsValue_lt : limbsValue a < 2 ^ (w * a.length) := by
  induction a with
  | nil => simp
  | cons x a ih =>
    have hx := x.isLt
    have hpow : 2 ^ (w * (x :: a).length) = 2 ^ w * 2 ^ (w * a.length) := by
      rw [List.length_cons, Nat.mul_succ, Nat.pow_add, Nat.mul_comm]
    have hmul : 2 ^ w * (limbsValue a + 1) ≤ 2 ^ w * 2 ^ (w * a.length) := Nat.mul_le_mul_left _ ih
    rw [limbsValue_cons, hpow]
    rw [Nat.mul_add, Nat.mul_one] at hmul
    omega

@[simp] theorem limbsValue_replicate_zero {n : Nat} : limbsValue (List.replicate n 0#w) = 0 := by
  induction n with
  | zero => rfl
  | succ n ih =>
    rw [List.replicate_succ, limbsValue_cons, ih]
    simp

theorem limbsValue_inj (hw : 0 < w) (hlen : a.length = b.length) : limbsValue a = limbsValue b ↔ a = b := by
  have hdigit : ∀ l : List (BitVec w), ∀ d ∈ l.map BitVec.toNat, d < 2 ^ w := by
    intro l d hd
    obtain ⟨x, -, rfl⟩ := List.mem_map.1 hd
    exact x.isLt
  refine ⟨fun h => ?_, fun h => congrArg limbsValue h⟩
  have hbase : 1 < 2 ^ w := Nat.one_lt_two_pow hw.ne'
  have hsame := Nat.ofDigits_inj_of_len_eq hbase (by simpa using hlen) (hdigit a) (hdigit b) h
  exact List.map_injective_iff.2 (fun _ _ => BitVec.eq_of_toNat_eq) hsame

theorem limbsValue_take_succ (h : i < a.length) :
    limbsValue (a.take (i + 1)) = limbsValue (a.take i) + 2 ^ (w * i) * (a.getD i 0).toNat := by
  rw [List.take_succ_eq_append_getElem h, limbsValue_append, List.length_take, Nat.min_eq_left h.le,
    List.getD_eq_getElem?_getD, List.getElem?_eq_getElem h]
  simp

theorem limbsValue_take_lt : limbsValue (a.take i) < 2 ^ (w * i) :=
  limbsValue_lt.trans_le (Nat.pow_le_pow_right (by decide) (Nat.mul_le_mul_left _ (List.length_take_le i a)))

/-! ## Carries -/

/-- `n = carry + term; limb = n; carry = n >> w`, in words of `2 * w` bits. -/
def carryLoop : BitVec (w + w) → List (BitVec (w + w)) → List (BitVec w)
  | _, [] => []
  | carry, g :: gs =>
    let n := carry + g
    n.setWidth w :: carryLoop (n >>> w) gs

@[simp] theorem length_carryLoop {c : BitVec (w + w)} {gs : List (BitVec (w + w))} : (carryLoop c gs).length = gs.length := by
  induction gs generalizing c with
  | nil => rfl
  | cons g gs ih => rw [carryLoop, List.length_cons, List.length_cons, ih]

theorem limbsValue_carryLoop {c : BitVec (w + w)} {gs : List (BitVec (w + w))} (hc : c.toNat < 2 ^ w)
    (hgs : ∀ g ∈ gs, g.toNat + 2 ^ w ≤ 2 ^ (w + w)) :
    limbsValue (carryLoop c gs) = (c.toNat + Nat.ofDigits (2 ^ w) (gs.map BitVec.toNat)) % 2 ^ (w * gs.length) := by
  induction gs generalizing c with
  | nil => simp [carryLoop, Nat.mod_one]
  | cons g gs ih =>
    have hsum : (c + g).toNat = c.toNat + g.toNat := by
      have hroom := hgs g List.mem_cons_self
      rw [BitVec.toNat_add, Nat.mod_eq_of_lt (by omega)]
    have hcarry : ((c + g) >>> w).toNat = (c.toNat + g.toNat) / 2 ^ w := by
      rw [BitVec.toNat_ushiftRight, hsum, Nat.shiftRight_eq_div_pow]
    have hsmall : ((c + g) >>> w).toNat < 2 ^ w := by
      have hlt := (c + g).isLt
      rw [hsum, Nat.pow_add] at hlt
      rw [hcarry]
      exact Nat.div_lt_of_lt_mul hlt
    have hrest := ih hsmall fun g' hg' => hgs g' (List.mem_cons_of_mem _ hg')
    have hpow : 2 ^ (w * (g :: gs).length) = 2 ^ w * 2 ^ (w * gs.length) := by
      rw [List.length_cons, Nat.mul_succ, Nat.pow_add, Nat.mul_comm]
    rw [carryLoop, limbsValue_cons, hrest, hcarry, BitVec.toNat_setWidth, hsum, List.map_cons, Nat.ofDigits_cons, hpow,
      Nat.mod_mul, ← Nat.add_assoc, Nat.add_mul_mod_self_left, Nat.add_mul_div_left _ _ (Nat.two_pow_pos w)]

theorem mulAdd_room {c : Nat} (hc : c < 2 ^ w) (p y : BitVec w) : p.toNat + c * y.toNat + 2 ^ w ≤ 2 ^ (w + w) := by
  have hp := p.isLt
  have hmul : c * y.toNat ≤ (2 ^ w - 1) * (2 ^ w - 1) := Nat.mul_le_mul (by omega) (by have := y.isLt; omega)
  have hsquare : (2 ^ w - 1) * (2 ^ w - 1) + 2 * 2 ^ w = 2 ^ (w + w) + 1 := by
    obtain ⟨n, hn⟩ := Nat.exists_eq_add_of_le' (Nat.two_pow_pos w)
    rw [Nat.pow_add, hn, Nat.add_sub_cancel]
    ring
  omega

theorem limbsValue_mulLimb {f : BitVec w → BitVec (w + w)} {c : Nat} (hc : c < 2 ^ w)
    (hf : ∀ y, (f y).toNat = c * y.toNat) :
    limbsValue (carryLoop 0 (a.map f)) = limbsValue a * c % 2 ^ (w * a.length) := by
  have hroom : ∀ g ∈ a.map f, g.toNat + 2 ^ w ≤ 2 ^ (w + w) := by
    intro g hg
    obtain ⟨y, -, rfl⟩ := List.mem_map.1 hg
    have hle := mulAdd_room hc 0 y
    rw [hf]
    simpa using hle
  have hdigits : (a.map f).map BitVec.toNat = (a.map BitVec.toNat).map (c * ·) := by
    rw [List.map_map, List.map_map]
    exact List.map_congr_left fun y _ => hf y
  rw [limbsValue_carryLoop (by simp) hroom, hdigits, ← Nat.mul_ofDigits, List.length_map, Nat.mul_comm (limbsValue a)]
  simp [limbsValue]

theorem limbsValue_mulAdd {f : BitVec w → BitVec w → BitVec (w + w)} {c : Nat} (hc : c < 2 ^ w)
    (hf : ∀ p y, (f p y).toNat = p.toNat + c * y.toNat) (hlen : a.length ≤ b.length) :
    limbsValue (carryLoop 0 (List.zipWith f a b)) = (limbsValue a + c * limbsValue b) % 2 ^ (w * a.length) := by
  have hroom : ∀ g ∈ List.zipWith f a b, g.toNat + 2 ^ w ≤ 2 ^ (w + w) := by
    intro g hg
    rw [← List.map_uncurry_zip_eq_zipWith] at hg
    obtain ⟨⟨p, y⟩, -, rfl⟩ := List.mem_map.1 hg
    change (f p y).toNat + 2 ^ w ≤ 2 ^ (w + w)
    rw [hf]
    exact mulAdd_room hc p y
  have hdigits : Nat.ofDigits (2 ^ w) ((List.zipWith f a b).map BitVec.toNat) =
      limbsValue a + c * limbsValue (b.take a.length) := by
    clear hroom
    induction a generalizing b with
    | nil => simp
    | cons p a ih =>
      cases b with
      | nil => simp at hlen
      | cons y b =>
        have hrest := ih (by simpa using hlen)
        rw [List.zipWith_cons_cons, List.map_cons, Nat.ofDigits_cons, hf, hrest, List.length_cons, List.take_succ_cons,
          limbsValue_cons, limbsValue_cons]
        ring
  have hsplit : limbsValue b = limbsValue (b.take a.length) + 2 ^ (w * a.length) * limbsValue (b.drop a.length) := by
    have happ := limbsValue_append (a := b.take a.length) (b := b.drop a.length)
    rwa [List.take_append_drop, List.length_take, Nat.min_eq_left hlen] at happ
  rw [limbsValue_carryLoop (by simp) hroom, hdigits, List.length_zipWith, Nat.min_eq_left hlen]
  calc (BitVec.toNat 0 + (limbsValue a + c * limbsValue (b.take a.length))) % 2 ^ (w * a.length)
      = (limbsValue a + c * limbsValue (b.take a.length) +
          2 ^ (w * a.length) * (c * limbsValue (b.drop a.length))) % 2 ^ (w * a.length) := by
        rw [Nat.add_mul_mod_self_left]
        simp
    _ = (limbsValue a + c * limbsValue b) % 2 ^ (w * a.length) := by
        rw [hsplit]
        ring_nf

/-! ## Complement, and one more -/

def complement (l : List (BitVec w)) : List (BitVec w) := l.map (~~~ ·)

@[simp] theorem length_complement : (complement a).length = a.length := List.length_map _

theorem limbsValue_complement : limbsValue (complement a) + limbsValue a + 1 = 2 ^ (w * a.length) := by
  induction a with
  | nil => simp [complement]
  | cons x a ih =>
    have hx := x.isLt
    have hnot : (~~~x).toNat + x.toNat + 1 = 2 ^ w := by
      rw [BitVec.toNat_not]
      omega
    calc limbsValue (complement (x :: a)) + limbsValue (x :: a) + 1
        = (~~~x).toNat + 2 ^ w * limbsValue (complement a) + (x.toNat + 2 ^ w * limbsValue a) + 1 := by
          rw [limbsValue_cons]
          rfl
      _ = ((~~~x).toNat + x.toNat + 1) + 2 ^ w * (limbsValue (complement a) + limbsValue a) := by ring
      _ = 2 ^ w * (limbsValue (complement a) + limbsValue a + 1) := by rw [hnot]; ring
      _ = 2 ^ (w * (x :: a).length) := by rw [ih, List.length_cons, Nat.mul_succ, Nat.pow_add, Nat.mul_comm]

def increment : List (BitVec w) → List (BitVec w)
  | [] => []
  | x :: xs => if x + 1 = 0 then (x + 1) :: increment xs else (x + 1) :: xs

@[simp] theorem length_increment : (increment a).length = a.length := by
  induction a with
  | nil => rfl
  | cons x a ih =>
    rw [increment]
    split
    · rw [List.length_cons, ih, List.length_cons]
    · rfl

theorem limbsValue_increment : limbsValue (increment a) = (limbsValue a + 1) % 2 ^ (w * a.length) := by
  induction a with
  | nil => simp [increment]
  | cons x a ih =>
    have hpow : 2 ^ (w * (x :: a).length) = 2 ^ w * 2 ^ (w * a.length) := by
      rw [List.length_cons, Nat.mul_succ, Nat.pow_add, Nat.mul_comm]
    have hx := x.isLt
    have hnext : (x + 1).toNat = (x.toNat + 1) % 2 ^ w := by
      rw [BitVec.toNat_add]
      simp
    rw [increment]
    split
    · rename_i hzero
      have hmod : (x.toNat + 1) % 2 ^ w = 0 := by simpa using (hnext.symm.trans (congrArg BitVec.toNat hzero))
      have htop : x.toNat + 1 = 2 ^ w := by
        by_contra hne
        rw [Nat.mod_eq_of_lt (by omega)] at hmod
        omega
      have hsum : limbsValue (x :: a) + 1 = 2 ^ w * (limbsValue a + 1) := by
        rw [limbsValue_cons, Nat.mul_add, Nat.mul_one]
        omega
      rw [limbsValue_cons, hnext, hmod, ih, hsum, hpow, Nat.mul_mod_mul_left, Nat.zero_add]
    · rename_i hzero
      have hne : (x.toNat + 1) % 2 ^ w ≠ 0 := fun h => hzero (BitVec.eq_of_toNat_eq (hnext.trans h))
      have hlow : x.toNat + 1 < 2 ^ w := by
        by_contra hge
        rw [show x.toNat + 1 = 2 ^ w by omega, Nat.mod_self] at hne
        exact hne rfl
      have hlt : limbsValue (x :: a) + 1 < 2 ^ (w * (x :: a).length) := by
        have hmul : 2 ^ w * (limbsValue a + 1) ≤ 2 ^ w * 2 ^ (w * a.length) := Nat.mul_le_mul_left _ limbsValue_lt
        rw [limbsValue_cons, hpow]
        rw [Nat.mul_add, Nat.mul_one] at hmul
        omega
      rw [Nat.mod_eq_of_lt hlt, limbsValue_cons, limbsValue_cons, hnext, Nat.mod_eq_of_lt hlow]
      omega

/-! ## Comparison -/

/-- The limbs below `i`, from the top. -/
def compareBelow (a b : List (BitVec w)) : Nat → Ordering
  | 0 => .eq
  | i + 1 =>
    if a.getD i 0 < b.getD i 0 then .lt
    else if b.getD i 0 < a.getD i 0 then .gt
    else compareBelow a b i

theorem compareBelow_eq (ha : i ≤ a.length) (hb : i ≤ b.length) :
    compareBelow a b i = compare (limbsValue (a.take i)) (limbsValue (b.take i)) := by
  induction i with
  | zero => simp [compareBelow]
  | succ i ih =>
    have hla := limbsValue_take_lt (a := a) (i := i)
    have hlb := limbsValue_take_lt (a := b) (i := i)
    rw [compareBelow, limbsValue_take_succ ha, limbsValue_take_succ hb]
    split
    · rename_i hlt
      have hmul : 2 ^ (w * i) * ((a.getD i 0).toNat + 1) ≤ 2 ^ (w * i) * (b.getD i 0).toNat := Nat.mul_le_mul_left _ hlt
      rw [Nat.mul_add, Nat.mul_one] at hmul
      exact (Nat.compare_eq_lt.2 (by omega)).symm
    · split
      · rename_i hlt
        have hmul : 2 ^ (w * i) * ((b.getD i 0).toNat + 1) ≤ 2 ^ (w * i) * (a.getD i 0).toNat :=
          Nat.mul_le_mul_left _ hlt
        rw [Nat.mul_add, Nat.mul_one] at hmul
        exact (Nat.compare_eq_gt.2 (by omega)).symm
      · rename_i hnlt hngt
        have hsame : a.getD i 0 = b.getD i 0 := by
          apply BitVec.eq_of_toNat_eq
          rw [BitVec.lt_def] at hnlt hngt
          omega
        rw [ih (by omega) (by omega), hsame, Nat.compare_eq_ite_lt, Nat.compare_eq_ite_lt]
        simp

/-! ## Bits -/

theorem testBit_limbsValue (hw : 0 < w) {j : Nat} : (limbsValue a).testBit j = (a.getD (j / w) 0).getLsbD (j % w) := by
  induction a generalizing j with
  | nil => simp
  | cons x a ih =>
    rw [limbsValue_cons, Nat.add_comm, Nat.testBit_two_pow_mul_add _ x.isLt]
    split
    · rename_i hj
      rw [Nat.div_eq_of_lt hj, Nat.mod_eq_of_lt hj]
      rfl
    · rename_i hj
      have hle : w ≤ j := Nat.le_of_not_lt hj
      obtain ⟨k, rfl⟩ := Nat.exists_eq_add_of_le hle
      rw [Nat.add_sub_cancel_left, ih, Nat.add_div_left _ hw, Nat.add_mod_left]
      simp

/-- `pn[i] |= x`, where there is a limb `i`. -/
def orAt (l : List (BitVec w)) (i : Nat) (x : BitVec w) : List (BitVec w) := l.modify i (· ||| x)

@[simp] theorem length_orAt : (orAt a i x).length = a.length := List.length_modify _ _ _

theorem testBit_orAt (hw : 0 < w) {j : Nat} : (limbsValue (orAt a i x)).testBit j =
    ((limbsValue a).testBit j || (decide (j / w = i) && decide (i < a.length) && x.getLsbD (j % w))) := by
  rw [testBit_limbsValue hw, testBit_limbsValue hw, orAt, List.getD_eq_getElem?_getD, List.getD_eq_getElem?_getD]
  by_cases hi : i = j / w
  · subst hi
    rw [List.getElem?_modify_eq]
    by_cases hlen : j / w < a.length
    · simp [hlen]
    · simp [hlen]
  · rw [List.getElem?_modify_ne _ _ hi]
    simp [Ne.symm hi]

/-! ## Division -/

/-- What is left, and what is added to the quotient, after the bits below `n`. The divisor
stands shifted, by one place less at each turn. -/
def restore (d : Nat) : Nat → Nat → Nat × Nat
  | 0, num => (num, 0)
  | n + 1, num =>
    if d * 2 ^ n ≤ num then
      let (rest, q) := restore d n (num - d * 2 ^ n)
      (rest, 2 ^ n + q)
    else restore d n num

theorem restore_eq {d n num : Nat} (h : num < d * 2 ^ n) : restore d n num = (num % d, num / d) := by
  induction n generalizing num with
  | zero =>
    have hlt : num < d := by simpa using h
    rw [restore, Nat.mod_eq_of_lt hlt, Nat.div_eq_of_lt hlt]
  | succ n ih =>
    rw [restore]
    split
    · rename_i hle
      have hpos : 0 < d := Nat.pos_of_ne_zero fun h0 => by simp [h0] at h
      have hlt : num - d * 2 ^ n < d * 2 ^ n := by
        rw [Nat.pow_succ, ← Nat.mul_assoc] at h
        omega
      have hback : num = num - d * 2 ^ n + d * 2 ^ n := by omega
      have hdiv : num / d = 2 ^ n + (num - d * 2 ^ n) / d := by
        conv_lhs => rw [hback, Nat.add_mul_div_left _ _ hpos]
        omega
      have hmod : num % d = (num - d * 2 ^ n) % d := by
        conv_lhs => rw [hback, Nat.add_mul_mod_self_left]
      rw [ih hlt, hdiv, hmod]
    · rename_i hlt
      exact ih (by omega)

end Zumy.Lib
