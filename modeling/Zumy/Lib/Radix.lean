/-
  Zumy.Lib.Radix — digits to any base, the highest first, and the conversion from one base to
  another that is done in place.

  A buffer holds the digits of a number, the lowest first, with a count of those in use. Each
  digit that comes in multiplies the buffer and is added to it, with a carry.

  - `carryOver_carries`, `mulAdd_eq`: one digit; it fails when the buffer is too small.
  - `convertAll_eq`: all digits; only the number that they make counts.
  - `significant_eq`: what is left without the zeros in front.
  - `convert_convert`: conversions that keep the zeros in front are inverse to each other.
  - `pow_le_pow_estimate`: how many digits suffice, from one pair of powers.
-/
import Mathlib.Data.Nat.Digits.Lemmas
import Mathlib.Tactic.Ring

namespace Zumy.Lib

variable {base mult : Nat}

/-! ## Digits, the highest first -/

def radixValue (base : Nat) (ds : List Nat) : Nat := Nat.ofDigits base ds.reverse

def radixDigits (base n : Nat) : List Nat := (Nat.digits base n).reverse

@[simp] theorem radixValue_nil : radixValue base [] = 0 := rfl

theorem radixValue_append {ds : List Nat} {d : Nat} : radixValue base (ds ++ [d]) = base * radixValue base ds + d := by
  rw [radixValue, List.reverse_append, List.reverse_singleton, List.singleton_append, Nat.ofDigits_cons, Nat.add_comm]
  rfl

theorem radixValue_zeros_append {ds zs : List Nat} (h : ∀ z ∈ zs, z = 0) : radixValue base (zs ++ ds) = radixValue base ds := by
  rw [List.eq_replicate_iff.2 ⟨rfl, h⟩]
  rw [radixValue, List.reverse_append, List.reverse_replicate, Nat.ofDigits_append_replicate_zero]
  rfl

theorem radixValue_radixDigits {n : Nat} : radixValue base (radixDigits base n) = n := by
  rw [radixValue, radixDigits, List.reverse_reverse, Nat.ofDigits_digits]

theorem radixValue_lt {ds : List Nat} (hbase : 1 < base) (h : ∀ d ∈ ds, d < base) : radixValue base ds < base ^ ds.length := by
  have hlt := Nat.ofDigits_lt_base_pow_length (l := ds.reverse) hbase fun d hd => h d (List.mem_reverse.1 hd)
  rwa [List.length_reverse] at hlt

theorem pow_le_radixValue {d : Nat} {ds : List Nat} (hd : d ≠ 0) : base ^ ds.length ≤ radixValue base (d :: ds) := by
  rw [radixValue, List.reverse_cons, Nat.ofDigits_append, Nat.ofDigits_singleton, List.length_reverse]
  have hmul : base ^ ds.length ≤ base ^ ds.length * d := Nat.le_mul_of_pos_right _ (Nat.pos_of_ne_zero hd)
  omega

theorem lt_of_mem_radixDigits {n d : Nat} (hbase : 1 < base) (h : d ∈ radixDigits base n) : d < base :=
  Nat.digits_lt_base hbase (List.mem_reverse.1 h)

theorem length_radixDigits_le_iff {n k : Nat} (hbase : 1 < base) : (radixDigits base n).length ≤ k ↔ n < base ^ k := by
  rw [radixDigits, List.length_reverse]
  exact Nat.digits_length_le_iff hbase n

theorem radixDigits_radixValue {ds : List Nat} (hbase : 1 < base) (h : ∀ d ∈ ds, d < base) :
    radixDigits base (radixValue base ds) = ds.dropWhile (· = 0) := by
  induction ds with
  | nil => simp [radixDigits]
  | cons d ds ih =>
    by_cases hd : d = 0
    · have hzero : ∀ z ∈ [d], z = 0 := fun z hz => (List.mem_singleton.1 hz).trans hd
      rw [List.dropWhile_cons_of_pos (by simpa using hd), ← List.singleton_append, radixValue_zeros_append hzero]
      exact ih fun d hd => h d (List.mem_cons_of_mem _ hd)
    · rw [List.dropWhile_cons_of_neg (by simpa using hd), radixValue, radixDigits, Nat.digits_ofDigits base hbase, List.reverse_reverse]
      · exact fun c hc => h c (List.mem_reverse.1 hc)
      · intro hne
        rw [List.getLast_reverse]
        exact hd

theorem head_radixDigits {n : Nat} (hbase : 1 < base) : ∀ d ∈ (radixDigits base n).head?, d ≠ 0 := by
  intro d hd hzero
  have h := radixDigits_radixValue hbase fun d hd => lt_of_mem_radixDigits (n := n) hbase hd
  rw [radixValue_radixDigits] at h
  cases hds : radixDigits base n with
  | nil =>
    rw [hds] at hd
    cases hd
  | cons c ds =>
    rw [hds] at h hd
    cases hd
    rw [List.dropWhile_cons_of_pos (by simpa using hzero)] at h
    have hlen := congrArg List.length h
    have hle := (List.dropWhile_suffix (l := ds) fun c => decide (c = 0)).length_le
    rw [List.length_cons] at hlen
    omega

/-! ## Conversion -/

def convert (source target : Nat) (ds : List Nat) : List Nat :=
  ds.takeWhile (· = 0) ++ radixDigits target (radixValue source ds)

theorem takeWhile_zero_append {zs ds : List Nat} (hzs : ∀ z ∈ zs, z = 0) (hds : ∀ d ∈ ds.head?, d ≠ 0) :
    (zs ++ ds).takeWhile (· = 0) = zs ∧ (zs ++ ds).dropWhile (· = 0) = ds := by
  have hstop : ds.takeWhile (· = 0) = [] ∧ ds.dropWhile (· = 0) = ds := by
    cases ds with
    | nil => exact ⟨rfl, rfl⟩
    | cons d ds =>
      have hd : d ≠ 0 := hds d rfl
      exact ⟨List.takeWhile_cons_of_neg (by simpa using hd), List.dropWhile_cons_of_neg (by simpa using hd)⟩
  have hpos : ∀ z ∈ zs, decide (z = 0) = true := fun z hz => decide_eq_true (hzs z hz)
  rw [List.takeWhile_append_of_pos hpos, List.dropWhile_append_of_pos hpos, hstop.1, hstop.2]
  exact ⟨List.append_nil zs, rfl⟩

theorem eq_zero_of_mem_takeWhile {ds : List Nat} {z : Nat} (h : z ∈ ds.takeWhile (· = 0)) : z = 0 := by
  simpa using List.all_eq_true.1 List.all_takeWhile z h

theorem convert_convert {source target : Nat} {ds : List Nat} (hsource : 1 < source) (htarget : 1 < target)
    (h : ∀ d ∈ ds, d < source) : convert target source (convert source target ds) = ds := by
  have hzeros : ∀ z ∈ ds.takeWhile (· = 0), z = 0 := fun z hz => eq_zero_of_mem_takeWhile hz
  unfold convert
  rw [(takeWhile_zero_append hzeros (head_radixDigits htarget)).1, radixValue_zeros_append hzeros, radixValue_radixDigits,
    radixDigits_radixValue hsource h]
  exact List.takeWhile_append_dropWhile

/-! ## Conversion in place -/

structure Buffer where
  digits : List Nat
  length : Nat

def Buffer.empty (size : Nat) : Buffer := ⟨List.replicate size 0, 0⟩

/-- From digit `i` on: multiply, add the carry, carry on, while a carry or a digit in use is left.
The digits, the last carry and where the loop stopped. -/
def carryOver (base mult length : Nat) : List Nat → Nat → Nat → List Nat × Nat × Nat
  | [], carry, i => ([], carry, i)
  | d :: ds, carry, i =>
    if carry ≠ 0 ∨ i < length then
      let r := carryOver base mult length ds ((carry + mult * d) / base) (i + 1)
      ((carry + mult * d) % base :: r.1, r.2)
    else (d :: ds, carry, i)

def mulAdd (base mult : Nat) (b : Buffer) (digit : Nat) : Option Buffer :=
  let r := carryOver base mult b.length b.digits digit 0
  if r.2.1 = 0 then some ⟨r.1, r.2.2⟩ else none

def Buffer.significant (b : Buffer) : List Nat :=
  (b.digits.reverse.drop (b.digits.length - b.length)).dropWhile (· = 0)

structure Buffer.Holds (base : Nat) (b : Buffer) (n : Nat) : Prop where
  lt : ∀ d ∈ b.digits, d < base
  value : Nat.ofDigits base b.digits = n
  unused : ∀ d ∈ b.digits.drop b.length, d = 0
  fits : b.length ≤ b.digits.length

theorem Buffer.holds_empty {size : Nat} (hbase : 1 < base) : (Buffer.empty size).Holds base 0 := by
  have hzero : ∀ d ∈ List.replicate size 0, d = 0 := fun d hd => List.eq_of_mem_replicate hd
  exact ⟨fun d hd => by rw [hzero d hd]; omega, Nat.ofDigits_replicate_zero, hzero, Nat.zero_le _⟩

theorem ofDigits_zeros {ds : List Nat} (h : ∀ d ∈ ds, d = 0) : Nat.ofDigits base ds = 0 := by
  rw [List.eq_replicate_iff.2 ⟨rfl, h⟩]
  exact Nat.ofDigits_replicate_zero

structure Carries (base mult length : Nat) (ds : List Nat) (carry i : Nat) (r : List Nat × Nat × Nat) : Prop where
  length_eq : r.1.length = ds.length
  lt : ∀ d ∈ r.1, d < base
  value : Nat.ofDigits base r.1 + base ^ ds.length * r.2.1 = carry + mult * Nat.ofDigits base ds
  le : i ≤ r.2.2
  fits : r.2.2 ≤ i + ds.length
  unused : ∀ d ∈ r.1.drop (r.2.2 - i), d = 0

theorem carryOver_carries {length : Nat} {ds : List Nat} {carry i : Nat} (hbase : 0 < base) (hlt : ∀ d ∈ ds, d < base)
    (hunused : ∀ d ∈ ds.drop (length - i), d = 0) : Carries base mult length ds carry i (carryOver base mult length ds carry i) := by
  induction ds generalizing carry i with
  | nil => exact ⟨rfl, hlt, by simp [carryOver], Nat.le_refl _, Nat.le_refl _, by simp [carryOver]⟩
  | cons d ds ih =>
    unfold carryOver
    by_cases hon : carry ≠ 0 ∨ i < length
    · have hrest : ∀ d ∈ ds.drop (length - (i + 1)), d = 0 := by
        intro e he
        apply hunused e
        by_cases hi : i < length
        · rwa [show length - i = length - (i + 1) + 1 by omega, List.drop_succ_cons]
        · rw [show length - i = 0 by omega, List.drop_zero]
          exact List.mem_cons_of_mem _ (List.mem_of_mem_drop he)
      have hrec : Carries base mult length ds ((carry + mult * d) / base) (i + 1)
          (carryOver base mult length ds ((carry + mult * d) / base) (i + 1)) :=
        ih (fun d hd => hlt d (List.mem_cons_of_mem _ hd)) hrest
      obtain ⟨hlen, hdigits, hvalue, hle, hfits, hzero⟩ := hrec
      rw [if_pos hon]
      generalize carryOver base mult length ds ((carry + mult * d) / base) (i + 1) = r at hlen hdigits hvalue hle hfits hzero ⊢
      show Carries base mult length (d :: ds) carry i ((carry + mult * d) % base :: r.1, r.2)
      refine ⟨congrArg Nat.succ hlen, ?_, ?_, show i ≤ r.2.2 by omega, show r.2.2 ≤ i + (ds.length + 1) by omega, ?_⟩
      · intro e he
        rcases List.mem_cons.1 he with rfl | he
        · exact Nat.mod_lt _ hbase
        · exact hdigits e he
      · rw [List.length_cons, Nat.ofDigits_cons, Nat.ofDigits_cons]
        have hdiv := Nat.mod_add_div (carry + mult * d) base
        calc (carry + mult * d) % base + base * Nat.ofDigits base r.1 + base ^ (ds.length + 1) * r.2.1
            = (carry + mult * d) % base + base * (Nat.ofDigits base r.1 + base ^ ds.length * r.2.1) := by ring
          _ = (carry + mult * d) % base + base * ((carry + mult * d) / base) + base * (mult * Nat.ofDigits base ds) := by
              rw [hvalue]
              ring
          _ = carry + mult * (d + base * Nat.ofDigits base ds) := by
              rw [hdiv]
              ring
      · intro e he
        have hsub : r.2.2 - i = r.2.2 - (i + 1) + 1 := by omega
        rw [hsub, List.drop_succ_cons] at he
        exact hzero e he
    · rw [if_neg hon]
      have hzero : ∀ e ∈ d :: ds, e = 0 := by
        intro e he
        apply hunused e
        rwa [show length - i = 0 by omega, List.drop_zero]
      refine ⟨rfl, hlt, ?_, Nat.le_refl _, Nat.le_add_right _ _, ?_⟩
      · show Nat.ofDigits base (d :: ds) + _ * carry = _
        rw [ofDigits_zeros hzero, show carry = 0 by omega]
        simp
      · intro e he
        exact hzero e (List.mem_of_mem_drop he)

theorem mulAdd_eq {b : Buffer} {n digit : Nat} (hbase : 1 < base) (hb : b.Holds base n) :
    (mult * n + digit < base ^ b.digits.length →
      ∃ b', mulAdd base mult b digit = some b' ∧ b'.Holds base (mult * n + digit) ∧ b'.digits.length = b.digits.length) ∧
    (base ^ b.digits.length ≤ mult * n + digit → mulAdd base mult b digit = none) := by
  have hcarry : Carries base mult b.length b.digits digit 0 (carryOver base mult b.length b.digits digit 0) :=
    carryOver_carries (by omega) hb.lt hb.unused
  have hlow := Nat.ofDigits_lt_base_pow_length hbase hcarry.lt
  have hvalue := hcarry.value
  rw [hcarry.length_eq] at hlow
  rw [hb.value] at hvalue
  unfold mulAdd
  generalize carryOver base mult b.length b.digits digit 0 = r at hcarry hlow hvalue
  constructor
  · intro hlt
    have hzero : r.2.1 = 0 := by
      by_contra hne
      have hmul := Nat.mul_le_mul_left (base ^ b.digits.length) (Nat.one_le_iff_ne_zero.2 hne)
      omega
    rw [hzero, Nat.mul_zero] at hvalue
    have hnumber : Nat.ofDigits base r.1 = mult * n + digit := by omega
    refine ⟨⟨r.1, r.2.2⟩, if_pos hzero, ⟨hcarry.lt, hnumber, hcarry.unused, ?_⟩, hcarry.length_eq⟩
    have hfits := hcarry.fits
    show r.2.2 ≤ r.1.length
    rw [hcarry.length_eq]
    omega
  · intro hle
    refine if_neg fun hzero => ?_
    rw [hzero, Nat.mul_zero] at hvalue
    omega

def convertAll (base mult : Nat) (b : Buffer) (ds : List Nat) : Option Buffer := ds.foldlM (mulAdd base mult) b

theorem convertAll_eq {ds : List Nat} {size : Nat} (hbase : 1 < base) (hmult : 0 < mult) :
    (radixValue mult ds < base ^ size →
      ∃ b, convertAll base mult (Buffer.empty size) ds = some b ∧ b.Holds base (radixValue mult ds) ∧ b.digits.length = size) ∧
    (base ^ size ≤ radixValue mult ds → convertAll base mult (Buffer.empty size) ds = none) := by
  induction ds using List.reverseRecOn with
  | nil =>
    refine ⟨fun _ => ⟨Buffer.empty size, rfl, Buffer.holds_empty hbase, List.length_replicate⟩, fun hle => ?_⟩
    have hpos : 0 < base ^ size := Nat.pow_pos (by omega)
    rw [radixValue_nil] at hle
    omega
  | append_singleton ds d ih =>
    have hall : convertAll base mult (Buffer.empty size) (ds ++ [d]) =
        (convertAll base mult (Buffer.empty size) ds).bind fun b => mulAdd base mult b d := by
      unfold convertAll
      rw [List.foldlM_append]
      cases List.foldlM (mulAdd base mult) (Buffer.empty size) ds with
      | none => rfl
      | some b =>
        show (mulAdd base mult b d >>= pure) = mulAdd base mult b d
        rw [bind_pure]
    rw [hall, radixValue_append]
    constructor
    · intro hlt
      have hle : radixValue mult ds ≤ mult * radixValue mult ds := Nat.le_mul_of_pos_left _ hmult
      obtain ⟨b, hb, hholds, hsize⟩ := ih.1 (by omega)
      obtain ⟨b', hb', hholds', hsize'⟩ := (mulAdd_eq hbase hholds).1 (by rw [hsize]; exact hlt)
      exact ⟨b', by rw [hb]; exact hb', hholds', hsize'.trans hsize⟩
    · intro hle
      by_cases hlt : radixValue mult ds < base ^ size
      · obtain ⟨b, hb, hholds, hsize⟩ := ih.1 hlt
        rw [hb]
        exact (mulAdd_eq hbase hholds).2 (by rw [hsize]; exact hle)
      · rw [ih.2 (not_lt.1 hlt)]
        rfl

theorem holds_of_convertAll {ds : List Nat} {size : Nat} {b : Buffer} (hbase : 1 < base) (hmult : 0 < mult)
    (h : convertAll base mult (Buffer.empty size) ds = some b) : b.Holds base (radixValue mult ds) := by
  by_cases hlt : radixValue mult ds < base ^ size
  · obtain ⟨b', hb', hholds, -⟩ := (convertAll_eq hbase hmult).1 hlt
    cases hb'.symm.trans h
    exact hholds
  · cases ((convertAll_eq hbase hmult).2 (not_lt.1 hlt)).symm.trans h

theorem dropWhile_zeros_append {zs ds : List Nat} (hzs : ∀ z ∈ zs, z = 0) :
    (zs ++ ds).dropWhile (· = 0) = ds.dropWhile (· = 0) :=
  List.dropWhile_append_of_pos fun z hz => decide_eq_true (hzs z hz)

theorem Buffer.Holds.significant_eq {b : Buffer} {n : Nat} (hbase : 1 < base) (h : b.Holds base n) :
    b.significant = radixDigits base n := by
  have hdigits : ∀ d ∈ b.digits.reverse, d < base := fun d hd => h.lt d (List.mem_reverse.1 hd)
  have hvalue : radixValue base b.digits.reverse = n := by rw [radixValue, List.reverse_reverse, h.value]
  have hsplit : b.digits.reverse = (b.digits.drop b.length).reverse ++ b.digits.reverse.drop (b.digits.length - b.length) := by
    rw [List.drop_reverse, ← List.reverse_append, Nat.sub_sub_self h.fits, List.take_append_drop]
  rw [← hvalue, radixDigits_radixValue hbase hdigits, hsplit, dropWhile_zeros_append]
  · rfl
  · exact fun z hz => h.unused z (List.mem_reverse.1 hz)

/-! ## How many digits suffice -/

theorem pow_le_pow_estimate {a b j k n : Nat} (hk : 0 < k) (hb : 0 < b) (h : a ^ k ≤ b ^ j) : a ^ n ≤ b ^ (n * j / k + 1) := by
  refine (Nat.pow_le_pow_iff_left (Nat.ne_of_gt hk)).1 ?_
  have hexp : n * j ≤ k * (n * j / k + 1) := (Nat.lt_mul_div_succ (n * j) hk).le
  calc (a ^ n) ^ k = (a ^ k) ^ n := by rw [← pow_mul, ← pow_mul, Nat.mul_comm]
    _ ≤ (b ^ j) ^ n := Nat.pow_le_pow_left h n
    _ = b ^ (n * j) := by rw [← pow_mul, Nat.mul_comm]
    _ ≤ b ^ (k * (n * j / k + 1)) := Nat.pow_le_pow_right hb hexp
    _ = (b ^ (n * j / k + 1)) ^ k := by rw [← pow_mul, Nat.mul_comm]

end Zumy.Lib
