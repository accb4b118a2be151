/-
  Zumy.Lib.Codec — decoders of a stream, and what they read back.

  `Decodes d bytes a`: in front of any rest, `bytes` are read as `a` and the rest is left. It
  goes through the operations a decoder is built of, so a format is shown to come back part by
  part (`Decodes.bind`, `decodes_mapM`).
-/
import Mathlib.Data.List.Basic
import Mathlib.Data.Nat.Bitwise

namespace Zumy.Lib

universe u

variable {β α γ ι : Type u}

abbrev Decoder (β α : Type u) := StateT (List β) Option α

def Decodes (d : Decoder β α) (bytes : List β) (a : α) : Prop := ∀ rest, d (bytes ++ rest) = some (a, rest)

/-- The next `n` elements of the stream. -/
def Decoder.take (n : Nat) : Decoder β (List β) := fun is => if n ≤ is.length then some (is.take n, is.drop n) else none

theorem decodes_pure (a : α) : Decodes (pure a : Decoder β α) [] a := fun _ => rfl

theorem Decodes.bind {d : Decoder β α} {next : α → Decoder β γ} {bs bs' : List β} {a : α} {c : γ}
    (hd : Decodes d bs a) (hnext : Decodes (next a) bs' c) : Decodes (d >>= next) (bs ++ bs') c := by
  intro rest
  show (d (bs ++ bs' ++ rest)).bind (fun p => next p.1 p.2) = some (c, rest)
  rw [List.append_assoc, hd, Option.bind_some]
  exact hnext rest

theorem Decodes.map {d : Decoder β α} {bs : List β} {a : α} (hd : Decodes d bs a) (f : α → γ) : Decodes (f <$> d) bs (f a) := by
  intro rest
  show (d (bs ++ rest)).bind (fun p => some (f p.1, p.2)) = some (f a, rest)
  rw [hd, Option.bind_some]

theorem decodes_take {bs : List β} {n : Nat} (h : bs.length = n) : Decodes (Decoder.take n) bs bs := by
  intro rest
  subst h
  simp [Decoder.take]

theorem decodes_mapM {d : ι → Decoder β α} {write : ι → List β} {a : ι → α} :
    ∀ is : List ι, (∀ i ∈ is, Decodes (d i) (write i) (a i)) → Decodes (is.mapM d) (is.flatMap write) (is.map a)
  | [], _ => decodes_pure []
  | i :: is, h => by
    rw [List.mapM_cons, List.flatMap_cons, List.map_cons]
    have hrest := (decodes_mapM is fun j hj => h j (List.mem_cons_of_mem _ hj)).map (a i :: ·)
    exact (h i List.mem_cons_self).bind hrest

/-! ## Bits -/

/-- The loop that sets the bits of a number: `f i` at bit `i`, below `n`. -/
def packBits (n : Nat) (f : Nat → Bool) : Nat := (List.range n).foldl (fun bits i => if f i then bits ||| 1 <<< i else bits) 0

theorem packBits_succ (n : Nat) (f : Nat → Bool) :
    packBits (n + 1) f = if f n then packBits n f ||| 1 <<< n else packBits n f := by
  rw [packBits, List.range_succ, List.foldl_append]
  rfl

theorem testBit_packBits (n : Nat) (f : Nat → Bool) (p : Nat) : (packBits n f).testBit p = (decide (p < n) && f p) := by
  induction n with
  | zero => simp [packBits]
  | succ n ih =>
    have hbit : (1 <<< n).testBit p = decide (n = p) := by rw [Nat.shiftLeft_eq, Nat.one_mul, Nat.testBit_two_pow]
    rw [packBits_succ]
    rcases Nat.lt_trichotomy p n with hlt | rfl | hgt
    · have hne : n ≠ p := by omega
      split
      · rw [Nat.testBit_or, hbit, ih]
        simp [hlt, hne, Nat.lt_succ_of_lt hlt]
      · rw [ih]
        simp [hlt, Nat.lt_succ_of_lt hlt]
    · split
      · next hset => simp [Nat.testBit_or, ih, hset]
      · next hset => simp [ih, hset]
    · have hne : n ≠ p := by omega
      have hpn : ¬ p < n ∧ ¬ p < n + 1 := by omega
      split
      · rw [Nat.testBit_or, hbit, ih]
        simp [hpn.1, hpn.2, hne]
      · rw [ih]
        simp [hpn.1, hpn.2]

theorem packBits_lt (n : Nat) (f : Nat → Bool) : packBits n f < 2 ^ n := by
  apply Nat.lt_pow_two_of_testBit
  intro p hp
  rw [testBit_packBits, decide_eq_false (by omega), Bool.false_and]

theorem packBits_eq_zero_iff {n : Nat} {f : Nat → Bool} : packBits n f = 0 ↔ ∀ i < n, f i = false := by
  constructor
  · intro hzero i hi
    have hbit := testBit_packBits n f i
    rw [hzero, Nat.zero_testBit, decide_eq_true hi, Bool.true_and] at hbit
    exact hbit.symm
  · intro hall
    apply Nat.eq_of_testBit_eq
    intro p
    rw [testBit_packBits, Nat.zero_testBit]
    by_cases hp : p < n
    · rw [hall p hp, Bool.and_false]
    · rw [decide_eq_false hp, Bool.false_and]

/-! ## Framed lists -/

/-- A list that begins with `head` and ends with `tail` is what stands between them, framed. -/
theorem eq_framed {l : List α} (head : List α) (n : Nat) (tail : List α) (hlength : l.length = head.length + n + tail.length)
    (hhead : ∀ i < head.length, l[i]? = head[i]?) (htail : ∀ i < tail.length, l[head.length + n + i]? = tail[i]?) :
    l = head ++ ((l.drop head.length).take n ++ tail) := by
  apply List.ext_getElem?
  intro i
  have hmid : ((l.drop head.length).take n).length = n := by
    rw [List.length_take, List.length_drop]
    omega
  rcases Nat.lt_or_ge i head.length with hi | hi
  · rw [List.getElem?_append_left hi, hhead i hi]
  · rw [List.getElem?_append_right hi]
    rcases Nat.lt_or_ge (i - head.length) n with hj | hj
    · have hback : head.length + (i - head.length) = i := by omega
      rw [List.getElem?_append_left (by omega), List.getElem?_take_of_lt hj, List.getElem?_drop, hback]
    · rw [List.getElem?_append_right (by omega), hmid]
      rcases Nat.lt_or_ge (i - head.length - n) tail.length with hk | hk
      · have hback : head.length + n + (i - head.length - n) = i := by omega
        rw [← htail _ hk, hback]
      · rw [List.getElem?_eq_none hk, List.getElem?_eq_none (by omega)]

end Zumy.Lib
