/-
  Zumy.Lib.Bytes — numbers as bytes, and the order of byte strings.

  `leBytes k n` and `beBytes k n` are the low `k` bytes of `n`, the lowest or the highest one
  first. Byte strings are ordered as lists (`memcmp`, then the length).

  - `decodes_leBytes`, `decodes_beBytes`: a number below `256 ^ k` comes back.
  - `prefix_of_between`: what stands between a string and one that begins with it begins
    with it, too.
-/
import Mathlib.Algebra.Order.Ring.Nat
import Mathlib.Data.List.Basic
import Zumy.Lib.Codec

namespace Zumy.Lib

variable {k n m : Nat} {p x y r r' : List UInt8}

/-! ## Numbers -/

def leBytes : Nat → Nat → List UInt8
  | 0, _ => []
  | k + 1, n => UInt8.ofNat (n % 256) :: leBytes k (n / 256)

def beBytes : Nat → Nat → List UInt8
  | 0, _ => []
  | k + 1, n => UInt8.ofNat (n / 256 ^ k % 256) :: beBytes k n

def ofLeBytes : List UInt8 → Nat
  | [] => 0
  | b :: bs => b.toNat + 256 * ofLeBytes bs

def ofBeBytes : List UInt8 → Nat
  | [] => 0
  | b :: bs => b.toNat * 256 ^ bs.length + ofBeBytes bs

def readLe (k : Nat) : Decoder UInt8 Nat := ofLeBytes <$> Decoder.take k

def readBe (k : Nat) : Decoder UInt8 Nat := ofBeBytes <$> Decoder.take k

@[simp] theorem length_leBytes : (leBytes k n).length = k := by
  induction k generalizing n with
  | zero => rfl
  | succ k ih => rw [leBytes, List.length_cons, ih]

@[simp] theorem length_beBytes : (beBytes k n).length = k := by
  induction k with
  | zero => rfl
  | succ k ih => rw [beBytes, List.length_cons, ih]

theorem toNat_byte : (UInt8.ofNat (n % 256)).toNat = n % 256 := by simp

theorem ofLeBytes_leBytes : ofLeBytes (leBytes k n) = n % 256 ^ k := by
  induction k generalizing n with
  | zero => simp [leBytes, ofLeBytes, Nat.mod_one]
  | succ k ih => rw [leBytes, ofLeBytes, toNat_byte, ih, pow_succ', Nat.mod_mul]

theorem ofBeBytes_beBytes : ofBeBytes (beBytes k n) = n % 256 ^ k := by
  induction k with
  | zero => simp [beBytes, ofBeBytes, Nat.mod_one]
  | succ k ih => rw [beBytes, ofBeBytes, toNat_byte, length_beBytes, ih, pow_succ, Nat.mod_mul, Nat.add_comm, Nat.mul_comm]

theorem decodes_leBytes (h : n < 256 ^ k) : Decodes (readLe k) (leBytes k n) n := by
  have hread := (decodes_take (length_leBytes (k := k) (n := n))).map ofLeBytes
  rwa [ofLeBytes_leBytes, Nat.mod_eq_of_lt h] at hread

theorem decodes_beBytes (h : n < 256 ^ k) : Decodes (readBe k) (beBytes k n) n := by
  have hread := (decodes_take (length_beBytes (k := k) (n := n))).map ofBeBytes
  rwa [ofBeBytes_beBytes, Nat.mod_eq_of_lt h] at hread

/-! ## The order -/

theorem append_lt_append_iff : p ++ x < p ++ y ↔ x < y := by
  induction p with
  | nil => rfl
  | cons a p ih => simp [ih]

theorem not_append_lt : ¬ p ++ x < p := by
  induction p with
  | nil => simp
  | cons a p ih => simpa [List.cons_lt_cons_iff] using ih

theorem lt_append_of_lt (h : x < p) : x < p ++ y := by
  induction p generalizing x with
  | nil => simp at h
  | cons a p ih =>
    cases x with
    | nil => simp
    | cons b x =>
      rw [List.cons_lt_cons_iff] at h
      rw [List.cons_append, List.cons_lt_cons_iff]
      exact h.imp_right fun hrest => ⟨hrest.1, ih hrest.2⟩

/-- The induction is on the bytes; they differ first at the highest one that differs. -/
theorem beBytes_append_lt (h : m % 256 ^ k < n % 256 ^ k) : beBytes k m ++ r < beBytes k n ++ r' := by
  induction k with
  | zero => simp [Nat.mod_one] at h
  | succ k ih =>
    rw [beBytes, beBytes, List.cons_append, List.cons_append, List.cons_lt_cons_iff, UInt8.lt_iff_toNat_lt,
      toNat_byte, toNat_byte]
    rw [pow_succ, Nat.mod_mul, Nat.mod_mul] at h
    have hm : m % 256 ^ k < 256 ^ k := Nat.mod_lt _ (Nat.pow_pos (by decide))
    have hn : n % 256 ^ k < 256 ^ k := Nat.mod_lt _ (Nat.pow_pos (by decide))
    rcases Nat.lt_trichotomy (m / 256 ^ k % 256) (n / 256 ^ k % 256) with hlt | heq | hgt
    · exact .inl hlt
    · rw [heq] at h ⊢
      exact .inr ⟨rfl, ih (by omega)⟩
    · have hmul : 256 ^ k * (n / 256 ^ k % 256 + 1) ≤ 256 ^ k * (m / 256 ^ k % 256) := Nat.mul_le_mul_left _ hgt
      rw [Nat.mul_add, Nat.mul_one] at hmul
      omega

theorem prefix_of_between (hlow : ¬ x < p) (hlt : x < y) (hy : p <+: y) : p <+: x := by
  obtain ⟨t, rfl⟩ := hy
  induction p generalizing x with
  | nil => exact List.nil_prefix
  | cons a p ih =>
    cases x with
    | nil => simp at hlow
    | cons b x =>
      rw [List.cons_append] at hlt
      rw [List.cons_lt_cons_iff] at hlow hlt
      rw [not_or, not_and] at hlow
      have hba : b = a := by
        rcases hlt with hlt | ⟨heq, -⟩
        · exact absurd hlt hlow.1
        · exact heq
      subst hba
      have hrest := ih (hlow.2 rfl) (hlt.resolve_left hlow.1).2
      exact List.cons_prefix_cons.2 ⟨rfl, hrest⟩

end Zumy.Lib
