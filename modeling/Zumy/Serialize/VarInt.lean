/-
  Zumy.Serialize.VarInt — serialize.h: integers of variable length.

  A byte holds seven bits, the highest first, and every byte but the last has its high bit
  set. `writeVarInt` is the template at a signed type: a negative number stops the loop at
  once and leaves its low seven bits. The width of the type is left out: what is read back
  was written.
-/
import Mathlib.Algebra.Order.Ring.Int

namespace Zumy

/-- The loop of `WriteVarInt`: the bytes of `tmp`, the first of them first; `more` from the
    second on. The bound on the turns is enough where it is at least `n`. -/
def varIntTmp : Nat → Bool → Int → List UInt8
  | 0, more, n => [UInt8.ofNat ((n % 128).toNat + if more then 128 else 0)]
  | fuel + 1, more, n =>
    let byte := UInt8.ofNat ((n % 128).toNat + if more then 128 else 0)
    if n ≤ 0x7F then [byte] else byte :: varIntTmp fuel true (n / 128 - 1)

def writeVarInt (n : Int) : List UInt8 := (varIntTmp n.toNat false n).reverse

/-- The loop of `ReadVarInt` from what is read already; `none` where the stream ends. -/
def readVarIntFrom (n : Int) : List UInt8 → Option (Int × List UInt8)
  | [] => none
  | chData :: is =>
    let n := n * 128 + (chData.toNat % 128 : Nat)
    if 128 ≤ chData.toNat then readVarIntFrom (n + 1) is else some (n, is)

def readVarInt (is : List UInt8) : Option (Int × List UInt8) := readVarIntFrom 0 is

theorem readVarIntFrom_byte (hi n : Int) (more : Bool) (rest : List UInt8) :
    readVarIntFrom hi (UInt8.ofNat ((n % 128).toNat + if more then 128 else 0) :: rest) =
      if more then readVarIntFrom (hi * 128 + n % 128 + 1) rest else some (hi * 128 + n % 128, rest) := by
  have hlow : 0 ≤ n % 128 ∧ n % 128 < 128 := ⟨Int.emod_nonneg n (by decide), Int.emod_lt_of_pos n (by decide)⟩
  generalize n % 128 = low at hlow
  cases more with
  | true =>
    have hbyte : (UInt8.ofNat (low.toNat + 128)).toNat = low.toNat + 128 := by
      rw [UInt8.toNat_ofNat']
      omega
    have hrest : (((low.toNat + 128) % 128 : Nat) : Int) = low := by omega
    simp only [readVarIntFrom, if_true, hbyte, hrest, Nat.le_add_left]
  | false =>
    have hbyte : (UInt8.ofNat low.toNat).toNat = low.toNat := by
      rw [UInt8.toNat_ofNat']
      omega
    have hrest : ((low.toNat % 128 : Nat) : Int) = low := by omega
    have hends : ¬ 128 ≤ low.toNat := by omega
    simp only [readVarIntFrom, Bool.false_eq_true, if_false, Nat.add_zero, hbyte, hrest, hends]

/-- The induction is on the bound: the bytes above give `n / 128`, the one below its rest. -/
theorem readVarIntFrom_tmp (fuel : Nat) (more : Bool) (n : Int) (hn : 0 ≤ n) (hfuel : n.toNat ≤ fuel) (rest : List UInt8) :
    readVarIntFrom 0 ((varIntTmp fuel more n).reverse ++ rest) =
      if more then readVarIntFrom (n + 1) rest else some (n, rest) := by
  induction fuel generalizing more n rest with
  | zero =>
    have hzero : n = 0 := by omega
    simp only [varIntTmp, List.reverse_singleton, List.singleton_append, readVarIntFrom_byte, hzero]
    simp
  | succ fuel ih =>
    unfold varIntTmp
    dsimp only
    split
    · next hsmall =>
      have hmod : n % 128 = n := Int.emod_eq_of_lt hn (by omega)
      rw [List.reverse_singleton, List.singleton_append, readVarIntFrom_byte, hmod, Int.zero_mul, Int.zero_add]
    · next hbig =>
      rw [List.reverse_cons, List.append_assoc, List.singleton_append, ih true (n / 128 - 1) (by omega) (by omega), if_pos rfl,
        readVarIntFrom_byte]
      have hsplit : (n / 128 - 1 + 1) * 128 + n % 128 = n := by omega
      rw [hsplit]

theorem readVarInt_of_nonneg {n : Int} (hn : 0 ≤ n) (rest : List UInt8) :
    readVarInt (writeVarInt n ++ rest) = some (n, rest) := by
  rw [readVarInt, writeVarInt, readVarIntFrom_tmp _ _ _ hn (Nat.le_refl _), if_neg Bool.false_ne_true]

theorem readVarInt_of_neg {n : Int} (hn : n < 0) (rest : List UInt8) :
    readVarInt (writeVarInt n ++ rest) = some (n % 128, rest) := by
  have hzero : n.toNat = 0 := by omega
  rw [readVarInt, writeVarInt, hzero, varIntTmp, List.reverse_singleton, List.singleton_append, readVarIntFrom_byte,
    if_neg Bool.false_ne_true, Int.zero_mul, Int.zero_add]

def throughVarInt (n : Int) : Int := if 0 ≤ n then n else n % 128

theorem readVarInt_writeVarInt (n : Int) (rest : List UInt8) :
    readVarInt (writeVarInt n ++ rest) = some (throughVarInt n, rest) := by
  unfold throughVarInt
  split
  · next hn => exact readVarInt_of_nonneg hn rest
  · next hn => exact readVarInt_of_neg (by omega) rest

theorem throughVarInt_eq_iff {n : Int} : throughVarInt n = n ↔ 0 ≤ n := by
  unfold throughVarInt
  split <;> omega

example : writeVarInt 16512 = [0x80, 0x80, 0x00] := by decide

/-- The loop of `GetSizeOfVarInt`, with the bound of `varIntTmp`. -/
def sizeOfVarIntFrom : Nat → Int → Nat
  | 0, _ => 1
  | fuel + 1, n => if n ≤ 0x7F then 1 else sizeOfVarIntFrom fuel (n / 128 - 1) + 1

def getSizeOfVarInt (n : Int) : Nat := sizeOfVarIntFrom n.toNat n

theorem length_varIntTmp (fuel : Nat) (more : Bool) (n : Int) : (varIntTmp fuel more n).length = sizeOfVarIntFrom fuel n := by
  induction fuel generalizing more n with
  | zero => rfl
  | succ fuel ih =>
    unfold varIntTmp sizeOfVarIntFrom
    dsimp only
    split
    · rfl
    · rw [List.length_cons, ih]

@[simp] theorem length_writeVarInt (n : Int) : (writeVarInt n).length = getSizeOfVarInt n := by
  rw [writeVarInt, List.length_reverse, length_varIntTmp, getSizeOfVarInt]

end Zumy
