/-
  Zumy.Serialize.VarIntWidth — serialize.h: integers of variable length at an unsigned type.

  `w` is the width of the type. What is written comes back, and no byte is written past
  `tmp`. The reader takes bytes for as long as the high bit says so, and keeps `w` bits of
  what they stand for: a sequence whose number has more than `w` bits is read as another
  number, which has a shorter encoding.
-/
import Mathlib.Data.Nat.Bitwise
import Zumy.Serialize.VarInt

namespace Zumy.VarInt

variable {w : Nat}

def tmpByte (n : BitVec w) (more : Bool) : UInt8 := UInt8.ofNat ((n &&& 0x7F#w).toNat ||| if more then 0x80 else 0)

/-- The loop of `WriteVarInt` with `room` bytes of `tmp` left: `none` is a write past its end. -/
def fillTmp : Nat → Bool → BitVec w → Option (List UInt8)
  | 0, _, _ => none
  | room + 1, more, n =>
    if n ≤ 0x7F#w then some [tmpByte n more]
    else (fillTmp room true ((n >>> 7) - 1#w)).map (tmpByte n more :: ·)

def writeVarInt (n : BitVec w) : Option (List UInt8) := (fillTmp ((w + 6) / 7) false n).map List.reverse

/-- The loop of `GetSizeOfVarInt`; the bound on the turns is enough where it is at least `n`. -/
def sizeFrom : Nat → BitVec w → Nat
  | 0, _ => 1
  | fuel + 1, n => if n ≤ 0x7F#w then 1 else sizeFrom fuel ((n >>> 7) - 1#w) + 1

def getSizeOfVarInt (n : BitVec w) : Nat := sizeFrom n.toNat n

/-- The loop of `ReadVarInt`; `none` where the stream ends. -/
def readVarIntFrom (n : BitVec w) : List UInt8 → Option (BitVec w × List UInt8)
  | [] => none
  | chData :: is =>
    let n := (n <<< 7) ||| BitVec.ofNat w (chData &&& 0x7F).toNat
    if chData &&& 0x80 ≠ 0 then readVarIntFrom (n + 1#w) is else some (n, is)

def readVarInt (is : List UInt8) : Option (BitVec w × List UInt8) := readVarIntFrom 0#w is

/-- `sum(128^i*((a[i] & 0x7F)+1))`, over the bytes above the last one, the lowest first. -/
def carried : List UInt8 → Nat
  | [] => 0
  | a :: as => a.toNat % 128 + 128 * carried as + 1

/-- The number that a byte sequence encodes by the documentation:
    `(a[len-1] & 0x7F) + sum(i=1..len-1, 128^i*((a[len-i-1] & 0x7F)+1))`. -/
def varIntNumber (a : List UInt8) : Nat :=
  match a.reverse with
  | [] => 0
  | last :: above => last.toNat % 128 + 128 * carried above

/-! ## The width does not matter where nothing is cut off -/

theorem toNat_seven (hw : 7 < w) : (0x7F#w).toNat = 127 := by
  have hpow : 2 ^ 7 ≤ 2 ^ w := Nat.pow_le_pow_right (by decide) hw.le
  rw [BitVec.toNat_ofNat, Nat.mod_eq_of_lt (by omega)]

theorem tmpByte_eq (hw : 7 < w) (n : BitVec w) (more : Bool) :
    tmpByte n more = UInt8.ofNat (((n.toNat : Int) % 128).toNat + if more then 128 else 0) := by
  have hlow : (n &&& 0x7F#w).toNat = n.toNat % 128 := by
    rw [BitVec.toNat_and, toNat_seven hw]
    exact Nat.and_two_pow_sub_one_eq_mod n.toNat 7
  have hint : ((n.toNat : Int) % 128).toNat = n.toNat % 128 := by omega
  rw [tmpByte, hlow, hint]
  cases more with
  | false => simp
  | true =>
    have hor := Nat.two_pow_add_eq_or_of_lt (i := 7) (Nat.mod_lt n.toNat (by decide)) 1
    show UInt8.ofNat (n.toNat % 128 ||| 128) = UInt8.ofNat (n.toNat % 128 + 128)
    rw [Nat.or_comm, ← hor, Nat.add_comm]

theorem next_eq (hw : 7 < w) {n : BitVec w} (hn : ¬ n ≤ 0x7F#w) :
    127 < n.toNat ∧ ((n >>> 7) - 1#w).toNat = n.toNat / 128 - 1 := by
  rw [BitVec.le_def, toNat_seven hw] at hn
  have hone : (1#w).toNat = 1 := by
    have hpow : 2 ^ 7 ≤ 2 ^ w := Nat.pow_le_pow_right (by decide) hw.le
    rw [BitVec.toNat_ofNat, Nat.mod_eq_of_lt (by omega)]
  have hshift : (n >>> 7).toNat = n.toNat / 128 := by rw [BitVec.toNat_ushiftRight, Nat.shiftRight_eq_div_pow]
  refine ⟨by omega, ?_⟩
  rw [BitVec.toNat_sub_of_le, hshift, hone]
  rw [BitVec.le_def, hshift, hone]
  omega

theorem fillTmp_eq (hw : 7 < w) (room fuel : Nat) (more : Bool) (n : BitVec w) (hroom : 0 < room) (hn : n.toNat < 128 ^ room)
    (hfuel : n.toNat ≤ fuel) : fillTmp room more n = some (varIntTmp fuel more n.toNat) := by
  induction room generalizing fuel more n with
  | zero => cases hroom
  | succ room ih =>
    rw [fillTmp, tmpByte_eq hw]
    by_cases hsmall : n ≤ 0x7F#w
    · rw [if_pos hsmall]
      rw [BitVec.le_def, toNat_seven hw] at hsmall
      cases fuel with
      | zero => rfl
      | succ fuel => simp only [varIntTmp, if_pos (show (n.toNat : Int) ≤ 0x7F by omega)]
    · rw [if_neg hsmall]
      obtain ⟨hbig, hnext⟩ := next_eq hw hsmall
      have hpow : n.toNat / 128 < 128 ^ room := Nat.div_lt_of_lt_mul (by rw [← Nat.pow_succ']; exact hn)
      have hsome : 0 < room := by
        by_contra hzero
        rw [Nat.eq_zero_of_not_pos hzero] at hpow
        omega
      cases fuel with
      | zero => omega
      | succ fuel =>
        have hcast : (n.toNat : Int) / 128 - 1 = ((n.toNat / 128 - 1 : Nat) : Int) := by omega
        rw [ih fuel true _ hsome (by omega) (by omega), hnext, Option.map_some, varIntTmp,
          if_neg (show ¬ (n.toNat : Int) ≤ 0x7F by omega), hcast]

theorem sizeFrom_eq (hw : 7 < w) (fuel : Nat) (n : BitVec w) : sizeFrom fuel n = sizeOfVarIntFrom fuel n.toNat := by
  induction fuel generalizing n with
  | zero => rfl
  | succ fuel ih =>
    rw [sizeFrom, sizeOfVarIntFrom]
    by_cases hsmall : n ≤ 0x7F#w
    · rw [if_pos hsmall]
      rw [BitVec.le_def, toNat_seven hw] at hsmall
      rw [if_pos (by omega)]
    · obtain ⟨hbig, hnext⟩ := next_eq hw hsmall
      have hcast : (n.toNat : Int) / 128 - 1 = ((n.toNat / 128 - 1 : Nat) : Int) := by omega
      rw [if_neg hsmall, if_neg (by omega), ih, hnext, hcast]

theorem writeVarInt_eq (hw : 7 < w) (n : BitVec w) : writeVarInt n = some (Zumy.writeVarInt n.toNat) := by
  have hpow : 2 ^ w ≤ 128 ^ ((w + 6) / 7) := by
    rw [show (128 : Nat) = 2 ^ 7 from rfl, ← Nat.pow_mul]
    exact Nat.pow_le_pow_right (by decide) (by omega)
  have hn := n.isLt
  rw [writeVarInt, fillTmp_eq hw _ n.toNat false n (by omega) (by omega) le_rfl]
  rfl

theorem shiftIn_eq (hi : Nat) {low : Nat} (hlow : low < 128) :
    (BitVec.ofNat w hi <<< 7) ||| BitVec.ofNat w low = BitVec.ofNat w (hi * 128 + low) := by
  have hapart : (BitVec.ofNat w hi <<< 7) &&& BitVec.ofNat w low = 0#w := by
    apply BitVec.eq_of_getLsbD_eq
    intro i _
    rw [BitVec.getLsbD_and, BitVec.getLsbD_shiftLeft, BitVec.getLsbD_ofNat, BitVec.getLsbD_ofNat, BitVec.getLsbD_zero]
    by_cases hseven : i < 7
    · simp [hseven]
    · have hpow : 2 ^ 7 ≤ 2 ^ i := Nat.pow_le_pow_right (by decide) (by omega)
      have hbit : low.testBit i = false := Nat.testBit_lt_two_pow (by omega)
      simp [hbit]
  rw [← BitVec.add_eq_or_of_and_eq_zero _ _ hapart]
  apply BitVec.eq_of_toNat_eq
  simp [Nat.shiftLeft_eq, Nat.add_mod, Nat.mul_mod]

theorem high_bit (chData : UInt8) : chData &&& 0x80 ≠ 0 ↔ 128 ≤ chData.toNat := by
  have hlt := chData.toNat_lt
  have hbit : chData.toNat &&& 128 = (chData.toNat.testBit 7).toNat * 128 := Nat.and_two_pow chData.toNat 7
  rw [Ne, ← UInt8.toNat_inj, UInt8.toNat_and]
  show ¬ chData.toNat &&& 128 = 0 ↔ _
  rw [hbit, Nat.testBit_eq_decide_div_mod_eq]
  by_cases hge : 128 ≤ chData.toNat
  · simp [hge]
    omega
  · simp [hge]
    omega

theorem readVarIntFrom_eq (hi : Nat) (is : List UInt8) :
    readVarIntFrom (BitVec.ofNat w hi) is = (Zumy.readVarIntFrom hi is).map fun p => (BitVec.ofInt w p.1, p.2) := by
  induction is generalizing hi with
  | nil => rfl
  | cons chData is ih =>
    have hlow : (chData &&& 0x7F).toNat = chData.toNat % 128 := by
      rw [UInt8.toNat_and]
      exact Nat.and_two_pow_sub_one_eq_mod chData.toNat 7
    have hcast : (hi : Int) * 128 + (chData.toNat % 128 : Nat) = ((hi * 128 + chData.toNat % 128 : Nat) : Int) := by push_cast; rfl
    simp only [readVarIntFrom, Zumy.readVarIntFrom, hlow, high_bit, hcast, shiftIn_eq hi (Nat.mod_lt _ (by decide : 128 > 0))]
    split
    · have hsucc := ih (hi * 128 + chData.toNat % 128 + 1)
      rw [Nat.cast_add_one] at hsucc
      rw [← hsucc, BitVec.ofNat_add (hi * 128 + chData.toNat % 128)]
    · rw [Option.map_some, BitVec.ofInt_natCast]

/-! ## What is read -/

theorem length_lt_of_read {n m : Int} {is rest : List UInt8} (h : Zumy.readVarIntFrom n is = some (m, rest)) :
    rest.length < is.length := by
  induction is generalizing n with
  | nil => cases h
  | cons chData is ih =>
    simp only [Zumy.readVarIntFrom] at h
    split at h
    · have hlt := ih h
      rw [List.length_cons]
      omega
    · cases h
      exact Nat.lt_succ_self _

/-- The induction is on the bytes that are taken; those before them are in `above`. -/
theorem read_consumed {consumed rest above : List UInt8} {m : Int}
    (h : Zumy.readVarIntFrom (carried above) (consumed ++ rest) = some (m, rest)) (habove : ∀ a ∈ above, 128 ≤ a.toNat) :
    ∃ last above', consumed.reverse ++ above = last :: above' ∧ last.toNat < 128 ∧ (∀ a ∈ above', 128 ≤ a.toNat) ∧
      m = (last.toNat % 128 + 128 * carried above' : Nat) := by
  induction consumed generalizing above with
  | nil => exact absurd (length_lt_of_read h) (lt_irrefl _)
  | cons chData consumed ih =>
    simp only [List.cons_append, Zumy.readVarIntFrom] at h
    rw [List.reverse_cons, List.append_assoc, List.singleton_append]
    split at h
    · next hmore =>
      have hnext : Zumy.readVarIntFrom (carried (chData :: above)) (consumed ++ rest) = some (m, rest) := by
        rw [← h, carried]
        congr 1
        push_cast
        omega
      exact ih hnext (List.forall_mem_cons.2 ⟨hmore, habove⟩)
    · next hlast =>
      have hboth := Option.some.inj h
      have hnil : consumed = [] := by
        have hlength := congrArg (fun p : Int × List UInt8 => p.2.length) hboth
        simp only [List.length_append] at hlength
        exact List.length_eq_zero_iff.1 (by omega)
      subst hnil
      refine ⟨chData, above, rfl, by omega, habove, ?_⟩
      have hm := (Prod.mk.inj hboth).1
      rw [← hm]
      push_cast
      omega

theorem ofNat_low (a : UInt8) {n : Nat} (hn : n % 128 = a.toNat % 128) :
    UInt8.ofNat (((n : Int) % 128).toNat + if decide (128 ≤ a.toNat) then 128 else 0) = a := by
  have hlt := a.toNat_lt
  apply UInt8.toNat_inj.1
  rw [UInt8.toNat_ofNat']
  simp only [decide_eq_true_eq]
  split <;> omega

theorem varIntTmp_number (last : UInt8) {above : List UInt8} (habove : ∀ a ∈ above, 128 ≤ a.toNat) {fuel : Nat}
    (hfuel : last.toNat % 128 + 128 * carried above ≤ fuel) :
    varIntTmp fuel (decide (128 ≤ last.toNat)) (last.toNat % 128 + 128 * carried above : Nat) = last :: above := by
  have hbyte := ofNat_low last (n := last.toNat % 128 + 128 * carried above) (by omega)
  induction above generalizing last fuel with
  | nil =>
    rw [carried] at hbyte ⊢
    cases fuel with
    | zero => rw [varIntTmp, hbyte]
    | succ fuel => simp only [varIntTmp, hbyte, if_pos (show ((last.toNat % 128 + 128 * 0 : Nat) : Int) ≤ 0x7F by omega)]
  | cons a above ih =>
    obtain ⟨ha, habove⟩ := List.forall_mem_cons.1 habove
    rw [carried] at hbyte hfuel ⊢
    have hrest (fuel : Nat) := @ih a habove fuel
    generalize hnumber : a.toNat % 128 + 128 * carried above = number at hbyte hfuel hrest ⊢
    cases fuel with
    | zero => omega
    | succ fuel =>
      have hnext : ((last.toNat % 128 + 128 * (number + 1) : Nat) : Int) / 128 - 1 = (number : Nat) := by omega
      have hrest := hrest fuel (by omega) (ofNat_low a (by omega))
      rw [decide_eq_true ha] at hrest
      simp only [varIntTmp, hbyte, hnext, hrest, if_neg (show ¬ ((last.toNat % 128 + 128 * (number + 1) : Nat) : Int) ≤ 0x7F by omega)]

/-- Without a width the encoding is one-to-one: what is taken is the encoding of its number. -/
theorem writeVarInt_number {consumed rest : List UInt8} {m : Int} (h : Zumy.readVarInt (consumed ++ rest) = some (m, rest)) :
    m = varIntNumber consumed ∧ Zumy.writeVarInt m = consumed := by
  obtain ⟨last, above, hrev, hlast, habove, rfl⟩ := @read_consumed _ _ [] _ h (by simp)
  rw [List.append_nil] at hrev
  refine ⟨by rw [varIntNumber, hrev], ?_⟩
  have htmp := varIntTmp_number last habove le_rfl
  rw [decide_eq_false (by omega)] at htmp
  rw [Zumy.writeVarInt, Int.toNat_natCast, htmp, ← hrev, List.reverse_reverse]

/-- What is written is read again, in `GetSizeOfVarInt` bytes and within `tmp`. What is read is written
    again just when it is the encoding of a number of the type. -/
theorem varInt_one_to_one (hw : 7 < w) :
    (∀ n : BitVec w, ∃ bytes, writeVarInt n = some bytes ∧ bytes.length = getSizeOfVarInt n ∧
      ∀ rest, readVarInt (bytes ++ rest) = some (n, rest)) ∧
    ∀ (n : BitVec w) (consumed rest : List UInt8), readVarInt (consumed ++ rest) = some (n, rest) →
      (writeVarInt n = some consumed ↔ varIntNumber consumed < 2 ^ w) := by
  constructor
  · intro n
    refine ⟨_, writeVarInt_eq hw n, ?_, fun rest => ?_⟩
    · rw [length_writeVarInt, getSizeOfVarInt, sizeFrom_eq hw]
      rfl
    · have hread := readVarInt_of_nonneg (Int.natCast_nonneg n.toNat) rest
      have heq := readVarIntFrom_eq (w := w) 0 (Zumy.writeVarInt n.toNat ++ rest)
      rw [Zumy.readVarInt] at hread
      rw [Nat.cast_zero, hread, Option.map_some, BitVec.ofInt_natCast, BitVec.ofNat_toNat, BitVec.setWidth_eq] at heq
      exact heq
  · intro n consumed rest h
    have heq := readVarIntFrom_eq (w := w) 0 (consumed ++ rest)
    rw [readVarInt] at h
    rw [h] at heq
    obtain ⟨⟨m, _⟩, hread, hboth⟩ := Option.map_eq_some_iff.1 heq.symm
    cases hboth
    obtain ⟨hm, hwrite⟩ := writeVarInt_number hread
    subst hm
    rw [BitVec.ofInt_natCast, writeVarInt_eq hw, BitVec.toNat_ofNat, Option.some.injEq]
    constructor
    · intro hsame
      have hback := readVarInt_of_nonneg (Int.natCast_nonneg (varIntNumber consumed % 2 ^ w))
      rw [hsame] at hback
      have hmod := Int.ofNat.inj (Prod.mk.inj (Option.some.inj (hread.symm.trans (hback _)))).1
      rw [hmod]
      exact Nat.mod_lt _ (Nat.two_pow_pos w)
    · intro hlt
      rw [Nat.mod_eq_of_lt hlt]
      exact hwrite

theorem varInt_one_to_one_sample :
    (∃ bytes, writeVarInt 300#32 = some bytes ∧ bytes.length = getSizeOfVarInt 300#32 ∧
      ∀ rest, readVarInt (bytes ++ rest) = some (300#32, rest)) ∧
    (writeVarInt 0#32 = some [0x00] ↔ varIntNumber [0x00] < 2 ^ 32) :=
  ⟨(varInt_one_to_one (by decide)).1 300#32, (varInt_one_to_one (by decide)).2 0#32 [0x00] [] (by decide)⟩

/-- The encoding of 2^32 is read as zero, which has an encoding of one byte. -/
theorem zero_has_two_encodings :
    readVarInt (w := 32) [0x8E, 0xFE, 0xFE, 0xFF, 0x00] = some (0, []) ∧ readVarInt (w := 32) [0x00] = some (0, []) ∧
      writeVarInt (0#32) = some [0x00] := by
  decide

end Zumy.VarInt
