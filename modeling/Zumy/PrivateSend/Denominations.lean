/-
  Zumy.PrivateSend.Denominations — denominations as bits (privatesend.cpp).

  `GetDenominations` sets a bit for each denomination among the outputs. The two decoders
  refuse a number with a bit behind the last denomination by comparing it with the first such
  power of two; the number is a signed one that the peer sends, and a negative one has all
  those bits.
-/
import Zumy.Lib.Decimal
import Zumy.PrivateSend.Pool

namespace Zumy.PrivateSend

open Lib

/-! ## Texts -/

/-- The loop of `FormatMoney` on the reversed text: a zero goes while there is a digit two places before it. -/
def trimZeros : List Char → List Char
  | '0' :: c :: d :: l => if d.isDigit then trimZeros (c :: d :: l) else '0' :: c :: d :: l
  | l => l

def formatMoney (n : CAmount) : String :=
  let nAbs := if n > 0 then n else -n
  let remainder := decimal (nAbs % coin)
  let str := decimal (nAbs / coin) ++ '.' :: (List.replicate (8 - remainder.length) '0' ++ remainder)
  let str := (trimZeros str.reverse).reverse
  String.ofList (if n < 0 then '-' :: str else str)

/-- `nDenom & (1 << i)` -/
def hasBit (nDenom : Int) (i : Nat) : Bool := (nDenom >>> i) % 2 == 1

def getDenominationsToString (nDenom : Int) : String :=
  if nDenom ≥ 2 ^ vecPrivateSendDenominations.length then "out-of-bounds"
  else
    let strDenom := vecPrivateSendDenominations.zipIdx.foldl (fun strDenom s =>
      if hasBit nDenom s.2 then strDenom ++ (if strDenom.isEmpty then "" else "+") ++ formatMoney s.1 else strDenom) ""
    if strDenom.isEmpty then "non-denom" else strDenom

/-! ## What a number stands for -/

def IsDenomination (nDenom : Int) : Prop :=
  ∃ vecTxOut : List CTxOut, vecTxOut ≠ [] ∧ (∀ txout ∈ vecTxOut, txout.nValue ∈ vecPrivateSendDenominations) ∧
    getDenominations vecTxOut = nDenom

def outputsOf (vecBits : List Nat) : List CTxOut := vecBits.map fun i => ⟨vecPrivateSendDenominations.getD i 0, []⟩

/-- Both decoders take the numbers of standard outputs and no others; the bits of one that is taken
    are those it is made of. -/
structure Decoded (nDenom : Int) : Prop where
  bits : (getDenominationsBits nDenom).isSome = true ↔ IsDenomination nDenom
  text : (getDenominationsToString nDenom ≠ "out-of-bounds" ∧ getDenominationsToString nDenom ≠ "non-denom") ↔
    IsDenomination nDenom
  again : IsDenomination nDenom → ∀ vecBits, getDenominationsBits nDenom = some vecBits →
    getDenominations (outputsOf vecBits) = nDenom

/-! ## Four bits -/

theorem hasBit_mod (nDenom : Int) {i : Nat} (hi : i < 4) : hasBit (nDenom % 16) i = hasBit nDenom i := by
  unfold hasBit
  rw [Int.shiftRight_eq_div_pow, Int.shiftRight_eq_div_pow]
  congr 1
  match i, hi with
  | 0, _ => omega
  | 1, _ => omega
  | 2, _ => omega
  | 3, _ => omega

theorem decoders_mod {nDenom : Int} (hlt : nDenom < 16) :
    getDenominationsBits nDenom = getDenominationsBits (nDenom % 16) ∧
    getDenominationsToString nDenom = getDenominationsToString (nDenom % 16) := by
  have hnot : ¬ nDenom ≥ 2 ^ vecPrivateSendDenominations.length := by
    show ¬ nDenom ≥ 2 ^ 4
    omega
  have hnot' : ¬ nDenom % 16 ≥ 2 ^ vecPrivateSendDenominations.length := by
    show ¬ nDenom % 16 ≥ 2 ^ 4
    omega
  constructor
  · have hbits : (List.range vecPrivateSendDenominations.length).filter (hasBit nDenom) =
        (List.range vecPrivateSendDenominations.length).filter (hasBit (nDenom % 16)) := by
      apply List.filter_congr
      intro i hi
      exact (hasBit_mod nDenom (List.mem_range.1 hi)).symm
    unfold getDenominationsBits
    dsimp only
    rw [if_neg hnot, if_neg hnot']
    unfold hasBit at hbits
    rw [hbits]
  · unfold getDenominationsToString
    rw [if_neg hnot, if_neg hnot']
    simp only [vecPrivateSendDenominations, List.zipIdx_cons, List.zipIdx_nil, List.foldl_cons, List.foldl_nil,
      hasBit_mod nDenom (show 0 < 4 by decide), hasBit_mod nDenom (show 0 + 1 < 4 by decide),
      hasBit_mod nDenom (show 0 + 1 + 1 < 4 by decide), hasBit_mod nDenom (show 0 + 1 + 1 + 1 < 4 by decide)]

/-- The decoders on four bits: they refuse 0, and the bits of another number make it up. -/
theorem decoders_low : ∀ k : Fin 16,
    ((getDenominationsBits (k : Int)).isSome = true ↔ k ≠ 0) ∧
    ((getDenominationsToString (k : Int) ≠ "out-of-bounds" ∧ getDenominationsToString (k : Int) ≠ "non-denom") ↔ k ≠ 0) ∧
    (k ≠ 0 → getDenominations (outputsOf ((getDenominationsBits (k : Int)).getD [])) = k) := by
  decide +kernel

theorem getDenominationsBits_some {nDenom : Int} {vecBits : List Nat} (h : getDenominationsBits nDenom = some vecBits) :
    vecBits ≠ [] ∧ ∀ i ∈ vecBits, i < vecPrivateSendDenominations.length := by
  unfold getDenominationsBits at h
  dsimp only at h
  split at h
  · cases h
  split at h
  · cases h
  · rename_i hsome
    cases h
    refine ⟨by simpa using hsome, fun i hi => ?_⟩
    exact List.mem_range.1 (List.mem_filter.1 hi).1

theorem standard_outputsOf {vecBits : List Nat} (h : ∀ i ∈ vecBits, i < vecPrivateSendDenominations.length) :
    ∀ txout ∈ outputsOf vecBits, txout.nValue ∈ vecPrivateSendDenominations := by
  intro txout hin
  obtain ⟨i, hi, rfl⟩ := List.mem_map.1 hin
  show vecPrivateSendDenominations.getD i 0 ∈ vecPrivateSendDenominations
  rw [List.getD_eq_getElem?_getD, List.getElem?_eq_getElem (h i hi), Option.getD_some]
  exact List.getElem_mem _

theorem isDenomination_iff {nDenom : Int} : IsDenomination nDenom ↔ 0 < nDenom ∧ nDenom < 16 := by
  constructor
  · rintro ⟨vecTxOut, hne, hstandard, rfl⟩
    obtain ⟨txout, hin⟩ := List.exists_mem_of_ne_nil vecTxOut hne
    have hall : (vecTxOut.all fun txout => vecPrivateSendDenominations.any (txout.nValue == ·)) = true := by
      simpa using hstandard
    have hused : vecPrivateSendDenominations.any (fun nValue => vecTxOut.any (·.nValue == nValue)) = true := by
      rw [List.any_eq_true]
      refine ⟨txout.nValue, hstandard txout hin, ?_⟩
      rw [List.any_eq_true]
      exact ⟨txout, hin, by simp⟩
    -- only the four answers whether a denomination is used are left
    unfold getDenominations
    rw [if_pos hall]
    simp only [vecPrivateSendDenominations, List.any_cons, List.any_nil, Bool.or_false, List.zipIdx_cons, List.zipIdx_nil,
      List.foldl_cons, List.foldl_nil] at hused ⊢
    generalize (vecTxOut.any fun x => x.nValue == 10 * coin + 10000) = b₀ at *
    generalize (vecTxOut.any fun x => x.nValue == coin + 1000) = b₁ at *
    generalize (vecTxOut.any fun x => x.nValue == 10000100) = b₂ at *
    generalize (vecTxOut.any fun x => x.nValue == 1000010) = b₃ at *
    clear hne hstandard hin hall
    revert b₀ b₁ b₂ b₃
    decide
  · rintro ⟨hpos, hlt⟩
    lift nDenom to Nat using hpos.le
    have hne : (⟨nDenom, by omega⟩ : Fin 16) ≠ 0 := by
      rw [Ne, Fin.ext_iff]
      show ¬ nDenom = 0
      omega
    obtain ⟨hsome, -, hagain⟩ := decoders_low ⟨nDenom, by omega⟩
    obtain ⟨vecBits, hbits⟩ := Option.isSome_iff_exists.1 (hsome.2 hne)
    have hagain := hagain hne
    rw [hbits, Option.getD_some] at hagain
    obtain ⟨hsomeBits, hbound⟩ := getDenominationsBits_some hbits
    refine ⟨outputsOf vecBits, ?_, standard_outputsOf hbound, hagain⟩
    rw [outputsOf, Ne, List.map_eq_nil_iff]
    exact hsomeBits

theorem decoders_take_iff (nDenom : Int) :
    ((getDenominationsBits nDenom).isSome = true ↔ nDenom < 16 ∧ nDenom % 16 ≠ 0) ∧
    ((getDenominationsToString nDenom ≠ "out-of-bounds" ∧ getDenominationsToString nDenom ≠ "non-denom") ↔
      nDenom < 16 ∧ nDenom % 16 ≠ 0) := by
  by_cases hlt : nDenom < 16
  · obtain ⟨k, hk⟩ : ∃ k : Fin 16, nDenom % 16 = (k : Int) := ⟨⟨(nDenom % 16).toNat, by omega⟩, by simp; omega⟩
    have hzero : nDenom % 16 ≠ 0 ↔ k ≠ 0 := by
      rw [hk, Ne, Ne, Fin.ext_iff]
      simp
    obtain ⟨hbits, htext, -⟩ := decoders_low k
    obtain ⟨hbits', htext'⟩ := decoders_mod hlt
    rw [hbits', htext', hzero, and_iff_right hlt, hk]
    exact ⟨hbits, htext⟩
  · have hge : nDenom ≥ 2 ^ vecPrivateSendDenominations.length := by
      show nDenom ≥ 2 ^ 4
      omega
    have hbits : getDenominationsBits nDenom = none := by
      unfold getDenominationsBits
      dsimp only
      rw [if_pos hge]
    have htext : getDenominationsToString nDenom = "out-of-bounds" := by
      unfold getDenominationsToString
      rw [if_pos hge]
    rw [hbits, htext]
    exact ⟨iff_of_false (fun h => by cases h) (fun h => hlt h.1), iff_of_false (fun h => h.1 rfl) (fun h => hlt h.1)⟩

theorem encode_bits {nDenom : Int} (h : IsDenomination nDenom) {vecBits : List Nat}
    (hbits : getDenominationsBits nDenom = some vecBits) : getDenominations (outputsOf vecBits) = nDenom := by
  obtain ⟨hpos, hlt⟩ := isDenomination_iff.1 h
  lift nDenom to Nat using hpos.le
  obtain ⟨-, -, hagain⟩ := decoders_low ⟨nDenom, by omega⟩
  have hagain := hagain (by rw [Ne, Fin.ext_iff]; show ¬ nDenom = 0; omega)
  rw [hbits, Option.getD_some] at hagain
  exact hagain

/-- Exactly these numbers are decoded right: those that are not negative, and those with no low bit. -/
theorem denominations_decoded_iff (nDenom : Int) : Decoded nDenom ↔ 0 ≤ nDenom ∨ nDenom % 16 = 0 := by
  obtain ⟨hbits, htext⟩ := decoders_take_iff nDenom
  have hsame : (nDenom < 16 ∧ nDenom % 16 ≠ 0 ↔ IsDenomination nDenom) ↔ 0 ≤ nDenom ∨ nDenom % 16 = 0 := by
    rw [isDenomination_iff]
    omega
  rw [← hsame]
  constructor
  · intro h
    exact hbits.symm.trans h.bits
  · intro h
    exact ⟨hbits.trans h, htext.trans h, fun hdenom vecBits hsome => encode_bits hdenom hsome⟩

/-- -1 stands for no outputs, and is taken for all four denominations. -/
theorem negative_denomination_taken : ¬ Decoded (-1) := by
  intro h
  have hdenom : IsDenomination (-1) := h.bits.1 (by decide)
  exact absurd (isDenomination_iff.1 hdenom).1 (by decide)

end Zumy.PrivateSend
