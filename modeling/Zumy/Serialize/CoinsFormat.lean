/-
  Zumy.Serialize.CoinsFormat — coins.h, coins.cpp, undo.h: the unspent outputs of a transaction
  in the coin database, and an input in the undo files.

  The header of the coins says which of the first two outputs are there, and how many bytes
  that are not zero the mask of the others has: one less is written where neither of the two is
  there, since then there is one at least. The mask ends with its last byte that is not zero.
  A failed assertion ends the program: `none`. Sizes are not cut to 32 bits, but for the height
  in the undo files, whose bits are shifted.

  Coins come back as they were (`stored_coins_come_back`), and so does an input with a height. An input
  without a height comes back without its version, which is only written behind a height.
-/
import Zumy.Serialize.Compressor
import Zumy.Blocks.Model
import Zumy.Lib.Trim

namespace Zumy.Serialize

open Zumy.Lib Zumy.Coins Zumy.Blocks

/-! ## Coins -/

namespace CCoins

/-- Whether a byte of the mask has an output: not `fZero` behind the inner loop. -/
def used (c : CCoins) (b : Nat) : Bool := (List.range 8).any fun i => c.isAvailable (2 + b * 8 + i)

/-- The bytes of the mask up to the last with an output, and how many have one. The outer loop turns while
    `2 + b * 8` is an index. -/
def calcMaskSize (c : CCoins) : Nat × Nat :=
  (List.range ((c.vout.length + 5) / 8)).foldl
    (fun (nLastUsedByte, nNonzeroBytes) b => if used c b then (b + 1, nNonzeroBytes + 1) else (nLastUsedByte, nNonzeroBytes)) (0, 0)

def chAvail (c : CCoins) (b : Nat) : UInt8 := UInt8.ofNat (packBits 8 fun i => c.isAvailable (2 + b * 8 + i))

def nCode (c : CCoins) : Nat :=
  8 * ((calcMaskSize c).2 - if c.isAvailable 0 || c.isAvailable 1 then 0 else 1) + (if c.fCoinBase then 1 else 0) +
    (if c.isAvailable 0 then 2 else 0) + if c.isAvailable 1 then 4 else 0

def headed (c : CCoins) : Bool := c.isAvailable 0 || c.isAvailable 1 || (calcMaskSize c).2 != 0

def getSerializeSize (keys : PubKeys) (c : CCoins) : Option Nat :=
  if headed c then
    some (getSizeOfVarInt c.nVersion + getSizeOfVarInt (nCode c) + (calcMaskSize c).1 +
      (c.vout.map fun out => if out.isNull then 0 else CTxOutCompressor.getSerializeSize keys out).sum + getSizeOfVarInt c.nHeight)
  else none

def serialize (keys : PubKeys) (c : CCoins) : Option (List UInt8) :=
  if headed c then
    some (writeVarInt c.nVersion ++ (writeVarInt (nCode c) ++ ((List.range (calcMaskSize c).1).map (chAvail c) ++
      (c.vout.flatMap (fun out => if out.isNull then [] else CTxOutCompressor.serialize keys out) ++ writeVarInt c.nHeight))))
  else none

def bits (chAvail : UInt8) : List Bool := (List.range 8).map chAvail.toNat.testBit

/-- The loop over the mask, until `nMaskCode` bytes are read that are not zero. -/
def readMask : Nat → List UInt8 → Option (List Bool × List UInt8)
  | 0, is => some ([], is)
  | _ + 1, [] => none
  | nMaskCode + 1, chAvail :: is =>
    (readMask (if chAvail ≠ 0 then nMaskCode else nMaskCode + 1) is).map fun (vAvail, is) => (bits chAvail ++ vAvail, is)

def unserializeMask (nMaskCode : Nat) : Decoder UInt8 (List Bool) := readMask nMaskCode

def unserializeOut (keys : PubKeys) (avail : Bool) : Decoder UInt8 CTxOut :=
  if avail then CTxOutCompressor.unserialize keys else pure .null

def unserialize (keys : PubKeys) : Decoder UInt8 CCoins := do
  let nVersion ← CVarInt.unserialize
  let nCode := (← CVarInt.unserialize).toNat
  let fCoinBase := nCode.testBit 0
  let nMaskCode := nCode / 8 + if nCode.testBit 1 || nCode.testBit 2 then 0 else 1
  let mask ← unserializeMask nMaskCode
  let vAvail := [nCode.testBit 1, nCode.testBit 2] ++ mask
  let vout ← vAvail.mapM (unserializeOut keys)
  let nHeight ← CVarInt.unserialize
  return CCoins.cleanup ⟨fCoinBase, vout, nHeight, nVersion⟩

variable {c : CCoins}

/-! ### The mask -/

theorem toNat_chAvail (c : CCoins) (b : Nat) : (chAvail c b).toNat = packBits 8 fun i => c.isAvailable (2 + b * 8 + i) := by
  rw [chAvail, UInt8.toNat_ofNat', Nat.mod_eq_of_lt (packBits_lt 8 _)]

theorem bits_chAvail (c : CCoins) (b : Nat) : bits (chAvail c b) = (List.range 8).map fun i => c.isAvailable (2 + b * 8 + i) := by
  apply List.map_congr_left
  intro i hi
  rw [toNat_chAvail, testBit_packBits, decide_eq_true (List.mem_range.1 hi), Bool.true_and]

theorem used_iff {b : Nat} : used c b = true ↔ chAvail c b ≠ 0 := by
  rw [← not_iff_not, not_not, Bool.not_eq_true, ← UInt8.toNat_inj, toNat_chAvail, UInt8.toNat_zero, packBits_eq_zero_iff]
  simp only [used, List.any_eq_false, List.mem_range, Bool.not_eq_true]

/-- The outer loop after `turns` turns: the last byte with an output is the last that counts, and each is counted. -/
structure MaskSize (c : CCoins) (turns : Nat) (size : Nat × Nat) : Prop where
  le : size.1 ≤ turns
  unused : ∀ b, size.1 ≤ b → b < turns → used c b = false
  last : ∀ b, b + 1 = size.1 → used c b = true
  count : size.2 = (List.range size.1).countP (used c)

theorem maskSize_turns (c : CCoins) (turns : Nat) :
    MaskSize c turns ((List.range turns).foldl
      (fun (nLastUsedByte, nNonzeroBytes) b => if used c b then (b + 1, nNonzeroBytes + 1) else (nLastUsedByte, nNonzeroBytes)) (0, 0)) := by
  induction turns with
  | zero => exact ⟨Nat.le_refl 0, fun b _ hb => by omega, fun b hb => absurd hb (Nat.succ_ne_zero b), rfl⟩
  | succ turns ih =>
    rw [List.range_succ, List.foldl_append]
    generalize (List.range turns).foldl _ _ = size at ih ⊢
    obtain ⟨nLastUsedByte, nNonzeroBytes⟩ := size
    rw [List.foldl_cons, List.foldl_nil]
    dsimp only
    by_cases hused : used c turns = true
    · rw [if_pos hused]
      refine ⟨Nat.le_refl _, fun b hlow hhigh => ?_, fun b hb => ?_, ?_⟩
      · dsimp only at hlow
        omega
      · obtain rfl : b = turns := by simpa using hb
        exact hused
      · -- between the last byte that was used and this one, none counts
        have hle : nLastUsedByte ≤ turns := ih.le
        have hcount : nNonzeroBytes = (List.range nLastUsedByte).countP (used c) := ih.count
        have hbetween : (List.range turns).countP (used c) = (List.range nLastUsedByte).countP (used c) := by
          obtain ⟨more, rfl⟩ := Nat.exists_eq_add_of_le hle
          rw [List.range_add, List.countP_append, Nat.add_eq_left, List.countP_eq_zero]
          intro b hb
          obtain ⟨j, hj, rfl⟩ := List.mem_map.1 hb
          have hlt : j < more := List.mem_range.1 hj
          rw [ih.unused _ (Nat.le_add_right _ _) (by omega)]
          decide
        show nNonzeroBytes + 1 = (List.range (turns + 1)).countP (used c)
        rw [List.range_succ, List.countP_append, hbetween, ← hcount, List.countP_singleton, if_pos hused]
    · rw [if_neg hused]
      refine ⟨Nat.le_succ_of_le ih.le, fun b hlow hhigh => ?_, ih.last, ih.count⟩
      rcases Nat.lt_succ_iff_lt_or_eq.1 hhigh with hlt | rfl
      · exact ih.unused b hlow hlt
      · exact Bool.eq_false_iff.2 hused

theorem isAvailable_eq (c : CCoins) (i : Nat) : c.isAvailable i = !(entry .null c.vout i).isNull := by
  rw [CCoins.isAvailable, entry]
  cases c.vout[i]? with
  | none => rfl
  | some out => rfl

theorem isAvailable_behind {i : Nat} (hi : 2 + 8 * (calcMaskSize c).1 ≤ i) : c.isAvailable i = false := by
  have hsize := maskSize_turns c ((c.vout.length + 5) / 8)
  have hindex : 2 + (i - 2) / 8 * 8 + (i - 2) % 8 = i := by omega
  rcases Nat.lt_or_ge ((i - 2) / 8) ((c.vout.length + 5) / 8) with hlt | hge
  · have hunused := hsize.unused ((i - 2) / 8) (by rw [Nat.le_div_iff_mul_le (by decide)]; unfold calcMaskSize at hi; omega) hlt
    rw [used, List.any_eq_false] at hunused
    have hout := hunused ((i - 2) % 8) (List.mem_range.2 (Nat.mod_lt _ (by decide)))
    rwa [hindex, Bool.not_eq_true] at hout
  · have hlong : c.vout.length ≤ i := by omega
    rw [isAvailable_eq, entry_of_le hlong]
    rfl

theorem readMask_append (mask rest : List UInt8) (hlast : ∀ h : mask ≠ [], mask.getLast h ≠ 0) :
    readMask (mask.countP (· ≠ 0)) (mask ++ rest) = some (mask.flatMap bits, rest) := by
  induction mask with
  | nil => cases rest <;> rfl
  | cons chAvail mask ih =>
    have htail : ∀ h : mask ≠ [], mask.getLast h ≠ 0 := by
      intro h
      rw [← List.getLast_cons h]
      exact hlast _
    have hread : ∀ n, readMask (n + 1) (chAvail :: (mask ++ rest)) =
        (readMask (if chAvail ≠ 0 then n else n + 1) (mask ++ rest)).map fun (vAvail, is) => (bits chAvail ++ vAvail, is) :=
      fun _ => rfl
    rw [List.cons_append, List.flatMap_cons]
    by_cases hzero : chAvail = 0
    · -- a byte that is zero is not the last, so the count is not used up
      have hne : mask ≠ [] := by
        rintro rfl
        exact hlast (by simp) (by simpa using hzero)
      have hpos : 0 < mask.countP (· ≠ 0) := List.countP_pos_iff.2 ⟨_, List.getLast_mem hne, by simpa using htail hne⟩
      have hcount : (chAvail :: mask).countP (· ≠ 0) = mask.countP (· ≠ 0) := by simp [hzero]
      obtain ⟨n, hn⟩ := Nat.exists_eq_add_of_lt hpos
      rw [Nat.zero_add] at hn
      rw [hcount, hn, hread, if_neg (not_not.2 hzero), ← hn, ih htail]
      rfl
    · have hcount : (chAvail :: mask).countP (· ≠ 0) = mask.countP (· ≠ 0) + 1 := by simp [hzero]
      rw [hcount, hread, if_pos hzero, ih htail]
      rfl

theorem decodes_mask (c : CCoins) :
    Decodes (unserializeMask (calcMaskSize c).2) ((List.range (calcMaskSize c).1).map (chAvail c))
      (((List.range (calcMaskSize c).1).map (chAvail c)).flatMap bits) := by
  have hsize := maskSize_turns c ((c.vout.length + 5) / 8)
  have hcount : (calcMaskSize c).2 = ((List.range (calcMaskSize c).1).map (chAvail c)).countP (· ≠ 0) := by
    rw [List.countP_map]
    refine hsize.count.trans (List.countP_congr fun b _ => ?_)
    simp only [Function.comp_apply, ne_eq, decide_not, Bool.not_eq_true', decide_eq_false_iff_not]
    exact used_iff
  intro rest
  rw [hcount]
  refine readMask_append _ rest fun hne => ?_
  have hpos : (calcMaskSize c).1 ≠ 0 := by
    intro hzero
    exact hne (by rw [hzero]; rfl)
  rw [List.getLast_map, List.getLast_range]
  apply used_iff.1
  apply hsize.last
  show (calcMaskSize c).1 - 1 + 1 = (calcMaskSize c).1
  omega

theorem flatMap_range_mul {α : Type} (f : Nat → α) (k n : Nat) :
    (List.range n).flatMap (fun b => (List.range k).map fun i => f (b * k + i)) = (List.range (n * k)).map f := by
  induction n with
  | zero => simp
  | succ n ih =>
    rw [List.range_succ, List.flatMap_append, ih, Nat.succ_mul, List.range_add, List.map_append, List.map_map,
      List.flatMap_singleton]
    rfl

def readSize (c : CCoins) : Nat := 2 + (calcMaskSize c).1 * 8

theorem vAvail_eq (c : CCoins) :
    [c.isAvailable 0, c.isAvailable 1] ++ ((List.range (calcMaskSize c).1).map (chAvail c)).flatMap bits =
      (List.range (readSize c)).map c.isAvailable := by
  have hmask : ((List.range (calcMaskSize c).1).map (chAvail c)).flatMap bits =
      (List.range ((calcMaskSize c).1 * 8)).map fun i => c.isAvailable (2 + i) := by
    rw [List.flatMap_map, ← flatMap_range_mul]
    congr 1
    funext b
    rw [bits_chAvail]
    simp only [Nat.add_assoc]
  rw [hmask, readSize, List.range_add, List.map_append, List.map_map]
  rfl

/-! ### The outputs -/

def readOuts (c : CCoins) : List CTxOut := (List.range (readSize c)).map (entry .null c.vout)

def serializeOut (keys : PubKeys) (out : CTxOut) : List UInt8 := if out.isNull then [] else CTxOutCompressor.serialize keys out

/-- Coins that the database keeps: a spent output is null, and the last is not spent. -/
structure Storable (c : CCoins) : Prop where
  unpruned : c.isPruned = false
  nVersion : 0 ≤ c.nVersion
  nHeight : 0 ≤ c.nHeight
  outs : ∀ out ∈ c.vout, out = .null ∨ moneyRange out.nValue = true
  clean : c.cleanup = c

theorem Storable.trimmed (h : Storable c) : Trimmed CTxOut.isNull .null c.vout := by
  refine ⟨fun out hout hnull => ?_, congrArg CCoins.vout h.clean⟩
  rcases h.outs out hout with rfl | hmoney
  · rfl
  · rw [CTxOut.isNull, beq_iff_eq] at hnull
    rw [hnull] at hmoney
    exact absurd hmoney (by decide)

theorem Storable.entry_null (h : Storable c) {i : Nat} (hi : c.isAvailable i = false) : entry .null c.vout i = .null := by
  rw [isAvailable_eq, Bool.not_eq_false'] at hi
  rcases Nat.lt_or_ge i c.vout.length with hlt | hge
  · rw [entry_of_lt hlt] at hi ⊢
    exact h.trimmed.exact _ (List.getElem_mem hlt) hi
  · exact entry_of_le hge

theorem Storable.entry_readOuts (h : Storable c) : entry .null (readOuts c) = entry .null c.vout := by
  funext i
  rcases Nat.lt_or_ge i (readSize c) with hlt | hge
  · rw [entry_of_lt (by simpa [readOuts] using hlt)]
    simp [readOuts]
  · rw [entry_of_le (by simpa [readOuts] using hge), h.entry_null]
    apply isAvailable_behind
    rw [readSize] at hge
    omega

theorem Storable.cleanup_readOuts (h : Storable c) : (readOuts c).rdropWhile CTxOut.isNull = c.vout := by
  have hexact : Exact CTxOut.isNull .null (readOuts c) := by
    intro out hout hnull
    obtain ⟨i, -, rfl⟩ := List.mem_map.1 hout
    apply h.entry_null
    rw [isAvailable_eq, hnull]
    rfl
  refine Trimmed.ext rfl (trimmed_rdropWhile hexact) h.trimmed ?_
  rw [entry_rdropWhile hexact, h.entry_readOuts]

theorem flatMap_rdropWhile (keys : PubKeys) (outs : List CTxOut) :
    (outs.rdropWhile CTxOut.isNull).flatMap (serializeOut keys) = outs.flatMap (serializeOut keys) := by
  conv_rhs => rw [← List.rdropWhile_append_rtakeWhile (p := CTxOut.isNull) (l := outs), List.flatMap_append]
  have hnone : (outs.rtakeWhile CTxOut.isNull).flatMap (serializeOut keys) = [] := by
    rw [List.flatMap_eq_nil_iff]
    intro out hout
    rw [serializeOut, if_pos (List.mem_rtakeWhile_imp hout)]
  rw [hnone, List.append_nil]

theorem Storable.decodes_outs (h : Storable c) {keys : PubKeys} (hkeys : keys.Restores) :
    Decodes (((List.range (readSize c)).map c.isAvailable).mapM (unserializeOut keys)) (c.vout.flatMap (serializeOut keys))
      (readOuts c) := by
  have hbytes : c.vout.flatMap (serializeOut keys) = (List.range (readSize c)).flatMap fun i =>
    serializeOut keys (entry .null c.vout i) :=
    calc c.vout.flatMap (serializeOut keys)
      _ = ((readOuts c).rdropWhile CTxOut.isNull).flatMap (serializeOut keys) := by rw [h.cleanup_readOuts]
      _ = (readOuts c).flatMap (serializeOut keys) := flatMap_rdropWhile keys _
      _ = _ := by rw [readOuts, List.flatMap_map]
  rw [hbytes, List.mapM_map]
  refine decodes_mapM _ fun i _ => ?_
  have havail := isAvailable_eq c i
  rw [Function.comp_apply, unserializeOut, serializeOut, havail]
  by_cases hnull : (entry .null c.vout i).isNull = true
  · rw [if_pos hnull, h.entry_null (by rw [havail, hnull]; rfl)]
    exact decodes_pure _
  · have hin : i < c.vout.length := by
      by_contra hout
      rw [entry_of_le (Nat.le_of_not_lt hout)] at hnull
      exact hnull rfl
    rw [if_neg hnull, Bool.eq_false_iff.2 hnull]
    rw [entry_of_lt hin] at hnull ⊢
    refine CTxOutCompressor.decodes_txout hkeys ((h.outs _ (List.getElem_mem hin)).resolve_left fun hspent => ?_)
    rw [hspent] at hnull
    exact hnull rfl

/-! ### The header -/

theorem headed_of_unpruned (h : c.isPruned = false) : headed c = true := by
  obtain ⟨out, hout, hnull⟩ := List.all_eq_false.1 h
  obtain ⟨i, hi, rfl⟩ := List.getElem_of_mem hout
  have havail : c.isAvailable i = true := by
    rw [isAvailable_eq, entry_of_lt hi, Bool.eq_false_iff.2 hnull]
    rfl
  have hsize := maskSize_turns c ((c.vout.length + 5) / 8)
  rw [headed, Bool.or_eq_true, Bool.or_eq_true, bne_iff_ne]
  rcases Nat.lt_or_ge i 2 with hlow | hhigh
  · rcases Nat.le_one_iff_eq_zero_or_eq_one.1 (Nat.le_of_lt_succ hlow) with rfl | rfl
    · exact .inl (.inl havail)
    · exact .inl (.inr havail)
  · refine .inr (Nat.pos_iff_ne_zero.1 ?_)
    have hpos : (calcMaskSize c).1 ≠ 0 := by
      intro hzero
      rw [isAvailable_behind (by omega)] at havail
      cases havail
    have hlast : used c ((calcMaskSize c).1 - 1) = true := by
      apply hsize.last
      show (calcMaskSize c).1 - 1 + 1 = (calcMaskSize c).1
      omega
    have hcount : (calcMaskSize c).2 = (List.range (calcMaskSize c).1).countP (used c) := hsize.count
    rw [hcount, List.countP_pos_iff]
    exact ⟨_, List.mem_range.2 (by omega), hlast⟩

theorem flags_decode (m : Nat) (f0 f1 f2 : Bool) :
    let n := 8 * m + (if f0 then 1 else 0) + (if f1 then 2 else 0) + if f2 then 4 else 0
    n.testBit 0 = f0 ∧ n.testBit 1 = f1 ∧ n.testBit 2 = f2 ∧ n / 8 = m := by
  cases f0 <;> cases f1 <;> cases f2 <;>
    simp only [Nat.testBit_eq_decide_div_mod_eq, Bool.false_eq_true, if_false, if_true, decide_eq_true_eq, decide_eq_false_iff_not] <;>
    omega

/-- The header code holds the flag of a coinbase, the two first outputs and the count of the mask. -/
theorem nCode_decode (h : headed c = true) :
    (nCode c).testBit 0 = c.fCoinBase ∧ (nCode c).testBit 1 = c.isAvailable 0 ∧ (nCode c).testBit 2 = c.isAvailable 1 ∧
      (nCode c / 8 + if (nCode c).testBit 1 || (nCode c).testBit 2 then 0 else 1) = (calcMaskSize c).2 := by
  obtain ⟨hcoinbase, hfirst, hsecond, hmask⟩ :=
    flags_decode ((calcMaskSize c).2 - if c.isAvailable 0 || c.isAvailable 1 then 0 else 1) c.fCoinBase (c.isAvailable 0)
      (c.isAvailable 1)
  refine ⟨hcoinbase, hfirst, hsecond, ?_⟩
  rw [nCode, hmask, hfirst, hsecond]
  rw [headed, Bool.or_eq_true, bne_iff_ne] at h
  split
  · omega
  · next hneither =>
    have hsome := h.resolve_left hneither
    omega

theorem Storable.decodes (h : Storable c) {keys : PubKeys} (hkeys : keys.Restores) :
    ∃ bytes, serialize keys c = some bytes ∧ Decodes (unserialize keys) bytes c := by
  have hheaded := headed_of_unpruned h.unpruned
  obtain ⟨hcoinbase, hfirst, hsecond, hmask⟩ := nCode_decode hheaded
  refine ⟨_, by rw [serialize, if_pos hheaded], ?_⟩
  refine (CVarInt.decodes h.nVersion).bind ((CVarInt.decodes_nat _).bind ?_)
  rw [Int.toNat_natCast]
  dsimp only
  rw [hmask, hcoinbase, hfirst, hsecond]
  refine (decodes_mask c).bind ?_
  rw [vAvail_eq]
  refine (h.decodes_outs hkeys).bind ?_
  have hheight := (CVarInt.decodes h.nHeight).map fun nHeight => CCoins.cleanup ⟨c.fCoinBase, readOuts c, nHeight, c.nVersion⟩
  have hclean : CCoins.cleanup ⟨c.fCoinBase, readOuts c, c.nHeight, c.nVersion⟩ = c := by
    rw [CCoins.cleanup, h.cleanup_readOuts]
  rwa [hclean] at hheight

theorem getSerializeSize_eq (keys : PubKeys) (c : CCoins) : getSerializeSize keys c = (serialize keys c).map List.length := by
  unfold getSerializeSize serialize
  split
  · have houts : (c.vout.map fun out => if out.isNull then 0 else CTxOutCompressor.getSerializeSize keys out) =
        c.vout.map fun out => (serializeOut keys out).length := by
      refine List.map_congr_left fun out _ => ?_
      rw [serializeOut, ← CTxOutCompressor.length_serialize]
      split <;> rfl
    rw [houts, ← List.length_flatMap]
    show some _ = some (List.length (_ ++ (_ ++ (_ ++ (c.vout.flatMap (serializeOut keys) ++ _)))))
    simp only [List.length_append, length_writeVarInt, List.length_map, List.length_range, Nat.add_assoc]
  · rfl

end CCoins

/-! ## Inputs in the undo files -/

namespace CTxInUndo

def nCode (undo : CTxInUndo) : Nat := (undo.nHeight * 2 + if undo.fCoinBase then 1 else 0) % 2 ^ 32

def getSerializeSize (keys : PubKeys) (undo : CTxInUndo) : Nat :=
  getSizeOfVarInt (nCode undo) + (if 0 < undo.nHeight then getSizeOfVarInt undo.nVersion else 0) +
    CTxOutCompressor.getSerializeSize keys undo.txout

def serialize (keys : PubKeys) (undo : CTxInUndo) : List UInt8 :=
  writeVarInt (nCode undo) ++ ((if 0 < undo.nHeight then writeVarInt undo.nVersion else []) ++ CTxOutCompressor.serialize keys undo.txout)

/-- The version stands behind a height; otherwise it stays the 0 of an object that was just made. -/
def unserializeVersion (nHeight : Nat) : Decoder UInt8 Int := if 0 < nHeight then CVarInt.unserialize else pure 0

def unserialize (keys : PubKeys) : Decoder UInt8 CTxInUndo := do
  let nCode := (← CVarInt.unserialize).toNat
  let nHeight := nCode / 2
  let fCoinBase := nCode.testBit 0
  let nVersion ← unserializeVersion nHeight
  let txout ← CTxOutCompressor.unserialize keys
  return ⟨txout, fCoinBase, nHeight, nVersion⟩

/-- An input as it is kept: a height is an int, and the version belongs to it. -/
structure Storable (undo : CTxInUndo) : Prop where
  txout : moneyRange undo.txout.nValue = true
  nHeight : undo.nHeight < 2 ^ 31
  nVersion : 0 ≤ undo.nVersion
  unused : undo.nHeight = 0 → undo.nVersion = 0

variable {undo : CTxInUndo}

theorem Storable.nCode_eq (h : Storable undo) : nCode undo = undo.nHeight * 2 + if undo.fCoinBase then 1 else 0 := by
  have hheight := h.nHeight
  rw [nCode, Nat.mod_eq_of_lt]
  split <;> omega

theorem Storable.nCode_decode (h : Storable undo) : nCode undo / 2 = undo.nHeight ∧ (nCode undo).testBit 0 = undo.fCoinBase := by
  rw [h.nCode_eq, Nat.testBit_zero]
  cases undo.fCoinBase
  · simp
  · simp
    omega

theorem Storable.decodes (h : Storable undo) {keys : PubKeys} (hkeys : keys.Restores) :
    Decodes (unserialize keys) (serialize keys undo) undo := by
  obtain ⟨hheight, hcoinbase⟩ := h.nCode_decode
  refine (CVarInt.decodes_nat _).bind ?_
  rw [Int.toNat_natCast]
  dsimp only
  rw [hheight, hcoinbase]
  have hversion : Decodes (unserializeVersion undo.nHeight) (if 0 < undo.nHeight then writeVarInt undo.nVersion else [])
      undo.nVersion := by
    unfold unserializeVersion
    split
    · exact CVarInt.decodes h.nVersion
    · next hzero =>
      rw [h.unused (by omega)]
      exact decodes_pure 0
  refine hversion.bind ?_
  exact (CTxOutCompressor.decodes_txout hkeys h.txout).map fun txout =>
    CTxInUndo.mk txout undo.fCoinBase undo.nHeight undo.nVersion

theorem length_serialize (keys : PubKeys) (undo : CTxInUndo) : (serialize keys undo).length = getSerializeSize keys undo := by
  have hversion : (if 0 < undo.nHeight then writeVarInt undo.nVersion else []).length =
      if 0 < undo.nHeight then getSizeOfVarInt undo.nVersion else 0 := by
    split
    · exact length_writeVarInt _
    · rfl
  rw [serialize, getSerializeSize, List.length_append, List.length_append, length_writeVarInt, hversion,
    CTxOutCompressor.length_serialize,
    Nat.add_assoc]

end CTxInUndo

/-! ## Both come back -/

/-- Coins and inputs come back as they were, nothing of what follows is read, and the sizes are those of the bytes. -/
theorem stored_coins_come_back {keys : PubKeys} (hkeys : keys.Restores) :
    (∀ c : CCoins, CCoins.Storable c → ∃ bytes, CCoins.serialize keys c = some bytes ∧
      CCoins.getSerializeSize keys c = some bytes.length ∧ ∀ rest, CCoins.unserialize keys (bytes ++ rest) = some (c, rest)) ∧
    ∀ undo : CTxInUndo, CTxInUndo.Storable undo →
      CTxInUndo.getSerializeSize keys undo = (CTxInUndo.serialize keys undo).length ∧
      ∀ rest, CTxInUndo.unserialize keys (CTxInUndo.serialize keys undo ++ rest) = some (undo, rest) := by
  constructor
  · intro c h
    obtain ⟨bytes, hbytes, hdecodes⟩ := h.decodes hkeys
    refine ⟨bytes, hbytes, ?_, hdecodes⟩
    rw [CCoins.getSerializeSize_eq, hbytes, Option.map_some]
  · intro undo h
    exact ⟨(CTxInUndo.length_serialize keys undo).symm, h.decodes hkeys⟩

def generator : CPubKey :=
  [0x04, 0x79, 0xbe, 0x66, 0x7e, 0xf9, 0xdc, 0xbb, 0xac, 0x55, 0xa0, 0x62, 0x95, 0xce, 0x87, 0x0b, 0x07,
    0x02, 0x9b, 0xfc, 0xdb, 0x2d, 0xce, 0x28, 0xd9, 0x59, 0xf2, 0x81, 0x5b, 0x16, 0xf8, 0x17, 0x98,
    0x48, 0x3a, 0xda, 0x77, 0x26, 0xa3, 0xc4, 0x65, 0x5d, 0xa4, 0xfb, 0xfc, 0x0e, 0x11, 0x08, 0xa8,
    0xfd, 0x17, 0xb4, 0x48, 0xa6, 0x85, 0x54, 0x19, 0x9c, 0x47, 0xd0, 0x8f, 0xfb, 0x10, 0xd4, 0xb8]

def generatorKeys : PubKeys where
  isFullyValid pubkey := pubkey == generator
  decompress pubkey := if pubkey = 2 :: CPubKey.x generator then some generator else none

theorem generatorKeys_restores : generatorKeys.Restores := by
  intro pubkey _ _ hvalid
  rw [generatorKeys, beq_iff_eq] at hvalid
  rw [hvalid]
  decide

/-- Two outputs are left: the third pays the generator, the last a script of another form. -/
def sampleCoins : CCoins :=
  ⟨true, [.null, .null, ⟨234925952, [65] ++ generator ++ [opCheckSig]⟩] ++ List.replicate 8 .null ++ [⟨110397, [0x51]⟩], 120891, 1⟩

def sampleUndo : CTxInUndo := ⟨⟨50, [0x51]⟩, true, 7, 2⟩

theorem stored_coins_come_back_sample :
    (∃ bytes, CCoins.serialize generatorKeys sampleCoins = some bytes ∧
      CCoins.getSerializeSize generatorKeys sampleCoins = some bytes.length ∧
      ∀ rest, CCoins.unserialize generatorKeys (bytes ++ rest) = some (sampleCoins, rest)) ∧
    CTxInUndo.getSerializeSize generatorKeys sampleUndo = (CTxInUndo.serialize generatorKeys sampleUndo).length ∧
    ∀ rest, CTxInUndo.unserialize generatorKeys (CTxInUndo.serialize generatorKeys sampleUndo ++ rest) =
      some (sampleUndo, rest) :=
  ⟨(stored_coins_come_back generatorKeys_restores).1 sampleCoins ⟨by decide, by decide, by decide, by decide, by decide⟩,
    (stored_coins_come_back generatorKeys_restores).2 sampleUndo ⟨by decide, by decide, by decide, by decide⟩⟩

/-- Nothing is written of the version where there is no height, and the highest bit of a height is lost. -/
theorem version_or_height_is_lost :
    (¬ ∀ keys : PubKeys, keys.Restores → ∀ undo : CTxInUndo, moneyRange undo.txout.nValue = true → 0 ≤ undo.nVersion →
      undo.nHeight < 2 ^ 31 → CTxInUndo.unserialize keys (CTxInUndo.serialize keys undo) = some (undo, [])) ∧
    ¬ ∀ keys : PubKeys, keys.Restores → ∀ undo : CTxInUndo, moneyRange undo.txout.nValue = true → 0 ≤ undo.nVersion →
      0 < undo.nHeight → undo.nHeight < 2 ^ 32 →
        CTxInUndo.unserialize keys (CTxInUndo.serialize keys undo) = some (undo, []) := by
  constructor
  · intro h
    have hlost := h generatorKeys generatorKeys_restores ⟨⟨50, [0x51]⟩, false, 0, 5⟩ (by decide) (by decide) (by decide)
    revert hlost
    decide
  · intro h
    have hlost := h generatorKeys generatorKeys_restores ⟨⟨50, [0x51]⟩, false, 2 ^ 31, 1⟩ (by decide) (by decide)
        (by decide) (by decide)
    revert hlost
    decide

end Zumy.Serialize
