/-
  Zumy.Serialize.Compressor — compressor.h, compressor.cpp: the compact form of an output, in
  the coin database and in the undo files.

  Six kinds of scripts are kept as a byte below 6 and a hash or the first coordinate of a key;
  any other script is kept behind its length, which is counted from 6 on. What libsecp256k1
  does with a public key is a parameter. Lengths are not cut to 32 bits: a script of 2^32 bytes
  is not held in memory.
-/
import Zumy.Lib.Codec
import Zumy.Serialize.VarInt
import Zumy.Address

namespace Zumy

open Zumy.Lib

/-- `CVarInt` as a decoder. -/
def CVarInt.unserialize : Decoder UInt8 Int := readVarInt

theorem CVarInt.decodes {n : Int} (hn : 0 ≤ n) : Decodes CVarInt.unserialize (writeVarInt n) n := readVarInt_of_nonneg hn

theorem CVarInt.decodes_nat (n : Nat) : Decodes CVarInt.unserialize (writeVarInt n) n := CVarInt.decodes (Int.natCast_nonneg n)

theorem writeVarInt_of_small {n : Nat} (hn : n < 128) : writeVarInt n = [UInt8.ofNat n] := by
  have hmod : ((n : Int) % 128).toNat = n := by omega
  have hsmall : (n : Int) ≤ 0x7F := by omega
  rw [writeVarInt]
  cases hfuel : (n : Int).toNat <;> simp [varIntTmp, hmod, hsmall]

/-! ## Amounts -/

namespace CTxOutCompressor

/-- The loop over the powers of ten: what is left of `n` with the exponent, which is at most 9. -/
def stripZeros : Nat → Nat → Nat → Nat × Nat
  | 0, n, e => (n, e)
  | turns + 1, n, e => if n % 10 = 0 then stripZeros turns (n / 10) (e + 1) else (n, e)

def compressAmount (n : Nat) : Nat :=
  if n = 0 then 0
  else
    let (n, e) := stripZeros 9 n 0
    if e < 9 then
      let d := n % 10
      (1 + (n / 10 * 9 + d - 1) * 10 + e) % 2 ^ 64
    else (1 + (n - 1) * 10 + 9) % 2 ^ 64

def decompressAmount (x : Nat) : Nat :=
  if x = 0 then 0
  else
    let x := x - 1
    let e := x % 10
    let x := x / 10
    let n := if e < 9 then x / 9 * 10 + (x % 9 + 1) else x + 1
    n * 10 ^ e % 2 ^ 64

/-- The induction is on the turns: what is taken out of `n` is in the exponent. -/
theorem stripZeros_spec (turns n e : Nat) (hn : n ≠ 0) (m e' : Nat) (hstrip : stripZeros turns n e = (m, e')) :
    e ≤ e' ∧ e' ≤ e + turns ∧ m * 10 ^ (e' - e) = n ∧ (e' < e + turns → m % 10 ≠ 0) := by
  induction turns generalizing n e with
  | zero =>
    cases hstrip
    simp
  | succ turns ih =>
    by_cases hzero : n % 10 = 0
    · rw [stripZeros, if_pos hzero] at hstrip
      obtain ⟨hlow, hhigh, hprod, hlast⟩ := ih (n / 10) (e + 1) (by omega) hstrip
      have hexp : e' - e = e' - (e + 1) + 1 := by omega
      refine ⟨by omega, by omega, ?_, fun h => hlast (by omega)⟩
      calc m * 10 ^ (e' - e) = m * 10 ^ (e' - (e + 1)) * 10 := by rw [hexp, Nat.pow_succ, Nat.mul_assoc]
        _ = n / 10 * 10 := by rw [hprod]
        _ = n := by omega
    · rw [stripZeros, if_neg hzero] at hstrip
      cases hstrip
      exact ⟨Nat.le_refl _, by omega, by simp, fun _ => hzero⟩

theorem decompressAmount_compressAmount {n : Nat} (hn : (n : Int) ≤ maxMoney) : decompressAmount (compressAmount n) = n := by
  have hmax : n ≤ 1261440000000000 := by
    unfold maxMoney at hn
    omega
  unfold compressAmount
  split
  · next hzero => simp [decompressAmount, hzero]
  · next hne =>
    obtain ⟨m, e, hstrip⟩ : ∃ m e, stripZeros 9 n 0 = (m, e) := ⟨_, _, rfl⟩
    obtain ⟨-, he, hprod, hlast⟩ := stripZeros_spec 9 n 0 hne m e hstrip
    rw [Nat.sub_zero] at hprod
    have hm : m ≠ 0 := by
      rintro rfl
      omega
    have hle : m ≤ n := by
      rw [← hprod]
      exact Nat.le_mul_of_pos_right m (Nat.pow_pos (by decide))
    have hback : ∀ x, x % 10 = e → (if e < 9 then x / 10 / 9 * 10 + (x / 10 % 9 + 1) else x / 10 + 1) = m →
        decompressAmount (1 + x) = n := by
      intro x hx hm
      have hsub : 1 + x - 1 = x := by omega
      simp only [decompressAmount, hsub, hx, hm, hprod]
      rw [if_neg (by omega), Nat.mod_eq_of_lt (by omega)]
    rw [hstrip]
    dsimp only
    split
    · next hlt =>
      have hdigit : m % 10 ≠ 0 := hlast (by omega)
      rw [Nat.mod_eq_of_lt (by omega), Nat.add_assoc]
      exact hback _ (by omega) (by rw [if_pos hlt]; omega)
    · next hge =>
      have hnine : e = 9 := by omega
      rw [Nat.mod_eq_of_lt (by omega), Nat.add_assoc]
      exact hback _ (by omega) (by rw [if_neg hge]; omega)

example : compressAmount 50 = 42 ∧ decompressAmount 42 = 50 := by decide

end CTxOutCompressor

/-! ## Scripts -/

structure PubKeys where
  isFullyValid : CPubKey → Bool
  /-- `Decompress`: the key of 65 bytes, unless there is none. -/
  decompress : CPubKey → Option CPubKey

def CPubKey.x (pubkey : CPubKey) : List UInt8 := (pubkey.drop 1).take 32

/-- A key of 65 bytes comes back from its first coordinate and the parity of its second. -/
def PubKeys.Restores (keys : PubKeys) : Prop :=
  ∀ pubkey : CPubKey, pubkey.length = 65 → pubkey[0]? = some 4 → keys.isFullyValid pubkey = true →
    keys.decompress ((2 ||| (pubkey.getD 64 0 &&& 1)) :: CPubKey.x pubkey) = some pubkey

namespace CScriptCompressor

def nSpecialScripts : Nat := 6

def isToKeyID (script : CScript) : Option (List UInt8) :=
  if script.length = 25 ∧ script[0]? = some opDup ∧ script[1]? = some opHash160 ∧ script[2]? = some 20 ∧
      script[23]? = some opEqualVerify ∧ script[24]? = some opCheckSig then some ((script.drop 3).take 20)
  else none

def isToScriptID (script : CScript) : Option (List UInt8) :=
  if script.length = 23 ∧ script[0]? = some opHash160 ∧ script[1]? = some 20 ∧ script[22]? = some opEqual then
    some ((script.drop 2).take 20)
  else none

def isToPubKey (keys : PubKeys) (script : CScript) : Option CPubKey :=
  if script.length = 35 ∧ script[0]? = some 33 ∧ script[34]? = some opCheckSig ∧ (script[1]? = some 2 ∨ script[1]? = some 3) then
    some ((script.drop 1).take 33)
  else if script.length = 67 ∧ script[0]? = some 65 ∧ script[66]? = some opCheckSig ∧ script[1]? = some 4 then
    let pubkey := (script.drop 1).take 65
    -- a key that is not fully valid would not come back
    if keys.isFullyValid pubkey then some pubkey else none
  else none

def compress (keys : PubKeys) (script : CScript) : Option (List UInt8) :=
  match isToKeyID script with
  | some keyID => some (0 :: keyID)
  | none =>
    match isToScriptID script with
    | some scriptID => some (1 :: scriptID)
    | none => (isToPubKey keys script).bind fun pubkey =>
      if pubkey[0]? = some 2 ∨ pubkey[0]? = some 3 then some (pubkey.getD 0 0 :: CPubKey.x pubkey)
      else if pubkey[0]? = some 4 then some ((4 ||| (pubkey.getD 64 0 &&& 1)) :: CPubKey.x pubkey)
      else none

def getSpecialSize (nSize : Nat) : Nat :=
  if nSize = 0 ∨ nSize = 1 then 20 else if nSize = 2 ∨ nSize = 3 ∨ nSize = 4 ∨ nSize = 5 then 32 else 0

def decompress (keys : PubKeys) (nSize : Nat) (vch : List UInt8) : CScript :=
  match nSize with
  | 0 => [opDup, opHash160, 20] ++ (vch ++ [opEqualVerify, opCheckSig])
  | 1 => [opHash160, 20] ++ (vch ++ [opEqual])
  | 2 | 3 => [33, UInt8.ofNat nSize] ++ (vch ++ [opCheckSig])
  | 4 | 5 =>
    match keys.decompress (UInt8.ofNat (nSize - 2) :: vch) with
    | none => []
    | some pubkey => [65] ++ (pubkey ++ [opCheckSig])
  | _ => []

def getSerializeSize (keys : PubKeys) (script : CScript) : Nat :=
  match compress keys script with
  | some compr => compr.length
  | none =>
    let nSize := script.length + nSpecialScripts
    script.length + getSizeOfVarInt nSize

def serialize (keys : PubKeys) (script : CScript) : List UInt8 :=
  match compress keys script with
  | some compr => compr
  | none =>
    let nSize := script.length + nSpecialScripts
    writeVarInt nSize ++ script

def unserialize (keys : PubKeys) : Decoder UInt8 CScript := do
  let nCode ← CVarInt.unserialize
  let nSize := nCode.toNat
  if nSize < nSpecialScripts then decompress keys nSize <$> Decoder.take (getSpecialSize nSize)
  else Decoder.take (nSize - nSpecialScripts)

/-- What a special form of `script` is: a byte below 6, and what brings the script back. -/
structure Special (keys : PubKeys) (script : CScript) (nSize : Nat) (vch : List UInt8) : Prop where
  special : nSize < nSpecialScripts
  size : vch.length = getSpecialSize nSize
  script : decompress keys nSize vch = script

variable {keys : PubKeys} {script : CScript} {compr : List UInt8}

theorem special_keyID {keyID : List UInt8} (h : isToKeyID script = some keyID) : Special keys script 0 keyID := by
  unfold isToKeyID at h
  split at h
  · next hform =>
    cases h
    obtain ⟨hlength, h0, h1, h2, h23, h24⟩ := hform
    refine ⟨by decide, by simp [getSpecialSize, hlength], ?_⟩
    refine (eq_framed [opDup, opHash160, 20] 20 [opEqualVerify, opCheckSig] hlength (fun i hi => ?_) fun i hi => ?_).symm
    · match i with
      | 0 => exact h0
      | 1 => exact h1
      | 2 => exact h2
    · match i with
      | 0 => exact h23
      | 1 => exact h24
  · cases h

theorem special_scriptID {scriptID : List UInt8} (h : isToScriptID script = some scriptID) : Special keys script 1 scriptID := by
  unfold isToScriptID at h
  split at h
  · next hform =>
    cases h
    obtain ⟨hlength, h0, h1, h22⟩ := hform
    refine ⟨by decide, by simp [getSpecialSize, hlength], ?_⟩
    refine (eq_framed [opHash160, 20] 20 [opEqual] hlength (fun i hi => ?_) fun i hi => ?_).symm
    · match i with
      | 0 => exact h0
      | 1 => exact h1
    · match i with
      | 0 => exact h22
  · cases h

theorem eq_pushed {n : Nat} {len : UInt8} (hlength : script.length = n + 2) (hhead : script[0]? = some len)
    (htail : script[n + 1]? = some opCheckSig) : script = [len] ++ ((script.drop 1).take n ++ [opCheckSig]) := by
  refine eq_framed [len] n [opCheckSig] ?_ (fun i hi => ?_) fun i hi => ?_
  · simp only [List.length_singleton]
    omega
  · match i with
    | 0 => exact hhead
  · match i with
    | 0 =>
      have hindex : [len].length + n + 0 = n + 1 := by simp only [List.length_singleton]; omega
      rw [hindex, htail]
      rfl

theorem isToPubKey_cases {pubkey : CPubKey} (h : isToPubKey keys script = some pubkey) :
    (pubkey.length = 33 ∧ (pubkey[0]? = some 2 ∨ pubkey[0]? = some 3) ∧ script = [33] ++ (pubkey ++ [opCheckSig])) ∨
    (pubkey.length = 65 ∧ pubkey[0]? = some 4 ∧ keys.isFullyValid pubkey = true ∧ script = [65] ++ (pubkey ++ [opCheckSig])) := by
  have hfirst : ∀ {n : Nat} {b : UInt8}, script[1]? = some b → ((script.drop 1).take (n + 1))[0]? = some b := by
    intro n b hb
    rw [List.getElem?_take_of_lt (Nat.succ_pos n), List.getElem?_drop, hb]
  unfold isToPubKey at h
  split at h
  · next hform =>
    cases h
    obtain ⟨hlength, h0, h34, h1⟩ := hform
    exact .inl ⟨by simp [hlength], h1.imp hfirst hfirst, eq_pushed hlength h0 h34⟩
  · split at h
    · next hform =>
      obtain ⟨hlength, h0, h66, h1⟩ := hform
      dsimp only at h
      split at h
      · next hvalid =>
        cases h
        exact .inr ⟨by simp [hlength], hfirst h1, hvalid, eq_pushed hlength h0 h66⟩
      · cases h
    · cases h

theorem eq_cons_x {pubkey : CPubKey} {header : UInt8} (hlength : pubkey.length = 33) (hfirst : pubkey[0]? = some header) :
    pubkey = header :: CPubKey.x pubkey := by
  match pubkey, hfirst with
  | b :: X, hfirst =>
    cases hfirst
    rw [List.length_cons] at hlength
    rw [CPubKey.x, List.drop_one, List.tail_cons, List.take_of_length_le (by omega)]

theorem parity_cases (b : UInt8) : b &&& 1 = 0 ∨ b &&& 1 = 1 := by
  have hmod : (b &&& 1).toNat = b.toNat % 2 := by rw [UInt8.toNat_and, UInt8.toNat_one, Nat.and_one_is_mod]
  rcases Nat.mod_two_eq_zero_or_one b.toNat with h | h
  · exact .inl (UInt8.toNat_inj.1 (by rw [hmod, h, UInt8.toNat_zero]))
  · exact .inr (UInt8.toNat_inj.1 (by rw [hmod, h, UInt8.toNat_one]))

theorem special_short {pubkey : CPubKey} {nSize : Nat} (hsize : nSize = 2 ∨ nSize = 3) (hlength : pubkey.length = 33)
    (hfirst : pubkey[0]? = some (UInt8.ofNat nSize)) (hscript : script = [33] ++ (pubkey ++ [opCheckSig])) :
    Special keys script nSize (CPubKey.x pubkey) := by
  have hx : (CPubKey.x pubkey).length = 32 := by simp [CPubKey.x, hlength]
  have hkey := eq_cons_x hlength hfirst
  rw [hscript]
  rcases hsize with rfl | rfl
  · refine ⟨by decide, hx, ?_⟩
    conv_rhs => rw [hkey]
    rfl
  · refine ⟨by decide, hx, ?_⟩
    conv_rhs => rw [hkey]
    rfl

theorem special_full {pubkey : CPubKey} (hkeys : keys.Restores) (hlength : pubkey.length = 65) (hfirst : pubkey[0]? = some 4)
    (hvalid : keys.isFullyValid pubkey = true) (hscript : script = [65] ++ (pubkey ++ [opCheckSig])) :
    ∃ nSize, UInt8.ofNat nSize = 4 ||| (pubkey.getD 64 0 &&& 1) ∧ Special keys script nSize (CPubKey.x pubkey) := by
  have hx : (CPubKey.x pubkey).length = 32 := by simp [CPubKey.x, hlength]
  have hback := hkeys pubkey hlength hfirst hvalid
  rw [hscript]
  rcases parity_cases (pubkey.getD 64 0) with hparity | hparity
  · rw [hparity] at hback ⊢
    refine ⟨4, rfl, by decide, hx, ?_⟩
    have hheader : UInt8.ofNat (4 - 2) = 2 ||| 0 := rfl
    rw [decompress, hheader, hback]
  · rw [hparity] at hback ⊢
    refine ⟨5, rfl, by decide, hx, ?_⟩
    have hheader : UInt8.ofNat (5 - 2) = 2 ||| 1 := rfl
    rw [decompress, hheader, hback]

theorem special_of_compress (hkeys : keys.Restores) (h : compress keys script = some compr) :
    ∃ nSize vch, compr = UInt8.ofNat nSize :: vch ∧ Special keys script nSize vch := by
  unfold compress at h
  split at h
  · next keyID hkeyID =>
    cases h
    exact ⟨0, keyID, rfl, special_keyID hkeyID⟩
  · split at h
    · next scriptID hscriptID =>
      cases h
      exact ⟨1, scriptID, rfl, special_scriptID hscriptID⟩
    · obtain ⟨pubkey, hpubkey, h⟩ := Option.bind_eq_some_iff.1 h
      rcases isToPubKey_cases hpubkey with ⟨hlength, hfirst, hscript⟩ | ⟨hlength, hfirst, hvalid, hscript⟩
      · rw [if_pos hfirst] at h
        cases h
        rcases hfirst with hfirst | hfirst
        · exact ⟨2, _, by rw [List.getD_eq_getElem?_getD, hfirst]; rfl, special_short (.inl rfl) hlength hfirst hscript⟩
        · exact ⟨3, _, by rw [List.getD_eq_getElem?_getD, hfirst]; rfl, special_short (.inr rfl) hlength hfirst hscript⟩
      · have hlong : ¬ (pubkey[0]? = some 2 ∨ pubkey[0]? = some 3) := by rw [hfirst]; decide
        rw [if_neg hlong, if_pos hfirst] at h
        cases h
        obtain ⟨nSize, hparity, hspecial⟩ := special_full hkeys hlength hfirst hvalid hscript
        exact ⟨nSize, _, by rw [hparity], hspecial⟩

theorem length_serialize (keys : PubKeys) (script : CScript) : (serialize keys script).length = getSerializeSize keys script := by
  unfold serialize getSerializeSize
  cases compress keys script with
  | some compr => rfl
  | none =>
    dsimp only
    rw [List.length_append, length_writeVarInt, Nat.add_comm]

theorem decodes_script (hkeys : keys.Restores) (script : CScript) :
    Decodes (unserialize keys) (serialize keys script) script := by
  unfold serialize
  cases hcompr : compress keys script with
  | some compr =>
    obtain ⟨nSize, vch, rfl, hspecial⟩ := special_of_compress hkeys hcompr
    have hsmall : nSize < 6 := hspecial.special
    have hcode := CVarInt.decodes_nat nSize
    rw [writeVarInt_of_small (by omega)] at hcode
    show Decodes _ ([UInt8.ofNat nSize] ++ vch) script
    refine hcode.bind ?_
    rw [Int.toNat_natCast, if_pos hspecial.special]
    have hread := (decodes_take hspecial.size).map (decompress keys nSize)
    rwa [hspecial.script] at hread
  | none =>
    have hcode := CVarInt.decodes_nat (script.length + nSpecialScripts)
    refine hcode.bind ?_
    rw [Int.toNat_natCast, if_neg (by omega), Nat.add_sub_cancel]
    exact decodes_take rfl

end CScriptCompressor

/-! ## Outputs -/

namespace CTxOutCompressor

def serialize (keys : PubKeys) (txout : CTxOut) : List UInt8 :=
  let nVal := compressAmount (txout.nValue % 2 ^ 64).toNat
  writeVarInt nVal ++ CScriptCompressor.serialize keys txout.scriptPubKey

/-- `GetSerializeSize` of the pass that only counts. -/
def getSerializeSize (keys : PubKeys) (txout : CTxOut) : Nat :=
  let nVal := compressAmount (txout.nValue % 2 ^ 64).toNat
  getSizeOfVarInt nVal + CScriptCompressor.getSerializeSize keys txout.scriptPubKey

def unserialize (keys : PubKeys) : Decoder UInt8 CTxOut := do
  let nVal ← CVarInt.unserialize
  let scriptPubKey ← CScriptCompressor.unserialize keys
  return ⟨decompressAmount nVal.toNat, scriptPubKey⟩

theorem length_serialize (keys : PubKeys) (txout : CTxOut) : (serialize keys txout).length = getSerializeSize keys txout := by
  rw [serialize, getSerializeSize, List.length_append, length_writeVarInt, CScriptCompressor.length_serialize]

theorem decodes_txout {keys : PubKeys} (hkeys : keys.Restores) {txout : CTxOut} (hmoney : moneyRange txout.nValue = true) :
    Decodes (unserialize keys) (serialize keys txout) txout := by
  obtain ⟨hnonneg, hmax⟩ := moneyRange_iff.1 hmoney
  have hfits : txout.nValue % 2 ^ 64 = txout.nValue := by
    refine Int.emod_eq_of_lt hnonneg (lt_of_le_of_lt hmax ?_)
    decide
  have hamount : decompressAmount (compressAmount (txout.nValue % 2 ^ 64).toNat) = txout.nValue.toNat := by
    rw [hfits]
    apply decompressAmount_compressAmount
    rwa [Int.toNat_of_nonneg hnonneg]
  refine (CVarInt.decodes_nat _).bind ?_
  rw [Int.toNat_natCast, hamount, Int.toNat_of_nonneg hnonneg]
  exact (CScriptCompressor.decodes_script hkeys txout.scriptPubKey).map (CTxOut.mk txout.nValue)

end CTxOutCompressor

end Zumy
