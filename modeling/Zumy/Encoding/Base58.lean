/-
  Zumy.Encoding.Base58 — base58.cpp: `EncodeBase58` and `DecodeBase58`.

  Both convert in place, in a buffer whose size is estimated and kept in an `int`; leading
  zeros are counted in an `int`. A call refuses, or ends with undefined behaviour
  (`overflow`), with an exception of the vector's constructor (`length_error`) or with the
  failed assertion on the carry.

  - `encodeBase58_eq`, `encodeBase58_error`: the conversion, when the sizes fit an `int`; else none.
  - `decodePsz_eq`, `eq_of_decodePsz`: what a call accepts, and with which result.
  - `sizeSuffices_iff`: the estimate suffices for every text of a length whose estimate fits.
-/
import Mathlib.Data.List.DropRight
import Mathlib.Data.List.GetD
import Zumy.Lib.Radix

namespace Zumy.Encoding.Base58

open Zumy.Lib

inductive Failure
  | refused
  | overflow
  | length_error
  | assertion
  deriving DecidableEq

abbrev Outcome := Except Failure

/-- The conversion to `int` -/
def int32 (n : Nat) : Int := Int.bmod n (2 ^ 32)

/-- A count kept in an `int` -/
def count (n : Nat) : Outcome Nat := if n < 2 ^ 31 then .ok n else .error .overflow

/-- `std::vector<unsigned char>(size)`: a negative size is beyond every vector's. -/
def newVector (size : Int) : Outcome Buffer := if size < 0 then .error .length_error else .ok (Buffer.empty size.toNat)

/-- `assert(carry == 0)` -/
def asserted {α : Type} (x : Option α) : Outcome α :=
  match x with
  | some a => .ok a
  | none => .error .assertion

def pszBase58 : List Char := "123456789ABCDEFGHJKLMNPQRSTUVWXYZabcdefghijkmnopqrstuvwxyz".toList

def charAt (digit : Nat) : Char := pszBase58.getD digit '1'

def strchr (c : Char) : Option Nat := if c ∈ pszBase58 then some (pszBase58.idxOf c) else none

def isspace (c : Char) : Bool := c = ' ' || ('\t' ≤ c && c ≤ '\r')

def encodeBase58 (v : List UInt8) : Outcome (List Char) := do
  let zeroes ← count (v.takeWhile (· = 0)).length
  let bytes := v.dropWhile (· = 0)
  let b58 ← newVector (int32 (bytes.length * 138 / 100 + 1))
  let b58 ← asserted (convertAll 58 256 b58 (bytes.map UInt8.toNat))
  return List.replicate zeroes '1' ++ b58.significant.map charAt

/-- The loop over the characters, up to a space: the buffer, and the text behind it -/
def decodeChars : Buffer → List Char → Outcome (Buffer × List Char)
  | b256, [] => .ok (b256, [])
  | b256, c :: psz =>
    if isspace c then .ok (b256, c :: psz)
    else
      match strchr c with
      | none => .error .refused
      | some digit => asserted (mulAdd 256 58 b256 digit) >>= fun b256 => decodeChars b256 psz

/-- `psz` is what stands in front of the NUL. -/
def decodePsz (psz : List Char) : Outcome (List UInt8) := do
  let psz := psz.dropWhile isspace
  let zeroes ← count (psz.takeWhile (· = '1')).length
  let psz := psz.dropWhile (· = '1')
  let b256 ← newVector (int32 (psz.length * 733 / 1000 + 1))
  let r ← decodeChars b256 psz
  if r.2.dropWhile isspace = [] then return List.replicate zeroes 0 ++ r.1.significant.map UInt8.ofNat
  else .error .refused

def decodeBase58 (str : List Char) : Outcome (List UInt8) := decodePsz (str.takeWhile (· ≠ '\x00'))

/-! ## The alphabet -/

theorem strchr_eq_some {c : Char} {i : Nat} : strchr c = some i ↔ i < 58 ∧ charAt i = c := by
  have hnodup : pszBase58.Nodup := by decide
  have hlength : pszBase58.length = 58 := by decide
  unfold strchr charAt
  constructor
  · intro h
    split at h
    · rename_i hc
      cases h
      have hlt : pszBase58.idxOf c < pszBase58.length := List.idxOf_lt_length_iff.2 hc
      refine ⟨hlength ▸ hlt, ?_⟩
      rw [List.getD_eq_getElem _ _ hlt]
      exact List.getElem_idxOf hlt
    · cases h
  · intro h
    obtain ⟨hi, rfl⟩ := h
    have hlt : i < pszBase58.length := hlength.symm ▸ hi
    rw [List.getD_eq_getElem _ _ hlt, if_pos (List.getElem_mem hlt), hnodup.idxOf_getElem i hlt]

theorem isspace_charAt {i : Nat} (h : i < 58) : isspace (charAt i) = false := by
  have hall : ∀ i < 58, isspace (charAt i) = false := by decide
  exact hall i h

theorem charAt_ne_nul {i : Nat} (h : i < 58) : charAt i ≠ '\x00' := by
  have hall : ∀ i < 58, charAt i ≠ '\x00' := by decide
  exact hall i h

theorem charAt_eq_one_iff {i : Nat} (h : i < 58) : charAt i = '1' ↔ i = 0 := by
  have hall : ∀ i < 58, charAt i = '1' ↔ i = 0 := by decide
  exact hall i h

/-! ## Digits and bytes -/

theorem lt_of_mem_convert {source target d : Nat} {ds : List Nat} (htarget : 1 < target) (h : d ∈ convert source target ds) :
    d < target := by
  rcases List.mem_append.1 h with h | h
  · rw [eq_zero_of_mem_takeWhile h]
    omega
  · exact lt_of_mem_radixDigits htarget h

theorem toNat_lt (v : List UInt8) : ∀ d ∈ v.map UInt8.toNat, d < 256 := by
  intro d hd
  obtain ⟨b, -, rfl⟩ := List.mem_map.1 hd
  exact b.toNat_lt

theorem map_toNat_ofNat {ds : List Nat} (h : ∀ d ∈ ds, d < 256) : (ds.map UInt8.ofNat).map UInt8.toNat = ds := by
  rw [List.map_map]
  refine (List.map_congr_left fun d hd => ?_).trans (List.map_id ds)
  show (UInt8.ofNat d).toNat = d
  rw [UInt8.toNat_ofNat']
  exact Nat.mod_eq_of_lt (h d hd)

theorem map_ofNat_toNat (v : List UInt8) : (v.map UInt8.toNat).map UInt8.ofNat = v := by
  rw [List.map_map]
  refine (List.map_congr_left fun b _ => ?_).trans (List.map_id v)
  exact UInt8.ofNat_toNat

theorem byte_zero_iff (b : UInt8) : decide (b = 0) = decide (b.toNat = 0) :=
  decide_eq_decide.2 ⟨fun h => h ▸ rfl, fun h => UInt8.toNat_inj.1 h⟩

theorem takeWhile_bytes (v : List UInt8) : (v.map UInt8.toNat).takeWhile (· = 0) = (v.takeWhile (· = 0)).map UInt8.toNat := by
  rw [List.takeWhile_map]
  refine congrArg _ (congrArg (fun p => List.takeWhile p v) ?_)
  exact funext fun b => (byte_zero_iff b).symm

theorem dropWhile_bytes (v : List UInt8) : (v.map UInt8.toNat).dropWhile (· = 0) = (v.dropWhile (· = 0)).map UInt8.toNat := by
  rw [List.dropWhile_map]
  refine congrArg _ (congrArg (fun p => List.dropWhile p v) ?_)
  exact funext fun b => (byte_zero_iff b).symm

theorem radixValue_dropWhile {base : Nat} (ds : List Nat) : radixValue base (ds.dropWhile (· = 0)) = radixValue base ds := by
  have hsplit : ds.takeWhile (· = 0) ++ ds.dropWhile (· = 0) = ds := List.takeWhile_append_dropWhile
  conv_rhs => rw [← hsplit]
  exact (radixValue_zeros_append fun _ hz => eq_zero_of_mem_takeWhile hz).symm

theorem takeWhile_zero_eq (ds : List Nat) : ds.takeWhile (· = 0) = List.replicate (ds.takeWhile (· = 0)).length 0 :=
  List.eq_replicate_iff.2 ⟨rfl, fun _ hz => eq_zero_of_mem_takeWhile hz⟩

/-! ## Encoding -/

/-- The counts and the estimate of the call fit an `int`. -/
structure FitsInt (v : List UInt8) : Prop where
  zeroes : (v.takeWhile (· = 0)).length < 2 ^ 31
  size : (v.dropWhile (· = 0)).length * 138 / 100 + 1 < 2 ^ 31

theorem int32_eq {n : Nat} (h : n < 2 ^ 31) : int32 n = n := Int.bmod_eq_of_le (by omega) (by omega)

theorem newVector_int32 {n : Nat} (h : n < 2 ^ 31) : newVector (int32 n) = .ok (Buffer.empty n) := by
  rw [int32_eq h, newVector, if_neg (by omega), Int.toNat_natCast]

theorem ok_bind {α β : Type} {a : α} {f : α → Outcome β} : ((.ok a : Outcome α) >>= f) = f a := rfl

theorem exists_ok {α β : Type} {x : Outcome α} {f : α → Outcome β} {b : β} (h : x >>= f = .ok b) : ∃ a, x = .ok a ∧ f a = .ok b := by
  cases x with
  | error e => cases h
  | ok a => exact ⟨a, rfl, h⟩

theorem lt_of_count {n k : Nat} (h : count n = .ok k) : n < 2 ^ 31 ∧ n = k := by
  unfold count at h
  split at h
  · rename_i hlt
    cases h
    exact ⟨hlt, rfl⟩
  · cases h

theorem empty_of_newVector {size : Int} {b : Buffer} (h : newVector size = .ok b) : ∃ n, b = Buffer.empty n := by
  unfold newVector at h
  split at h
  · cases h
  · cases h
    exact ⟨_, rfl⟩

theorem estimate_encode (m : Nat) : 256 ^ m ≤ 58 ^ (m * 138 / 100 + 1) :=
  pow_le_pow_estimate (by decide) (by decide) (by norm_num)

theorem estimate_decode (n : Nat) : 58 ^ n ≤ 256 ^ (n * 733 / 1000 + 1) :=
  pow_le_pow_estimate (by decide) (by decide) (by decide +kernel)

/-- An estimate that does not fit comes out negative, or smaller by a multiple of `2 ^ 32`. -/
theorem int32_cases {n : Nat} (h : 2 ^ 31 ≤ n) : int32 n < 0 ∨ ∃ s : Nat, int32 n = s ∧ s < 2 ^ 31 ∧ s + 2 ^ 32 ≤ n := by
  by_cases hneg : int32 n < 0
  · exact Or.inl hneg
  · obtain ⟨s, hs⟩ := Int.eq_ofNat_of_zero_le (not_lt.1 hneg)
    have hbmod : Int.bmod (n : Int) (2 ^ 32) = s := hs
    have hlt := Int.bmod_lt (x := (n : Int)) (m := 2 ^ 32) (by decide)
    have hmod := Int.bmod_emod (x := (n : Int)) (m := 2 ^ 32)
    rw [hbmod] at hlt hmod
    have hle : s < 2 ^ 31 := by omega
    exact Or.inr ⟨s, hs, hle, by omega⟩

theorem encodeBase58_eq {v : List UInt8} (h : FitsInt v) :
    encodeBase58 v = .ok ((convert 256 58 (v.map UInt8.toNat)).map charAt) := by
  have hvalue : radixValue 256 ((v.dropWhile (· = 0)).map UInt8.toNat) = radixValue 256 (v.map UInt8.toNat) := by
    rw [← dropWhile_bytes, radixValue_dropWhile]
  have hlt : radixValue 256 ((v.dropWhile (· = 0)).map UInt8.toNat) < 58 ^ ((v.dropWhile (· = 0)).length * 138 / 100 + 1) := by
    have hlow := radixValue_lt (by decide : 1 < 256) (toNat_lt (v.dropWhile (· = 0)))
    rw [List.length_map] at hlow
    exact lt_of_lt_of_le hlow (estimate_encode _)
  obtain ⟨b, hb, hholds, -⟩ := (convertAll_eq (by decide : 1 < 58) (by decide : 0 < 256)).1 hlt
  unfold encodeBase58 count
  rw [if_pos h.zeroes, ok_bind]
  dsimp only
  rw [newVector_int32 h.size, ok_bind, hb]
  show Except.ok (List.replicate _ '1' ++ b.significant.map charAt) = _
  rw [hholds.significant_eq (by decide), hvalue, convert, List.map_append, takeWhile_bytes, ← takeWhile_bytes, takeWhile_zero_eq,
    takeWhile_bytes, List.length_map, List.map_replicate]
  rfl

theorem pow_le_pow_of_bits {a b i j m n : Nat} (ha : a ≤ 2 ^ i) (hb : 2 ^ j ≤ b) (h : i * m ≤ j * n) : a ^ m ≤ b ^ n :=
  calc a ^ m ≤ (2 ^ i) ^ m := Nat.pow_le_pow_left ha m
    _ = 2 ^ (i * m) := by rw [← pow_mul]
    _ ≤ 2 ^ (j * n) := Nat.pow_le_pow_right (by decide) h
    _ = (2 ^ j) ^ n := by rw [← pow_mul]
    _ ≤ b ^ n := Nat.pow_le_pow_left hb n

/-- Without the estimate in an `int`, the buffer cannot be made, or is too small. -/
theorem encodeBase58_error {v : List UInt8} (h : ¬ FitsInt v) (w : List Char) : encodeBase58 v ≠ .ok w := by
  intro hok
  unfold encodeBase58 count at hok
  by_cases hzeroes : (v.takeWhile (· = 0)).length < 2 ^ 31
  · have hsize : 2 ^ 31 ≤ (v.dropWhile (· = 0)).length * 138 / 100 + 1 := not_lt.1 fun hsize => h ⟨hzeroes, hsize⟩
    rw [if_pos hzeroes, ok_bind] at hok
    dsimp only at hok
    rcases int32_cases hsize with hneg | ⟨s, hs, hlt, hle⟩
    · rw [newVector, if_pos hneg] at hok
      cases hok
    · have hnone : convertAll 58 256 (Buffer.empty s) ((v.dropWhile (· = 0)).map UInt8.toNat) = none := by
        refine (convertAll_eq (by decide) (by decide)).2 ?_
        cases hbytes : v.dropWhile (· = 0) with
        | nil =>
          rw [hbytes] at hle
          simp at hle
        | cons b bytes =>
          rw [hbytes, List.length_cons] at hle
          have hb : b.toNat ≠ 0 := by
            intro hzero
            have hhead := List.head?_dropWhile_not (fun b : UInt8 => decide (b = 0)) v
            rw [hbytes] at hhead
            exact absurd (byte_zero_iff b ▸ decide_eq_true hzero) (by simpa using hhead)
          refine le_trans ?_ (pow_le_radixValue hb)
          rw [List.length_map]
          exact pow_le_pow_of_bits (by decide : 58 ≤ 2 ^ 6) (by decide : 2 ^ 8 ≤ 256) (by omega)
      rw [hs, newVector, if_neg (by omega), ok_bind, Int.toNat_natCast, hnone] at hok
      cases hok
  · rw [if_neg hzeroes] at hok
    cases hok

/-! ## Decoding -/

def trim (str : List Char) : List Char := (str.dropWhile isspace).rdropWhile isspace

structure Spells (psz : List Char) (ds : List Nat) : Prop where
  lt : ∀ d ∈ ds, d < 58
  text : ∃ spaces tail, (∀ c ∈ spaces, isspace c = true) ∧ (∀ c ∈ tail, isspace c = true) ∧ psz = spaces ++ (ds.map charAt ++ tail)

/-- The text that the estimate is for: what follows the spaces and the ones in front -/
def estimated (psz : List Char) : List Char := (psz.dropWhile isspace).dropWhile (· = '1')

theorem dropWhile_isspace {ds : List Nat} {spaces tail : List Char} (hds : ∀ d ∈ ds, d < 58)
    (hspaces : ∀ c ∈ spaces, isspace c = true) (htail : ∀ c ∈ tail, isspace c = true) :
    (spaces ++ (ds.map charAt ++ tail)).dropWhile isspace = if ds = [] then [] else ds.map charAt ++ tail := by
  rw [List.dropWhile_append_of_pos hspaces]
  cases ds with
  | nil =>
    rw [if_pos rfl]
    exact List.dropWhile_eq_nil_iff.2 htail
  | cons d ds =>
    have hd : ¬ isspace (charAt d) = true := by
      rw [isspace_charAt (hds d List.mem_cons_self)]
      exact Bool.false_ne_true
    rw [if_neg (List.cons_ne_nil d ds)]
    exact List.dropWhile_cons_of_neg hd

theorem Spells.trim_eq {psz : List Char} {ds : List Nat} (h : Spells psz ds) : trim psz = ds.map charAt := by
  obtain ⟨hlt, spaces, tail, hspaces, htail, rfl⟩ := h
  unfold trim
  rw [dropWhile_isspace hlt hspaces htail]
  by_cases hnil : ds = []
  · rw [if_pos hnil, hnil]
    rfl
  · rw [if_neg hnil, List.rdropWhile, List.reverse_append, List.dropWhile_append_of_pos fun c hc => htail c (List.mem_reverse.1 hc),
      ← List.map_reverse]
    have hnil' : ds.reverse ≠ [] := fun h => hnil (List.reverse_eq_nil_iff.1 h)
    cases hrev : ds.reverse with
    | nil => exact absurd hrev hnil'
    | cons d rest =>
      have hd : ¬ isspace (charAt d) = true := by
        rw [isspace_charAt (hlt d (List.mem_reverse.1 (hrev ▸ List.mem_cons_self)))]
        exact Bool.false_ne_true
      rw [List.map_cons, List.dropWhile_cons_of_neg hd, ← List.map_cons, ← hrev, ← List.map_reverse, List.reverse_reverse]

theorem decodeChars_map {ds : List Nat} {tail : List Char} {b : Buffer} (hds : ∀ d ∈ ds, d < 58)
    (htail : ∀ c ∈ tail.head?, isspace c = true) :
    decodeChars b (ds.map charAt ++ tail) = asserted (convertAll 256 58 b ds) >>= fun b => .ok (b, tail) := by
  induction ds generalizing b with
  | nil =>
    cases tail with
    | nil => rfl
    | cons c tail => exact if_pos (htail c rfl)
  | cons d ds ih =>
    have hd : d < 58 := hds d List.mem_cons_self
    have hchar : strchr (charAt d) = some d := strchr_eq_some.2 ⟨hd, rfl⟩
    rw [List.map_cons, List.cons_append, decodeChars, isspace_charAt hd, if_neg Bool.false_ne_true, hchar]
    unfold convertAll
    rw [List.foldlM_cons]
    show (asserted (mulAdd 256 58 b d) >>= fun b => decodeChars b (ds.map charAt ++ tail)) = _
    cases mulAdd 256 58 b d with
    | none => rfl
    | some b' => exact ih fun d hd => hds d (List.mem_cons_of_mem _ hd)

theorem text_of_decodeChars {psz rest : List Char} {b b' : Buffer} (h : decodeChars b psz = .ok (b', rest)) :
    ∃ ds : List Nat, (∀ d ∈ ds, d < 58) ∧ psz = ds.map charAt ++ rest := by
  induction psz generalizing b with
  | nil =>
    cases h
    exact ⟨[], by simp, rfl⟩
  | cons c psz ih =>
    unfold decodeChars at h
    split at h
    · cases h
      exact ⟨[], by simp, rfl⟩
    · split at h
      · cases h
      · rename_i digit hdigit
        obtain ⟨hlt, rfl⟩ := strchr_eq_some.1 hdigit
        cases hmul : mulAdd 256 58 b digit with
        | none =>
          rw [hmul] at h
          cases h
        | some b'' =>
          rw [hmul] at h
          obtain ⟨ds, hds, rfl⟩ := ih h
          exact ⟨digit :: ds, List.forall_mem_cons.2 ⟨hlt, hds⟩, rfl⟩

theorem map_charAt_zeros (k : Nat) : (List.replicate k 0).map charAt = List.replicate k '1' := List.map_replicate

theorem takeWhile_ones {ds : List Nat} {tail : List Char} (hds : ∀ d ∈ ds, d < 58) (htail : ∀ c ∈ tail, isspace c = true) :
    ((ds.map charAt ++ tail).takeWhile (· = '1')).length = (ds.takeWhile (· = 0)).length ∧
      (ds.map charAt ++ tail).dropWhile (· = '1') = (ds.dropWhile (· = 0)).map charAt ++ tail := by
  induction ds with
  | nil =>
    cases tail with
    | nil => exact ⟨rfl, rfl⟩
    | cons c tail =>
      have hc : c ≠ '1' := by
        intro hone
        have hspace := htail c List.mem_cons_self
        rw [hone] at hspace
        exact absurd hspace (by decide)
      rw [List.map_nil, List.nil_append, List.takeWhile_cons_of_neg (by simpa using hc), List.dropWhile_cons_of_neg (by simpa using hc)]
      exact ⟨rfl, rfl⟩
  | cons d ds ih =>
    have hone := charAt_eq_one_iff (hds d List.mem_cons_self)
    obtain ⟨hlen, hdrop⟩ := ih fun d hd => hds d (List.mem_cons_of_mem _ hd)
    rw [List.map_cons, List.cons_append]
    by_cases hd : d = 0
    · have hc : charAt d = '1' := hone.2 hd
      rw [List.takeWhile_cons_of_pos (by simpa using hc), List.dropWhile_cons_of_pos (by simpa using hc),
        List.takeWhile_cons_of_pos (by simpa using hd), List.dropWhile_cons_of_pos (by simpa using hd)]
      exact ⟨congrArg Nat.succ hlen, hdrop⟩
    · have hc : charAt d ≠ '1' := fun h => hd (hone.1 h)
      rw [List.takeWhile_cons_of_neg (by simpa using hc), List.dropWhile_cons_of_neg (by simpa using hc),
        List.takeWhile_cons_of_neg (by simpa using hd), List.dropWhile_cons_of_neg (by simpa using hd)]
      exact ⟨rfl, rfl⟩

theorem decodePsz_spells {psz : List Char} {ds : List Nat} (h : Spells psz ds) : decodePsz psz = (do
    let zeroes ← count (ds.takeWhile (· = 0)).length
    let b256 ← newVector (int32 ((estimated psz).length * 733 / 1000 + 1))
    let b256 ← asserted (convertAll 256 58 b256 (ds.dropWhile (· = 0)))
    return List.replicate zeroes 0 ++ b256.significant.map UInt8.ofNat) := by
  obtain ⟨hlt, spaces, tail, hspaces, htail, rfl⟩ := h
  have hrest : ∀ d ∈ ds.dropWhile (· = 0), d < 58 := fun d hd => hlt d ((List.dropWhile_suffix _).subset hd)
  unfold decodePsz estimated
  dsimp only
  rw [dropWhile_isspace hlt hspaces htail]
  by_cases hnil : ds = []
  · subst hnil
    rfl
  · obtain ⟨hlen, hdrop⟩ := takeWhile_ones hlt htail
    have hhead : ∀ c ∈ tail.head?, isspace c = true := fun c hc => htail c (List.mem_of_mem_head? hc)
    have htrail : tail.dropWhile isspace = [] := List.dropWhile_eq_nil_iff.2 htail
    rw [if_neg hnil, hlen, hdrop]
    refine congrArg _ (funext fun zeroes => congrArg _ (funext fun b256 => ?_))
    rw [decodeChars_map hrest hhead]
    cases convertAll 256 58 b256 (ds.dropWhile (· = 0)) with
    | none => rfl
    | some b => exact if_pos htrail

theorem spells_of_decodePsz {psz : List Char} {v : List UInt8} (h : decodePsz psz = .ok v) : ∃ ds, Spells psz ds := by
  have hspaces : psz.takeWhile isspace ++ psz.dropWhile isspace = psz := List.takeWhile_append_dropWhile
  have hones : (psz.dropWhile isspace).takeWhile (· = '1') ++ (psz.dropWhile isspace).dropWhile (· = '1') = psz.dropWhile isspace :=
    List.takeWhile_append_dropWhile
  have hreplicate : (psz.dropWhile isspace).takeWhile (· = '1') =
      List.replicate ((psz.dropWhile isspace).takeWhile (· = '1')).length '1' := by
    refine List.eq_replicate_iff.2 ⟨rfl, fun c hc => ?_⟩
    simpa using List.all_eq_true.1 List.all_takeWhile c hc
  unfold decodePsz at h
  dsimp only at h
  generalize ((psz.dropWhile isspace).takeWhile (· = '1')).length = z at h hreplicate
  generalize (psz.dropWhile isspace).dropWhile (· = '1') = text at h hones
  obtain ⟨zeroes, -, h⟩ := exists_ok h
  obtain ⟨b256, -, h⟩ := exists_ok h
  obtain ⟨r, hr, h⟩ := exists_ok h
  obtain ⟨ds, hds, htext⟩ : ∃ ds : List Nat, (∀ d ∈ ds, d < 58) ∧ text = ds.map charAt ++ r.2 := text_of_decodeChars hr
  split at h
  · rename_i htail
    refine ⟨List.replicate z 0 ++ ds, ?_, psz.takeWhile isspace, r.2, ?_, List.dropWhile_eq_nil_iff.1 htail, ?_⟩
    · intro d hd
      rcases List.mem_append.1 hd with hd | hd
      · rw [List.eq_of_mem_replicate hd]
        decide
      · exact hds d hd
    · exact fun c hc => List.all_eq_true.1 List.all_takeWhile c hc
    · rw [List.map_append, map_charAt_zeros, ← hreplicate, List.append_assoc, ← htext, hones, hspaces]
  · cases h

theorem estimated_spells {psz : List Char} {ds : List Nat} (h : Spells psz ds) : (ds.dropWhile (· = 0)).length ≤ (estimated psz).length := by
  obtain ⟨hlt, spaces, tail, hspaces, htail, rfl⟩ := h
  unfold estimated
  rw [dropWhile_isspace hlt hspaces htail]
  by_cases hnil : ds = []
  · subst hnil
    exact Nat.le_refl _
  · rw [if_neg hnil, (takeWhile_ones hlt htail).2, List.length_append, List.length_map]
    exact Nat.le_add_right _ _

theorem eq_of_decodePsz {psz : List Char} {ds : List Nat} {v : List UInt8} (h : Spells psz ds) (hv : decodePsz psz = .ok v) :
    (ds.takeWhile (· = 0)).length < 2 ^ 31 ∧ v = (convert 58 256 ds).map UInt8.ofNat := by
  rw [decodePsz_spells h] at hv
  obtain ⟨zeroes, hcount, hrest⟩ := exists_ok hv
  obtain ⟨b256, hvector, hloop⟩ := exists_ok hrest
  obtain ⟨b, hb, hresult⟩ := exists_ok hloop
  obtain ⟨hzeroes, rfl⟩ := lt_of_count hcount
  obtain ⟨size, rfl⟩ := empty_of_newVector hvector
  refine ⟨hzeroes, ?_⟩
  cases hall : convertAll 256 58 (Buffer.empty size) (ds.dropWhile (· = 0)) with
  | none =>
    rw [hall] at hb
    cases hb
  | some b' =>
    rw [hall] at hb
    cases hb
    cases hresult
    have hholds := holds_of_convertAll (by decide) (by decide) hall
    rw [radixValue_dropWhile] at hholds
    rw [hholds.significant_eq (by decide), convert, List.map_append, takeWhile_zero_eq, List.length_replicate, List.map_replicate]
    rfl

theorem decodePsz_eq {psz : List Char} {ds : List Nat} (h : Spells psz ds) (hzeroes : (ds.takeWhile (· = 0)).length < 2 ^ 31)
    (hsize : (estimated psz).length * 733 / 1000 + 1 < 2 ^ 31) : decodePsz psz = .ok ((convert 58 256 ds).map UInt8.ofNat) := by
  have hlt : radixValue 58 (ds.dropWhile (· = 0)) < 256 ^ ((estimated psz).length * 733 / 1000 + 1) := by
    have hdigits : ∀ d ∈ ds.dropWhile (· = 0), d < 58 := fun d hd => h.lt d ((List.dropWhile_suffix _).subset hd)
    calc radixValue 58 (ds.dropWhile (· = 0)) < 58 ^ (ds.dropWhile (· = 0)).length := radixValue_lt (by decide) hdigits
      _ ≤ 58 ^ (estimated psz).length := Nat.pow_le_pow_right (by decide) (estimated_spells h)
      _ ≤ _ := estimate_decode _
  obtain ⟨b, hb, -, -⟩ := (convertAll_eq (by decide : 1 < 256) (by decide : 0 < 58)).1 hlt
  have hok : ∃ v, decodePsz psz = .ok v := by
    rw [decodePsz_spells h, count, if_pos hzeroes, ok_bind, newVector_int32 hsize, ok_bind, hb]
    exact ⟨_, rfl⟩
  obtain ⟨v, hv⟩ := hok
  rw [hv, (eq_of_decodePsz h hv).2]

theorem estimated_map {ds : List Nat} (h : ∀ d ∈ ds, d < 58) : estimated (ds.map charAt) = (ds.dropWhile (· = 0)).map charAt := by
  have hspace : (ds.map charAt).dropWhile isspace = ds.map charAt := by
    cases ds with
    | nil => rfl
    | cons d ds =>
      refine List.dropWhile_cons_of_neg ?_
      rw [isspace_charAt (h d List.mem_cons_self)]
      exact Bool.false_ne_true
  have hones : (ds.map charAt ++ []).dropWhile (· = '1') = (ds.dropWhile (· = 0)).map charAt ++ [] := (takeWhile_ones h (by simp)).2
  rw [List.append_nil, List.append_nil] at hones
  rw [estimated, hspace, hones]

/-! ## Round trips -/

theorem spells_map {ds : List Nat} (h : ∀ d ∈ ds, d < 58) : Spells (ds.map charAt) ds :=
  ⟨h, [], [], by simp, by simp, (List.append_nil _).symm⟩

theorem decodeBase58_map {ds : List Nat} (h : ∀ d ∈ ds, d < 58) : decodeBase58 (ds.map charAt) = decodePsz (ds.map charAt) := by
  refine congrArg decodePsz (List.takeWhile_eq_self_iff.2 fun c hc => ?_)
  obtain ⟨d, hd, rfl⟩ := List.mem_map.1 hc
  exact decide_eq_true (charAt_ne_nul (h d hd))

theorem zeroes_convert (source : Nat) {target : Nat} (htarget : 1 < target) (ds : List Nat) :
    (convert source target ds).takeWhile (· = 0) = ds.takeWhile (· = 0) ∧
      (convert source target ds).dropWhile (· = 0) = radixDigits target (radixValue source ds) :=
  takeWhile_zero_append (fun _ hz => eq_zero_of_mem_takeWhile hz) (head_radixDigits htarget)

theorem decode_encode_iff (v : List UInt8) : (encodeBase58 v >>= decodeBase58) = .ok v ↔ FitsInt v := by
  constructor
  · intro h
    obtain ⟨w, hw, -⟩ := exists_ok h
    by_contra hfits
    exact encodeBase58_error hfits w hw
  · intro h
    have hlt : ∀ d ∈ convert 256 58 (v.map UInt8.toNat), d < 58 := fun d hd => lt_of_mem_convert (by decide) hd
    obtain ⟨htake, hdrop⟩ := zeroes_convert 256 (by decide : 1 < 58) (v.map UInt8.toNat)
    have hsize : ((convert 256 58 (v.map UInt8.toNat)).dropWhile (· = 0)).length ≤ (v.dropWhile (· = 0)).length * 138 / 100 + 1 := by
      rw [hdrop, length_radixDigits_le_iff (by decide), ← radixValue_dropWhile, dropWhile_bytes]
      have hlow := radixValue_lt (by decide : 1 < 256) (toNat_lt (v.dropWhile (· = 0)))
      rw [List.length_map] at hlow
      exact lt_of_lt_of_le hlow (estimate_encode _)
    have hfits := h.size
    rw [encodeBase58_eq h, ok_bind, decodeBase58_map hlt, decodePsz_eq (spells_map hlt), convert_convert (by decide) (by decide) (toNat_lt v),
      map_ofNat_toNat]
    · rw [htake, takeWhile_bytes, List.length_map]
      exact h.zeroes
    · rw [estimated_map hlt, List.length_map]
      omega

/-- As many significant bytes as the estimate of `EncodeBase58` fits an `int` for -/
def maxBytes : Nat := 1556147570

def spelled (str : List Char) : Nat := radixValue 58 ((trim str).map (pszBase58.idxOf ·))

theorem map_idxOf {ds : List Nat} (h : ∀ d ∈ ds, d < 58) : (ds.map charAt).map (pszBase58.idxOf ·) = ds := by
  rw [List.map_map]
  refine (List.map_congr_left fun d hd => ?_).trans (List.map_id ds)
  have hchar : strchr (charAt d) = some d := strchr_eq_some.2 ⟨h d hd, rfl⟩
  unfold strchr at hchar
  split at hchar
  · exact Option.some.inj hchar
  · cases hchar

theorem Spells.spelled_eq {psz : List Char} {ds : List Nat} (h : Spells psz ds) : spelled psz = radixValue 58 ds := by
  rw [spelled, h.trim_eq, map_idxOf h.lt]

theorem mem_trim {c : Char} {str : List Char} (hc : isspace c = false) (h : c ∈ str) : c ∈ trim str := by
  have hkeep : ∀ l : List Char, c ∈ l → c ∈ l.dropWhile isspace := by
    intro l hl
    rw [← List.takeWhile_append_dropWhile (p := isspace) (l := l)] at hl
    rcases List.mem_append.1 hl with htake | hdrop
    · rw [List.all_eq_true.1 List.all_takeWhile c htake] at hc
      cases hc
    · exact hdrop
  unfold trim List.rdropWhile
  exact List.mem_reverse.2 (hkeep _ (List.mem_reverse.2 (hkeep _ h)))

theorem fitsInt_bytes_iff {ds : List Nat} (hzeroes : (ds.takeWhile (· = 0)).length < 2 ^ 31) :
    FitsInt ((convert 58 256 ds).map UInt8.ofNat) ↔ radixValue 58 ds < 256 ^ maxBytes := by
  have hbytes : ((convert 58 256 ds).map UInt8.ofNat).map UInt8.toNat = convert 58 256 ds :=
    map_toNat_ofNat fun d hd => lt_of_mem_convert (by decide) hd
  obtain ⟨htake, hdrop⟩ := zeroes_convert 58 (by decide : 1 < 256) ds
  have htake' : (((convert 58 256 ds).map UInt8.ofNat).takeWhile (· = 0)).length = (ds.takeWhile (· = 0)).length := by
    rw [← htake, ← hbytes, takeWhile_bytes, List.length_map, hbytes]
  have hdrop' : (((convert 58 256 ds).map UInt8.ofNat).dropWhile (· = 0)).length = (radixDigits 256 (radixValue 58 ds)).length := by
    rw [← hdrop, ← hbytes, dropWhile_bytes, List.length_map, hbytes]
  rw [← length_radixDigits_le_iff (by decide), ← hdrop', maxBytes]
  constructor
  · intro h
    have hsize := h.size
    omega
  · intro h
    exact ⟨by rw [htake']; exact hzeroes, by omega⟩

theorem encode_decode_iff {str : List Char} {v : List UInt8} (h : decodeBase58 str = .ok v) :
    encodeBase58 v = .ok (trim str) ↔ '\x00' ∉ str ∧ spelled str < 256 ^ maxBytes := by
  obtain ⟨ds, hds⟩ := spells_of_decodePsz h
  obtain ⟨hzeroes, rfl⟩ := eq_of_decodePsz hds h
  have hencode : FitsInt ((convert 58 256 ds).map UInt8.ofNat) →
      encodeBase58 ((convert 58 256 ds).map UInt8.ofNat) = .ok (ds.map charAt) := by
    intro hfits
    rw [encodeBase58_eq hfits, map_toNat_ofNat fun d hd => lt_of_mem_convert (by decide) hd,
      convert_convert (by decide) (by decide) hds.lt]
  have hwhole : '\x00' ∉ str → str.takeWhile (· ≠ '\x00') = str := by
    intro hnul
    exact List.takeWhile_eq_self_iff.2 fun c hc => decide_eq_true fun hzero => hnul (hzero ▸ hc)
  constructor
  · intro hok
    have hfits : FitsInt ((convert 58 256 ds).map UInt8.ofNat) := by
      by_contra hfits
      exact encodeBase58_error hfits _ hok
    rw [hencode hfits] at hok
    have htext : ds.map charAt = trim str := Except.ok.inj hok
    have hnul : '\x00' ∉ str := by
      intro hnul
      have hmem := mem_trim (by decide) hnul
      rw [← htext] at hmem
      obtain ⟨d, hd, heq⟩ := List.mem_map.1 hmem
      exact charAt_ne_nul (hds.lt d hd) heq
    rw [hwhole hnul] at hds
    rw [hds.spelled_eq]
    exact ⟨hnul, (fitsInt_bytes_iff hzeroes).1 hfits⟩
  · intro hcond
    obtain ⟨hnul, hlt⟩ := hcond
    rw [hwhole hnul] at hds
    rw [hds.spelled_eq] at hlt
    rw [hencode ((fitsInt_bytes_iff hzeroes).2 hlt), hds.trim_eq]

/-! ## The assertion of `DecodeBase58` -/

/-- A buffer with room for all characters that follow: the loop can only refuse. -/
theorem decodeChars_room {psz : List Char} {b : Buffer} {n : Nat} (hb : b.Holds 256 n)
    (hroom : (n + 1) * 58 ^ psz.length ≤ 256 ^ b.digits.length) (e : Failure) (h : decodeChars b psz = .error e) : e = .refused := by
  induction psz generalizing b n with
  | nil => cases h
  | cons c psz ih =>
    unfold decodeChars at h
    split at h
    · cases h
    · split at h
      · cases h
        rfl
      · rename_i digit hdigit
        obtain ⟨hlt, -⟩ := strchr_eq_some.1 hdigit
        have hnext : (58 * n + digit + 1) * 58 ^ psz.length ≤ 256 ^ b.digits.length := by
          calc (58 * n + digit + 1) * 58 ^ psz.length ≤ ((n + 1) * 58) * 58 ^ psz.length := Nat.mul_le_mul_right _ (by omega)
            _ = (n + 1) * 58 ^ (c :: psz).length := by rw [List.length_cons, pow_succ', mul_assoc]
            _ ≤ _ := hroom
        have hfits : 58 * n + digit < 256 ^ b.digits.length := by
          have hpow : 1 ≤ 58 ^ psz.length := Nat.pow_pos (by decide)
          have hmul := Nat.mul_le_mul_left (58 * n + digit + 1) hpow
          omega
        obtain ⟨b', hb', hholds, hlen⟩ := (mulAdd_eq (by decide) hb).1 hfits
        rw [hb'] at h
        exact ih hholds (by rw [hlen]; exact hnext) h

def SizeSuffices (psz : List Char) : Prop := decodePsz psz ≠ .error .length_error ∧ decodePsz psz ≠ .error .assertion

theorem sizeSuffices {psz : List Char} (h : (estimated psz).length * 733 / 1000 + 1 < 2 ^ 31) : SizeSuffices psz := by
  have herror : ∀ e, decodePsz psz = .error e → e = .overflow ∨ e = .refused := by
    intro e he
    unfold decodePsz at he
    dsimp only at he
    rw [← estimated] at he
    by_cases hzeroes : ((psz.dropWhile isspace).takeWhile (· = '1')).length < 2 ^ 31
    · rw [count, if_pos hzeroes, ok_bind, newVector_int32 h, ok_bind] at he
      cases hloop : decodeChars (Buffer.empty ((estimated psz).length * 733 / 1000 + 1)) (estimated psz) with
      | error e' =>
        have hroom : (0 + 1) * 58 ^ (estimated psz).length ≤ 256 ^ (Buffer.empty ((estimated psz).length * 733 / 1000 + 1)).digits.length := by
          rw [Buffer.empty, List.length_replicate, Nat.zero_add, Nat.one_mul]
          exact estimate_decode _
        rw [hloop] at he
        cases he
        exact Or.inr (decodeChars_room (Buffer.holds_empty (by decide)) hroom e hloop)
      | ok r =>
        rw [hloop, ok_bind] at he
        split at he
        · cases he
        · cases he
          exact Or.inr rfl
    · rw [count, if_neg hzeroes] at he
      cases he
      exact Or.inl rfl
  constructor
  · intro he
    rcases herror _ he with h | h <;> cases h
  · intro he
    rcases herror _ he with h | h <;> cases h

/-- `n` times the last character -/
def largest (n : Nat) : List Nat := List.replicate n 57

theorem largest_lt (n : Nat) : ∀ d ∈ largest n, d < 58 := by
  intro d hd
  rw [List.eq_of_mem_replicate hd]
  decide

theorem largest_zeroes (n : Nat) : (largest n).takeWhile (· = 0) = [] ∧ (largest n).dropWhile (· = 0) = largest n := by
  cases n with
  | zero => exact ⟨rfl, rfl⟩
  | succ n => exact ⟨rfl, rfl⟩

theorem length_estimated_largest (n : Nat) : (estimated ((largest n).map charAt)).length = n := by
  rw [estimated_map (largest_lt n), (largest_zeroes n).2, List.length_map, largest, List.length_replicate]

theorem not_sizeSuffices_largest {n : Nat} (h : 2 ^ 31 ≤ n * 733 / 1000 + 1) : ¬ SizeSuffices ((largest n).map charAt) := by
  have hcount : count ([] : List Nat).length = .ok 0 := rfl
  have hcall := decodePsz_spells (spells_map (largest_lt n))
  rw [length_estimated_largest, (largest_zeroes n).1, (largest_zeroes n).2, hcount, ok_bind] at hcall
  intro hsuffices
  rcases int32_cases h with hneg | ⟨s, hs, hslt, hle⟩
  · rw [newVector, if_pos hneg] at hcall
    exact hsuffices.1 hcall
  · have hnone : convertAll 256 58 (Buffer.empty s) (largest n) = none := by
      obtain ⟨m, rfl⟩ : ∃ m, n = m + 1 := ⟨n - 1, by omega⟩
      refine (convertAll_eq (by decide) (by decide)).2 ?_
      rw [largest, List.replicate_succ]
      refine le_trans ?_ (pow_le_radixValue (by decide))
      rw [List.length_replicate]
      exact pow_le_pow_of_bits (by decide : 256 ≤ 2 ^ 8) (by decide : 2 ^ 5 ≤ 58) (by omega)
    rw [hs, newVector, if_neg (by omega), Int.toNat_natCast, ok_bind, hnone] at hcall
    exact hsuffices.2 hcall

theorem sizeSuffices_iff (n : Nat) : (∀ psz, (estimated psz).length = n → SizeSuffices psz) ↔ n * 733 / 1000 + 1 < 2 ^ 31 := by
  constructor
  · intro h
    by_contra hlarge
    exact not_sizeSuffices_largest (not_lt.1 hlarge) (h _ (length_estimated_largest n))
  · intro h psz hn
    exact sizeSuffices (hn ▸ h)

/-- The encoding of a vector, the round trips and the sizes: exactly when each is right -/
theorem base58_iff (v : List UInt8) (str : List Char) (n : Nat) :
    ((encodeBase58 v >>= decodeBase58) = .ok v ↔ FitsInt v) ∧
    (decodeBase58 str = .ok v → (encodeBase58 v = .ok (trim str) ↔ '\x00' ∉ str ∧ spelled str < 256 ^ maxBytes)) ∧
    ((∃ w, encodeBase58 v = .ok w) ↔ FitsInt v) ∧
    ((∀ psz, (estimated psz).length = n → SizeSuffices psz) ↔ n * 733 / 1000 + 1 < 2 ^ 31) := by
  refine ⟨decode_encode_iff v, encode_decode_iff, ?_, sizeSuffices_iff n⟩
  constructor
  · rintro ⟨w, hw⟩
    by_contra hfits
    exact encodeBase58_error hfits w hw
  · intro h
    exact ⟨_, encodeBase58_eq h⟩

/-- What follows a NUL is ignored: the text is accepted, and encoding its bytes does not give it back. -/
theorem nul_ignored : ¬ ∀ str v, decodeBase58 str = .ok v → encodeBase58 v = .ok (trim str) := by
  intro h
  have hcall : decodeBase58 ['1', '\x00', 'x'] = .ok [0] := by decide
  exact absurd (h _ _ hcall) (by decide)

end Zumy.Encoding.Base58
