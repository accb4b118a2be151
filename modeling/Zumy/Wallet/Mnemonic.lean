/-
  Zumy.Wallet.Mnemonic — bip39.cpp: CMnemonic::FromData and CMnemonic::Check.

  A phrase is a string of bytes. `FromData` cuts the entropy and the first bits of its hash into
  numbers of eleven bits, and `Check` puts the bits of the words together again, in a buffer of
  33 bytes. Its counters are `uint32_t`; a write behind the buffer is `outOfBounds`. The hash is a
  parameter.
-/
import Mathlib.Data.List.Nodup
import Zumy.Lib.BitString
import Zumy.Wallet.Wordlist

namespace Zumy.Wallet

open Zumy.Lib

/-! ## FromData -/

/-- Eleven bits from `i * 11` on. -/
def wordIndex (bits : List UInt8) (i : Nat) : Nat := readBits (fun j => bitAt bits (i * 11 + j)) 11

def fromData (W : Wordlist) (sha256 : List UInt8 → Vector UInt8 32) (data : List UInt8) (len : Nat) : List UInt8 :=
  if len % 4 ≠ 0 ∨ len < 16 ∨ 32 < len then []
  else
    let bits := data.take len ++ [(sha256 (data.take len))[0]]
    let mlen := len * 3 / 4
    (List.range mlen).foldl (fun mnemonic i =>
      let mnemonic := mnemonic ++ W.words.getD (wordIndex bits i) []
      if i < mlen - 1 then mnemonic ++ [space] else mnemonic) []

/-! ## Check -/

inductive Stop where
  | returnsFalse
  | outOfBounds
  deriving DecidableEq, Repr

/-- The letters up to a space, and what is left with it; none at a tenth letter. -/
def readWord : List UInt8 → List UInt8 → Option (List UInt8 × List UInt8)
  | ssCurrentWord, [] => some (ssCurrentWord, [])
  | ssCurrentWord, c :: rest =>
    if c = space then some (ssCurrentWord, c :: rest)
    else if 9 ≤ ssCurrentWord.length then none
    else readWord (ssCurrentWord ++ [c]) rest

/-- `bits` and `nBitsCount`. -/
abbrev Packed := List UInt8 × Nat

def putBit (nWordIndex : Nat) (packed : Packed) (ki : Nat) : Except Stop Packed :=
  if nWordIndex.testBit (10 - ki) then
    if packed.2 / 8 < packed.1.length then .ok (setBit packed.1 packed.2, (packed.2 + 1) % 2 ^ 32)
    else .error .outOfBounds
  else .ok (packed.1, (packed.2 + 1) % 2 ^ 32)

def putIndex (packed : Packed) (nWordIndex : Nat) : Except Stop Packed :=
  (List.range 11).foldlM (putBit nWordIndex) packed

theorem length_of_readWord {cur l w after : List UInt8} (h : readWord cur l = some (w, after)) : after.length ≤ l.length := by
  induction l generalizing cur with
  | nil =>
    cases h
    exact Nat.le_refl _
  | cons c l ih =>
    rw [readWord] at h
    split at h
    · cases h
      exact Nat.le_refl _
    · split at h
      · cases h
      · exact (ih h).trans (Nat.le_succ _)

/-- The words from a place in the phrase on; the space behind each is passed over. -/
def checkLoop (W : Wordlist) (packed : Packed) : List UInt8 → Except Stop Packed
  | [] => .ok packed
  | c :: rest =>
    match _hread : readWord [] (c :: rest) with
    | none => .error .returnsFalse
    | some (ssCurrentWord, after) =>
      match W.words.idxOf? ssCurrentWord with
      | none => .error .returnsFalse
      | some nWordIndex => (putIndex packed nWordIndex).bind fun packed => checkLoop W packed after.tail
termination_by l => l.length
decreasing_by
  have hle := length_of_readWord _hread
  rw [List.length_tail]
  rw [List.length_cons] at hle ⊢
  omega

def compareBits (nWordCount : Nat) (digest last : UInt8) : Bool :=
  if nWordCount = 12 then digest &&& 0xF0 == last &&& 0xF0
  else if nWordCount = 18 then digest &&& 0xFC == last &&& 0xFC
  else if nWordCount = 24 then digest == last
  else false

def checkWords (W : Wordlist) (sha256 : List UInt8 → Vector UInt8 32) (nWordCount : Nat) (mnemonic : List UInt8) :
    Except Stop Bool := do
  let (bits, nBitsCount) ← checkLoop W (List.replicate 33 0, 0) mnemonic
  if nBitsCount ≠ nWordCount * 11 then return false
  return compareBits nWordCount (sha256 (bits.take (nWordCount * 4 / 3)))[0] (bits.getD (nWordCount * 4 / 3) 0)

/-- `none` where a word writes behind the buffer. -/
def check (W : Wordlist) (sha256 : List UInt8 → Vector UInt8 32) (mnemonic : List UInt8) : Option Bool :=
  let nWordCount := (mnemonic.count space + 1) % 2 ^ 32
  if mnemonic = [] then some false
  else if nWordCount ≠ 12 ∧ nWordCount ≠ 18 ∧ nWordCount ≠ 24 then some false
  else
    match checkWords W sha256 nWordCount mnemonic with
    | .error .returnsFalse => some false
    | .error .outOfBounds => none
    | .ok fResult => some fResult

/-! ## Phrases as words -/

variable {W : Wordlist} {sha256 : List UInt8 → Vector UInt8 32}

def Wordlist.word (W : Wordlist) (i : Nat) : List UInt8 := W.words.getD i []

def Wordlist.join (W : Wordlist) (is : List Nat) : List UInt8 := [space].intercalate (is.map W.word)

def Known (is : List Nat) : Prop := ∀ i ∈ is, i < 2048

theorem word_mem {i : Nat} (hi : i < 2048) : W.word i ∈ W.words := by
  rw [Wordlist.word, List.getD_eq_getElem?_getD, List.getElem?_eq_getElem (by rwa [W.length_words])]
  exact List.getElem_mem _

theorem idxOf?_word {i : Nat} (hi : i < 2048) : W.words.idxOf? (W.word i) = some i := by
  have hlt : i < W.words.length := by rwa [W.length_words]
  have hget : W.word i = W.words[i] := by
    rw [Wordlist.word, List.getD_eq_getElem?_getD, List.getElem?_eq_getElem hlt]
    rfl
  rw [List.idxOf?_eq_some_iff]
  refine ⟨hlt, hget.symm, fun j hj heq => ?_⟩
  have hji := (List.Nodup.getElem_inj_iff W.nodup_words).1 (heq.trans hget)
  omega

theorem word_of_idxOf? {w : List UInt8} {i : Nat} (h : W.words.idxOf? w = some i) : i < 2048 ∧ W.word i = w := by
  obtain ⟨hlt, hget, -⟩ := List.idxOf?_eq_some_iff.1 h
  refine ⟨by rwa [W.length_words] at hlt, ?_⟩
  rw [Wordlist.word, List.getD_eq_getElem?_getD, List.getElem?_eq_getElem hlt, Option.getD_some, hget]

def Behind (t : List UInt8) : Prop := t = [] ∨ ∃ t', t = space :: t'

theorem readWord_append {cur w t : List UInt8} (hw : space ∉ w) (hlen : cur.length + w.length ≤ 9)
    (ht : Behind t) : readWord cur (w ++ t) = some (cur ++ w, t) := by
  induction w generalizing cur with
  | nil =>
    rcases ht with rfl | ⟨t', rfl⟩
    · simp [readWord]
    · simp [readWord]
  | cons c w ih =>
    rw [List.mem_cons, not_or] at hw
    rw [List.length_cons] at hlen
    rw [List.cons_append, readWord, if_neg (Ne.symm hw.1), if_neg (by omega), ih hw.2 (by simp; omega)]
    simp

theorem of_readWord {cur l w after : List UInt8} (h : readWord cur l = some (w, after)) :
    ∃ w', w = cur ++ w' ∧ l = w' ++ after ∧ Behind after := by
  induction l generalizing cur with
  | nil =>
    cases h
    exact ⟨[], (List.append_nil _).symm, rfl, .inl rfl⟩
  | cons c l ih =>
    rw [readWord] at h
    split at h
    · rename_i hc
      cases h
      exact ⟨[], (List.append_nil _).symm, rfl, .inr ⟨l, by rw [hc]⟩⟩
    · split at h
      · cases h
      · obtain ⟨w', rfl, rfl, hafter⟩ := ih h
        exact ⟨c :: w', by simp, rfl, hafter⟩

theorem checkLoop_nil {packed : Packed} : checkLoop W packed [] = .ok packed := by rw [checkLoop]

theorem checkLoop_word {packed : Packed} {i : Nat} {t : List UInt8} (hi : i < 2048) (ht : Behind t) :
    checkLoop W packed (W.word i ++ t) = (putIndex packed i).bind fun packed => checkLoop W packed t.tail := by
  obtain ⟨hne, hlen, hspace⟩ := W.sound _ (word_mem hi)
  have hread : readWord [] (W.word i ++ t) = some (W.word i, t) := readWord_append hspace (by simpa using hlen) ht
  obtain ⟨c, w, hw⟩ := List.exists_cons_of_ne_nil hne
  rw [hw, List.cons_append] at hread ⊢
  rw [checkLoop]
  split
  · rename_i heq
    rw [hread] at heq
    cases heq
  · rename_i heq
    rw [hread] at heq
    cases heq
    rw [← hw, idxOf?_word hi]

theorem of_checkLoop {packed packed' : Packed} {l : List UInt8} (hne : l ≠ []) (h : checkLoop W packed l = .ok packed') :
    ∃ i t, i < 2048 ∧ Behind t ∧ l = W.word i ++ t := by
  obtain ⟨c, rest, rfl⟩ := List.exists_cons_of_ne_nil hne
  rw [checkLoop] at h
  split at h
  · cases h
  · rename_i w after hread
    obtain ⟨w', hw, hl, hafter⟩ := of_readWord hread
    rw [List.nil_append] at hw
    subst hw
    split at h
    · cases h
    · rename_i i hi
      obtain ⟨hlt, hword⟩ := word_of_idxOf? hi
      exact ⟨i, after, hlt, hafter, by rw [hword, hl]⟩

/-! ## The loop over a phrase -/

def putAll (packed : Packed) (is : List Nat) : Except Stop Packed := is.foldlM putIndex packed

theorem putAll_cons {packed : Packed} {i : Nat} {is : List Nat} :
    putAll packed (i :: is) = (putIndex packed i).bind fun packed => putAll packed is := rfl

theorem join_cons_cons {i j : Nat} {is : List Nat} : W.join (i :: j :: is) = W.word i ++ space :: W.join (j :: is) := by
  rw [Wordlist.join, List.map_cons, List.map_cons, List.intercalate_cons_cons]
  simp [Wordlist.join]

theorem checkLoop_join {packed : Packed} {is : List Nat} (hne : is ≠ []) (hknown : Known is) :
    checkLoop W packed (W.join is) = putAll packed is := by
  induction is generalizing packed with
  | nil => exact absurd rfl hne
  | cons i is ih =>
    have hi := hknown i (List.mem_cons_self ..)
    cases is with
    | nil =>
      have hword : checkLoop W packed (W.word i ++ []) = _ := checkLoop_word hi (.inl rfl)
      rw [List.append_nil] at hword
      rw [show W.join [i] = W.word i from List.intercalate_singleton, hword, putAll_cons]
      congr 1
      funext packed
      exact checkLoop_nil
    | cons j is =>
      rw [join_cons_cons, checkLoop_word hi (.inr ⟨_, rfl⟩), putAll_cons]
      congr 1
      funext packed
      exact ih (List.cons_ne_nil _ _) fun k hk => hknown k (List.mem_cons_of_mem _ hk)

/-- What the loop runs through is a row of words, with at most a space behind it. -/
theorem exists_join_of_checkLoop {packed packed' : Packed} {l : List UInt8} (hne : l ≠ [])
    (h : checkLoop W packed l = .ok packed') :
    ∃ is, is ≠ [] ∧ Known is ∧ (l = W.join is ∨ l = W.join is ++ [space]) ∧ putAll packed is = .ok packed' := by
  induction hlen : l.length using Nat.strong_induction_on generalizing l packed with
  | _ n ih =>
    subst hlen
    obtain ⟨i, t, hi, ht, rfl⟩ := of_checkLoop hne h
    have hone : Known [i] := fun k hk => by rwa [List.mem_singleton.1 hk]
    rw [checkLoop_word hi ht] at h
    cases hput : putIndex packed i with
    | error answer =>
      rw [hput] at h
      cases h
    | ok middle =>
      rw [hput] at h
      have hrun : checkLoop W middle t.tail = .ok packed' := h
      have hsingle : W.join [i] = W.word i := List.intercalate_singleton
      rcases ht with rfl | ⟨t', rfl⟩
      · rw [List.tail_nil, checkLoop_nil] at hrun
        refine ⟨[i], List.cons_ne_nil _ _, hone, .inl ?_, ?_⟩
        · rw [hsingle, List.append_nil]
        · rw [putAll_cons, hput]
          exact hrun
      · rw [List.tail_cons] at hrun
        by_cases ht' : t' = []
        · rw [ht', checkLoop_nil] at hrun
          refine ⟨[i], List.cons_ne_nil _ _, hone, .inr ?_, ?_⟩
          · rw [hsingle, ht']
          · rw [putAll_cons, hput]
            exact hrun
        · obtain ⟨is, hne', hknown, hl, hall⟩ := ih _ (by simp; omega) ht' hrun rfl
          refine ⟨i :: is, List.cons_ne_nil _ _, ?_, ?_, ?_⟩
          · intro k hk
            rcases List.mem_cons.1 hk with rfl | hk
            · exact hi
            · exact hknown k hk
          · obtain ⟨j, js, rfl⟩ := List.exists_cons_of_ne_nil hne'
            rcases hl with rfl | rfl
            · exact .inl join_cons_cons.symm
            · exact .inr (by rw [join_cons_cons, List.append_assoc, List.cons_append])
          · rw [putAll_cons, hput]
            exact hall

theorem count_join {is : List Nat} (hne : is ≠ []) (hknown : Known is) : (W.join is).count space + 1 = is.length := by
  induction is with
  | nil => exact absurd rfl hne
  | cons i is ih =>
    have hword : (W.word i).count space = 0 :=
      List.count_eq_zero.2 (W.sound _ (word_mem (hknown i (List.mem_cons_self ..)))).2.2
    cases is with
    | nil => rw [show W.join [i] = W.word i from List.intercalate_singleton, hword, List.length_singleton]
    | cons j is =>
      have hrest := ih (List.cons_ne_nil _ _) fun k hk => hknown k (List.mem_cons_of_mem _ hk)
      rw [join_cons_cons, List.count_append, hword, List.count_cons_self, hrest, Nat.zero_add]
      rfl

theorem join_ne_nil {is : List Nat} (hne : is ≠ []) (hknown : Known is) : W.join is ≠ [] := by
  obtain ⟨i, is, rfl⟩ := List.exists_cons_of_ne_nil hne
  have hword := (W.sound _ (word_mem (hknown i (List.mem_cons_self ..)))).1
  cases is with
  | nil => rwa [show W.join [i] = W.word i from List.intercalate_singleton]
  | cons j is =>
    rw [join_cons_cons]
    exact List.append_ne_nil_of_right_ne_nil _ (List.cons_ne_nil _ _)

/-! ## The bits -/

def indexBit (is : List Nat) (p : Nat) : Bool := (is.getD (p / 11) 0).testBit (10 - p % 11)

/-- From `bits`, the bits of `is` were put in from `n` on. -/
structure PutFrom (bits : List UInt8) (n : Nat) (is : List Nat) (packed : Packed) : Prop where
  count : packed.2 = n + 11 * is.length
  length : packed.1.length = bits.length
  bit : ∀ p, bitAt packed.1 p = (bitAt bits p || (decide (n ≤ p ∧ p < n + 11 * is.length) && indexBit is (p - n)))

theorem putBit_eq (bits : List UInt8) (n i k : Nat) (hn : n < 8 * bits.length) (hbits : bits.length ≤ 33) :
    ∃ bits', putBit i (bits, n) k = .ok (bits', n + 1) ∧ bits'.length = bits.length ∧
      ∀ p, bitAt bits' p = (bitAt bits p || (decide (p = n) && i.testBit (10 - k))) := by
  have hmod : (n + 1) % 2 ^ 32 = n + 1 := Nat.mod_eq_of_lt (by omega)
  rw [putBit]
  cases hbit : i.testBit (10 - k)
  · exact ⟨bits, by rw [if_neg Bool.false_ne_true, hmod], rfl, fun p => by rw [Bool.and_false, Bool.or_false]⟩
  · refine ⟨setBit bits n, ?_, length_setBit, fun p => ?_⟩
    · rw [if_pos rfl, if_pos (show n / 8 < bits.length by omega), hmod]
    · rw [bitAt_setBit hn, Bool.and_true]

theorem putIndex_eq (bits : List UInt8) (n i : Nat) (hn : n + 11 ≤ 8 * bits.length) (hbits : bits.length ≤ 33) :
    ∃ packed, putIndex (bits, n) i = .ok packed ∧ PutFrom bits n [i] packed := by
  have hrun : ∀ k ≤ 11, ∃ bits', (List.range k).foldlM (putBit i) (bits, n) = .ok (bits', n + k) ∧
      bits'.length = bits.length ∧
      ∀ p, bitAt bits' p = (bitAt bits p || (decide (n ≤ p ∧ p < n + k) && i.testBit (10 - (p - n)))) := by
    intro k
    induction k with
    | zero =>
      intro _
      refine ⟨bits, rfl, rfl, fun p => ?_⟩
      rw [decide_eq_false (by omega), Bool.false_and, Bool.or_false]
    | succ k ih =>
      intro hk
      obtain ⟨bits', hfold, hlen, hbit⟩ := ih (by omega)
      obtain ⟨next, hput, hlen', hbit'⟩ := putBit_eq bits' (n + k) i k (by omega) (by omega)
      refine ⟨next, ?_, hlen'.trans hlen, fun p => ?_⟩
      · rw [List.range_succ, List.foldlM_append, hfold]
        exact (bind_pure _).trans hput
      · rw [hbit', hbit, Bool.or_assoc]
        congr 1
        rcases Nat.lt_trichotomy p (n + k) with hp | rfl | hp
        · grind
        · grind
        · grind
  obtain ⟨bits', hfold, hlen, hbit⟩ := hrun 11 (Nat.le_refl _)
  refine ⟨(bits', n + 11), hfold, rfl, hlen, fun p => ?_⟩
  rw [hbit]
  congr 1
  by_cases hp : n ≤ p ∧ p < n + 11
  · rw [indexBit, Nat.div_eq_of_lt (by omega), Nat.mod_eq_of_lt (by omega)]
    rfl
  · rw [decide_eq_false hp, decide_eq_false (by simpa using hp)]
    rfl

theorem putAll_eq (bits : List UInt8) (n : Nat) (is : List Nat) (hn : n + 11 * is.length ≤ 8 * bits.length)
    (hbits : bits.length ≤ 33) : ∃ packed, putAll (bits, n) is = .ok packed ∧ PutFrom bits n is packed := by
  induction is generalizing bits n with
  | nil =>
    refine ⟨(bits, n), rfl, rfl, rfl, fun p => ?_⟩
    rw [List.length_nil, decide_eq_false (by omega), Bool.false_and, Bool.or_false]
  | cons i is ih =>
    rw [List.length_cons] at hn
    obtain ⟨⟨bits', n'⟩, hput, hone⟩ := putIndex_eq bits n i (by omega) hbits
    obtain rfl : n' = n + 11 := hone.count
    have hlen : bits'.length = bits.length := hone.length
    obtain ⟨packed, hall, hrest⟩ := ih bits' (n + 11) (by omega) (by omega)
    refine ⟨packed, ?_, ?_, hrest.length.trans hlen, fun p => ?_⟩
    · rw [putAll_cons, hput]
      exact hall
    · rw [hrest.count, List.length_cons]
      omega
    · rw [hrest.bit, hone.bit, Bool.or_assoc, List.length_singleton, List.length_cons]
      congr 1
      rcases Nat.lt_or_ge p (n + 11) with hp | hp
      · rw [decide_eq_false (p := n + 11 ≤ p ∧ p < n + 11 + 11 * is.length) (by omega), Bool.false_and, Bool.or_false]
        by_cases hnp : n ≤ p
        · rw [decide_eq_true (by omega), decide_eq_true (by omega), indexBit, indexBit, Nat.div_eq_of_lt (by omega)]
          rfl
        · rw [decide_eq_false (by omega), decide_eq_false (by omega)]
          rfl
      · rw [decide_eq_false (p := n ≤ p ∧ p < n + 11 * 1) (by omega), Bool.false_and, Bool.false_or,
          show p - n = p - (n + 11) + 11 by omega, indexBit, indexBit, Nat.add_div_right _ (by decide), Nat.add_mod_right,
          List.getD_cons_succ]
        congr 1
        rw [decide_eq_decide]
        omega

/-! ## What is accepted -/

theorem compareBits_iff {n : Nat} {digest last : UInt8} (hn : n = 12 ∨ n = 18 ∨ n = 24) :
    compareBits n digest last = true ↔ ∀ k < n / 3, highBit digest k = highBit last k := by
  have h4 : ∀ k < 8, highBit 0xF0 k = true ↔ k < 4 := by decide
  have h6 : ∀ k < 8, highBit 0xFC k = true ↔ k < 6 := by decide
  rw [compareBits]
  rcases hn with rfl | rfl | rfl
  · rw [if_pos rfl, beq_iff_eq, and_eq_and_iff]
    exact ⟨fun h k hk => h k (by omega) ((h4 k (by omega)).2 (by omega)), fun h k hk hm => h k ((h4 k hk).1 hm)⟩
  · rw [if_neg (by decide), if_pos rfl, beq_iff_eq, and_eq_and_iff]
    exact ⟨fun h k hk => h k (by omega) ((h6 k (by omega)).2 (by omega)), fun h k hk hm => h k ((h6 k hk).1 hm)⟩
  · rw [if_neg (by decide), if_neg (by decide), if_pos rfl, beq_iff_eq]
    exact ⟨fun h k _ => by rw [h], fun h => eq_of_highBit fun k hk => h k (by omega)⟩

/-- Behind the entropy of `n` words stand the first bits of its hash. -/
def Checksum (sha256 : List UInt8 → Vector UInt8 32) (n : Nat) (bits : List UInt8) : Prop :=
  ∀ k < n / 3, highBit (sha256 (bits.take (n * 4 / 3)))[0] k = bitAt bits (8 * (n * 4 / 3) + k)

theorem checkWords_eq_true {n : Nat} {mnemonic : List UInt8} (hn : n = 12 ∨ n = 18 ∨ n = 24) :
    checkWords W sha256 n mnemonic = .ok true ↔
      ∃ bits, checkLoop W (List.replicate 33 0, 0) mnemonic = .ok (bits, n * 11) ∧ Checksum sha256 n bits := by
  have hbit : ∀ (bits : List UInt8), ∀ k < n / 3, bitAt bits (8 * (n * 4 / 3) + k) = highBit (bits.getD (n * 4 / 3) 0) k :=
    fun bits k hk => bitAt_eq (by omega)
  rw [checkWords]
  cases hloop : checkLoop W (List.replicate 33 0, 0) mnemonic with
  | error stop =>
    constructor
    · intro h
      cases h
    · rintro ⟨_, h, _⟩
      cases h
  | ok packed =>
    obtain ⟨bits, nBitsCount⟩ := packed
    by_cases hcount : nBitsCount = n * 11
    · subst hcount
      have hsum : Checksum sha256 n bits ↔
          compareBits n (sha256 (bits.take (n * 4 / 3)))[0] (bits.getD (n * 4 / 3) 0) = true := by
        rw [compareBits_iff hn]
        exact forall₂_congr fun k hk => by rw [hbit bits k hk]
      constructor
      · intro h
        refine ⟨bits, rfl, hsum.2 ?_⟩
        simpa [bind, Except.bind, pure, Except.pure] using h
      · rintro ⟨_, h, hchecked⟩
        cases h
        simpa [bind, Except.bind, pure, Except.pure] using hsum.1 hchecked
    · constructor
      · intro h
        simp [bind, Except.bind, pure, Except.pure, hcount] at h
      · rintro ⟨_, h, _⟩
        cases h
        exact absurd rfl hcount

theorem check_eq_true {mnemonic : List UInt8} :
    check W sha256 mnemonic = some true ↔
      ∃ n bits, (n = 12 ∨ n = 18 ∨ n = 24) ∧ mnemonic ≠ [] ∧ (mnemonic.count space + 1) % 2 ^ 32 = n ∧
        checkLoop W (List.replicate 33 0, 0) mnemonic = .ok (bits, n * 11) ∧ Checksum sha256 n bits := by
  rw [check]
  constructor
  · intro h
    split at h
    · cases h
    · rename_i hne
      split at h
      · cases h
      · rename_i hcount
        have hn : (mnemonic.count space + 1) % 2 ^ 32 = 12 ∨ (mnemonic.count space + 1) % 2 ^ 32 = 18 ∨
          (mnemonic.count space + 1) % 2 ^ 32 = 24 := by grind
        split at h
        · cases h
        · cases h
        · rename_i fResult hwords
          cases h
          obtain ⟨bits, hloop, hsum⟩ := (checkWords_eq_true hn).1 hwords
          exact ⟨_, bits, hn, hne, rfl, hloop, hsum⟩
  · rintro ⟨n, bits, hn, hne, hcount, hloop, hsum⟩
    rw [if_neg hne, hcount, if_neg (by omega), (checkWords_eq_true hn).2 ⟨bits, hloop, hsum⟩]

/-! ## The words of an entropy -/

def indices (bits : List UInt8) (n : Nat) : List Nat := (List.range n).map (wordIndex bits)

theorem length_indices {bits : List UInt8} {n : Nat} : (indices bits n).length = n := by
  rw [indices, List.length_map, List.length_range]

theorem known_indices {bits : List UInt8} {n : Nat} : Known (indices bits n) := by
  intro i hi
  obtain ⟨k, -, rfl⟩ := List.mem_map.1 hi
  exact readBits_lt

theorem getD_indices {bits : List UInt8} {n i : Nat} (hi : i < n) : (indices bits n).getD i 0 = wordIndex bits i := by
  rw [indices, List.getD_eq_getElem?_getD, List.getElem?_map, List.getElem?_range hi]
  rfl

theorem indexBit_indices {bits : List UInt8} {n p : Nat} (hp : p < n * 11) : indexBit (indices bits n) p = bitAt bits p := by
  rw [indexBit, getD_indices (by omega), wordIndex, testBit_readBits, decide_eq_true (by omega), Bool.true_and,
    show p / 11 * 11 + (11 - 1 - (10 - p % 11)) = p by omega]

theorem eq_indices {bits : List UInt8} {is : List Nat} (hknown : Known is)
    (h : ∀ p < is.length * 11, indexBit is p = bitAt bits p) : is = indices bits is.length := by
  apply List.ext_getElem length_indices.symm
  intro i hi hi'
  have hword : (indices bits is.length)[i] = wordIndex bits i := by
    rw [← getD_indices hi, List.getD_eq_getElem?_getD, List.getElem?_eq_getElem hi']
    rfl
  rw [hword]
  apply eq_readBits (hknown _ (List.getElem_mem _))
  intro j hj
  rw [← h _ (by omega), indexBit, show (i * 11 + j) / 11 = i by omega, show (i * 11 + j) % 11 = j by omega,
    List.getD_eq_getElem?_getD, List.getElem?_eq_getElem hi]
  rfl

theorem join_concat {is : List Nat} {i : Nat} :
    W.join (is ++ [i]) = (is.flatMap fun j => W.word j ++ [space]) ++ W.word i := by
  induction is with
  | nil => exact List.intercalate_singleton
  | cons j is ih =>
    rw [List.flatMap_cons, List.append_assoc, ← ih]
    cases is with
    | nil =>
      rw [List.nil_append, List.cons_append, List.nil_append, join_cons_cons]
      simp
    | cons k is =>
      rw [List.cons_append, List.cons_append, join_cons_cons]
      simp

theorem fromData_eq_join {data : List UInt8} (hmul : data.length % 4 = 0) (hmin : 16 ≤ data.length) (hmax : data.length ≤ 32) :
    fromData W sha256 data data.length = W.join (indices (data ++ [(sha256 data)[0]]) (data.length * 3 / 4)) := by
  rw [fromData, if_neg (by omega)]
  simp only [List.take_length]
  generalize data ++ [(sha256 data)[0]] = bits
  obtain ⟨m, hm⟩ : ∃ m, data.length * 3 / 4 = m + 1 := ⟨data.length * 3 / 4 - 1, by omega⟩
  rw [hm]
  have hrun : ∀ k ≤ m, (List.range k).foldl (fun mnemonic i =>
      let mnemonic := mnemonic ++ W.words.getD (wordIndex bits i) []
      if i < m + 1 - 1 then mnemonic ++ [space] else mnemonic) [] =
        (indices bits k).flatMap fun j => W.word j ++ [space] := by
    intro k
    induction k with
    | zero =>
      intro _
      rfl
    | succ k ih =>
      intro hk
      rw [List.range_succ, List.foldl_append, ih (by omega), List.foldl_cons, List.foldl_nil, if_pos (by omega), indices,
        indices, List.range_succ, List.map_append, List.flatMap_append, List.append_assoc]
      simp [Wordlist.word]
  rw [List.range_succ, List.foldl_append, hrun m (Nat.le_refl _), List.foldl_cons, List.foldl_nil, if_neg (by omega),
    indices, indices, List.range_succ, List.map_append, List.map_singleton, join_concat]
  rfl

/-! ## Phrases of at most 24 words -/

theorem checkLoop_phrase {is : List Nat} (hne : is ≠ []) (hknown : Known is) (hlen : is.length ≤ 24) :
    ∃ bits, checkLoop W (List.replicate 33 0, 0) (W.join is) = .ok (bits, is.length * 11) ∧ bits.length = 33 ∧
      ∀ p < is.length * 11, bitAt bits p = indexBit is p := by
  obtain ⟨⟨bits, n⟩, hall, hput⟩ := putAll_eq (List.replicate 33 0) 0 is
    (by rw [List.length_replicate]; omega) (by rw [List.length_replicate])
  have hn : n = is.length * 11 := by
    have hcount : n = 0 + 11 * is.length := hput.count
    omega
  refine ⟨bits, ?_, ?_, ?_⟩
  · rw [checkLoop_join hne hknown, hall, hn]
  · exact hput.length.trans List.length_replicate
  · intro p hp
    have hbit : bitAt bits p = _ := hput.bit p
    rw [hbit, bitAt_replicate_zero, Bool.false_or, decide_eq_true (by omega), Bool.true_and, Nat.sub_zero]

/-- The entropy, and the bits of its hash behind it, are what the words are made of. -/
theorem checksum_indices {data bits : List UInt8} {n : Nat} (hn : n = 12 ∨ n = 18 ∨ n = 24) (hdata : data.length = n * 4 / 3)
    (hlen : bits.length = 33) (hbit : ∀ p < n * 11, bitAt bits p = bitAt (data ++ [(sha256 data)[0]]) p) :
    bits.take (n * 4 / 3) = data ∧ Checksum sha256 n bits := by
  have htake : bits.take (n * 4 / 3) = data := by
    apply eq_of_bitAt
    · rw [List.length_take, hlen]
      omega
    · intro p hp
      rw [List.length_take, hlen] at hp
      rw [bitAt_take (by omega), hbit p (by omega), bitAt_append_left (by omega)]
  refine ⟨htake, fun k hk => ?_⟩
  rw [htake, hbit _ (by omega), ← hdata, bitAt_append_singleton (by omega)]

theorem exists_entropy {bits : List UInt8} {is : List Nat} (hn : is.length = 12 ∨ is.length = 18 ∨ is.length = 24)
    (hknown : Known is) (hlen : bits.length = 33) (hbit : ∀ p < is.length * 11, bitAt bits p = indexBit is p)
    (hsum : Checksum sha256 is.length bits) :
    ∃ data, data.length = is.length * 4 / 3 ∧ is = indices (data ++ [(sha256 data)[0]]) is.length := by
  have hdata : (bits.take (is.length * 4 / 3)).length = is.length * 4 / 3 := by
    rw [List.length_take, hlen]
    omega
  refine ⟨bits.take (is.length * 4 / 3), hdata, eq_indices hknown fun p hp => ?_⟩
  rw [← hbit p hp]
  by_cases hp' : p < 8 * (is.length * 4 / 3)
  · rw [bitAt_append_left (by omega), bitAt_take hp']
  · obtain ⟨k, rfl⟩ := Nat.exists_eq_add_of_le (Nat.not_lt.1 hp')
    have hbehind := bitAt_append_singleton (l := bits.take (is.length * 4 / 3)) (k := k)
      (x := (sha256 (bits.take (is.length * 4 / 3)))[0]) (by omega)
    rw [hdata] at hbehind
    rw [← hsum k (by omega), hbehind]

/-! ## The main results -/

theorem check_join {is : List Nat} (hn : is.length = 12 ∨ is.length = 18 ∨ is.length = 24) (hknown : Known is) :
    check W sha256 (W.join is) = some true ↔
      ∃ data, data.length = is.length * 4 / 3 ∧ is = indices (data ++ [(sha256 data)[0]]) is.length := by
  have hne : is ≠ [] := by
    rintro rfl
    simp at hn
  obtain ⟨bits, hloop, hlen, hbit⟩ := checkLoop_phrase (W := W) hne hknown (by omega)
  have hcount : ((W.join is).count space + 1) % 2 ^ 32 = is.length := by
    rw [count_join hne hknown, Nat.mod_eq_of_lt (by omega)]
  rw [check_eq_true]
  constructor
  · rintro ⟨n, bits', _, _, hn', hloop', hsum⟩
    obtain rfl : is.length = n := hcount.symm.trans hn'
    rw [hloop] at hloop'
    cases hloop'
    exact exists_entropy hn hknown hlen hbit hsum
  · rintro ⟨data, hdata, his⟩
    refine ⟨is.length, bits, hn, join_ne_nil hne hknown, hcount, hloop, ?_⟩
    refine (checksum_indices hn hdata hlen fun p hp => ?_).2
    rw [hbit p hp, ← indexBit_indices hp, ← his]

theorem check_fromData (W : Wordlist) (sha256 : List UInt8 → Vector UInt8 32) {data : List UInt8}
    (h : data.length = 16 ∨ data.length = 24 ∨ data.length = 32) :
    check W sha256 (fromData W sha256 data data.length) = some true := by
  rw [fromData_eq_join (by omega) (by omega) (by omega), check_join (by rw [length_indices]; omega) known_indices,
    length_indices]
  exact ⟨data, by omega, rfl⟩

theorem check_fromData_refused {data : List UInt8} (h : data.length = 20 ∨ data.length = 28) :
    check W sha256 (fromData W sha256 data data.length) = some false := by
  have hne : indices (data ++ [(sha256 data)[0]]) (data.length * 3 / 4) ≠ [] :=
    List.ne_nil_of_length_pos (by rw [length_indices]; omega)
  have hcount := count_join (W := W) hne known_indices
  rw [length_indices] at hcount
  rw [fromData_eq_join (by omega) (by omega) (by omega), check, hcount]
  split
  · rfl
  · exact if_pos (by omega)

theorem exists_of_check {mnemonic : List UInt8} (hwords : mnemonic.count space + 1 < 2 ^ 32)
    (h : check W sha256 mnemonic = some true) :
    ∃ data : List UInt8, (data.length = 16 ∨ data.length = 24 ∨ data.length = 32) ∧
      fromData W sha256 data data.length = mnemonic := by
  have haccepted := h
  obtain ⟨n, bits, hn, hne, hcount, hloop, -⟩ := check_eq_true.1 h
  rw [Nat.mod_eq_of_lt hwords] at hcount
  obtain ⟨is, hne', hknown, hphrase, hall⟩ := exists_join_of_checkLoop hne hloop
  have hjoin := count_join (W := W) hne' hknown
  have hphrase' : is.length ≤ n := by
    rcases hphrase with rfl | rfl
    · omega
    · rw [List.count_append] at hcount
      omega
  obtain ⟨bits', hloop', -, -⟩ := checkLoop_phrase (W := W) hne' hknown (by omega)
  rw [checkLoop_join hne' hknown, hall] at hloop'
  have hlen : n = is.length := by
    have hcounts : n * 11 = is.length * 11 := (Prod.mk.inj (Except.ok.inj hloop')).2
    omega
  rcases hphrase with rfl | rfl
  · obtain ⟨data, hdata, his⟩ := (check_join (by omega) hknown).1 haccepted
    refine ⟨data, by omega, ?_⟩
    rw [fromData_eq_join (by omega) (by omega) (by omega), show data.length * 3 / 4 = is.length by omega, ← his]
  · rw [List.count_append, List.count_singleton_self] at hcount
    omega

theorem bitAt_of_fromData {data bits : List UInt8} {k : Nat} (h : data.length = 16 ∨ data.length = 24 ∨ data.length = 32)
    (hloop : checkLoop W (List.replicate 33 0, 0) (fromData W sha256 data data.length) = .ok (bits, k)) :
    k = data.length * 3 / 4 * 11 ∧ bits.take data.length = data := by
  rw [fromData_eq_join (by omega) (by omega) (by omega)] at hloop
  have hne : indices (data ++ [(sha256 data)[0]]) (data.length * 3 / 4) ≠ [] :=
    List.ne_nil_of_length_pos (by rw [length_indices]; omega)
  obtain ⟨bits', hloop', hlen, hbit⟩ := checkLoop_phrase (W := W) hne known_indices (by rw [length_indices]; omega)
  rw [hloop] at hloop'
  cases hloop'
  rw [length_indices] at hbit ⊢
  refine ⟨rfl, ?_⟩
  have hbits : ∀ p < data.length * 3 / 4 * 11, bitAt bits p = bitAt (data ++ [(sha256 data)[0]]) p :=
    fun p hp => by rw [hbit p hp, indexBit_indices hp]
  have htake := (checksum_indices (by omega) (by omega) hlen hbits).1
  rwa [show data.length * 3 / 4 * 4 / 3 = data.length by omega] at htake

theorem fromData_injective {data data' : List UInt8} (h : data.length = 16 ∨ data.length = 24 ∨ data.length = 32)
    (h' : data'.length = 16 ∨ data'.length = 24 ∨ data'.length = 32)
    (heq : fromData W sha256 data data.length = fromData W sha256 data' data'.length) : data = data' := by
  obtain ⟨_, bits, _, _, _, hloop, -⟩ := check_eq_true.1 (check_fromData W sha256 h)
  obtain ⟨hlen, htake⟩ := bitAt_of_fromData h hloop
  rw [heq] at hloop
  obtain ⟨hlen', htake'⟩ := bitAt_of_fromData h' hloop
  rw [← htake, ← htake', show data.length = data'.length by omega]

/-- 15 and 21 words are refused. -/
theorem check_english (sha256 : List UInt8 → Vector UInt8 32) :
    (∀ data : List UInt8, data.length = 16 ∨ data.length = 24 ∨ data.length = 32 →
      check english sha256 (fromData english sha256 data data.length) = some true) ∧
    (∀ data : List UInt8, data.length = 20 ∨ data.length = 28 →
      check english sha256 (fromData english sha256 data data.length) = some false) ∧
    ∀ mnemonic : List UInt8, mnemonic.count space + 1 < 2 ^ 32 →
      (check english sha256 mnemonic = some true ↔
        ∃! data : List UInt8, (data.length = 16 ∨ data.length = 24 ∨ data.length = 32) ∧
          fromData english sha256 data data.length = mnemonic) := by
  refine ⟨fun data => check_fromData english sha256, fun data => check_fromData_refused, fun mnemonic hwords => ⟨fun h => ?_, ?_⟩⟩
  · obtain ⟨data, hdata, hphrase⟩ := exists_of_check hwords h
    refine ⟨data, ⟨hdata, hphrase⟩, ?_⟩
    rintro other ⟨hother, hphrase'⟩
    exact fromData_injective hother hdata (hphrase'.trans hphrase.symm)
  · rintro ⟨data, ⟨hdata, rfl⟩, -⟩
    exact check_fromData english sha256 hdata

/-! ## The counters start again -/

theorem putIndex_zero {bits : List UInt8} {n : Nat} (hn : n < 2 ^ 32) :
    putIndex (bits, n) 0 = .ok (bits, (n + 11) % 2 ^ 32) := by
  have hrun : ∀ k, (List.range k).foldlM (putBit 0) (bits, n) = .ok (bits, (n + k) % 2 ^ 32) := by
    intro k
    induction k with
    | zero =>
      rw [Nat.add_zero, Nat.mod_eq_of_lt hn]
      rfl
    | succ k ih =>
      have hput : putBit 0 (bits, (n + k) % 2 ^ 32) k = .ok (bits, (n + (k + 1)) % 2 ^ 32) := by
        rw [putBit, Nat.zero_testBit, if_neg Bool.false_ne_true, Nat.mod_add_mod, Nat.add_assoc]
      rw [List.range_succ, List.foldlM_append, ih]
      exact (bind_pure _).trans hput
  exact hrun 11

theorem putAll_replicate_zero {bits : List UInt8} {n m : Nat} (hn : n < 2 ^ 32) :
    putAll (bits, n) (List.replicate m 0) = .ok (bits, (n + 11 * m) % 2 ^ 32) := by
  induction m generalizing n with
  | zero =>
    rw [Nat.mul_zero, Nat.add_zero, Nat.mod_eq_of_lt hn]
    rfl
  | succ m ih =>
    rw [List.replicate_succ, putAll_cons, putIndex_zero hn]
    refine (ih (Nat.mod_lt _ (by decide))).trans ?_
    rw [Nat.mod_add_mod, show n + 11 + 11 * m = n + 11 * (m + 1) by omega]

theorem known_padded {is : List Nat} {m : Nat} (hknown : Known is) : Known (is ++ List.replicate m 0) := by
  intro i hi
  rcases List.mem_append.1 hi with hi | hi
  · exact hknown i hi
  · rw [(List.mem_replicate.1 hi).2]
    decide

/-- The first word writes no bit: `2 ^ 32` of it behind a phrase leave all as it was. -/
theorem check_padded {is : List Nat} {m : Nat} (hne : is ≠ []) (hknown : Known is) (hm : m % 2 ^ 32 = 0)
    (h : check W sha256 (W.join is) = some true) : check W sha256 (W.join (is ++ List.replicate m 0)) = some true := by
  have hne' : is ++ List.replicate m 0 ≠ [] := List.append_ne_nil_of_left_ne_nil hne _
  have hknown' := known_padded (m := m) hknown
  obtain ⟨n, bits, hn, -, hcount, hloop, hsum⟩ := check_eq_true.1 h
  refine check_eq_true.2 ⟨n, bits, hn, join_ne_nil hne' hknown', ?_, ?_, hsum⟩
  · rw [count_join hne hknown] at hcount
    rw [count_join hne' hknown', List.length_append, List.length_replicate]
    omega
  · rw [checkLoop_join hne hknown] at hloop
    rw [checkLoop_join hne' hknown', putAll, List.foldlM_append]
    change putAll _ is >>= _ = _
    rw [hloop]
    refine (putAll_replicate_zero (by omega)).trans ?_
    rw [show (n * 11 + 11 * m) % 2 ^ 32 = n * 11 by omega]

theorem count_fromData (W : Wordlist) (sha256 : List UInt8 → Vector UInt8 32) (data : List UInt8) :
    (fromData W sha256 data data.length).count space + 1 ≤ 24 := by
  by_cases hlen : data.length % 4 = 0 ∧ 16 ≤ data.length ∧ data.length ≤ 32
  · obtain ⟨hmul, hmin, hmax⟩ := hlen
    rw [fromData_eq_join hmul hmin hmax,
      count_join (List.ne_nil_of_length_pos (by rw [length_indices]; omega)) known_indices, length_indices]
    omega
  · rw [fromData, if_pos (by omega)]
    decide

theorem accepts_padded (W : Wordlist) (sha256 : List UInt8 → Vector UInt8 32) {data : List UInt8} {m : Nat}
    (hdata : data.length = 16 ∨ data.length = 24 ∨ data.length = 32)
    (hm : m % 2 ^ 32 = 0) (hpos : 24 ≤ m) :
    ∃ mnemonic, check W sha256 mnemonic = some true ∧
      ∀ data : List UInt8, fromData W sha256 data data.length ≠ mnemonic := by
  have haccepted := check_fromData W sha256 hdata
  rw [fromData_eq_join (by omega) (by omega) (by omega)] at haccepted
  have hne : indices (data ++ [(sha256 data)[0]]) (data.length * 3 / 4) ≠ [] :=
    List.ne_nil_of_length_pos (by rw [length_indices]; omega)
  refine ⟨_, check_padded hne known_indices hm haccepted, fun other heq => ?_⟩
  have hcount := count_fromData W sha256 other
  rw [heq, count_join (List.append_ne_nil_of_left_ne_nil hne _) (known_padded known_indices), List.length_append,
    List.length_replicate, length_indices] at hcount
  omega

/-- `FromData` takes 20 bytes, `Check` does not take what comes of them; and it takes phrases that
    do not come of any bytes, whatever the hash. -/
theorem check_not_fromData :
    (¬ ∃ sha256 : List UInt8 → Vector UInt8 32, ∀ data : List UInt8, data.length % 4 = 0 → 16 ≤ data.length →
      data.length ≤ 32 → check english sha256 (fromData english sha256 data data.length) = some true) ∧
    ¬ ∃ sha256 : List UInt8 → Vector UInt8 32, ∀ mnemonic, check english sha256 mnemonic = some true →
      ∃ data : List UInt8, fromData english sha256 data data.length = mnemonic := by
  constructor
  · rintro ⟨sha256, h⟩
    have haccepted := h (List.replicate 20 0) (by decide) (by decide) (by decide)
    rw [check_fromData_refused (.inl List.length_replicate)] at haccepted
    cases haccepted
  · rintro ⟨sha256, h⟩
    obtain ⟨mnemonic, haccepted, hno⟩ := accepts_padded english sha256 (m := 2 ^ 32)
      (show (List.replicate 16 (0 : UInt8)).length = 16 ∨ _ from .inl List.length_replicate) (by decide) (by decide)
    obtain ⟨data, hdata⟩ := h mnemonic haccepted
    exact hno data hdata

end Zumy.Wallet
