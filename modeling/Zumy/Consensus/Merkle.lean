/-
  Zumy.Consensus.Merkle — merkle roots in one pass, and whether a list of transactions may
  stand for another one (consensus/merkle.cpp, merkleblock.cpp, main.cpp).

  `MerkleComputation` keeps the hash of one whole subtree for each bit of the number of leaves
  and completes it at the end; `CalcHash` is the recursion on the tree. Both are over any hash
  of pairs. `count` and the shifts are of 32 bits: a shift by 32, which also is an index
  behind the last of `inner`, is `none`. What `inner` holds at first is arbitrary. The branch
  that can be computed on the way is left out: `ComputeMerkleRoot` asks for none.

  - `sweep_root`: the last sweep gives the root of the tree.
  - `computeMerkleRoot_none`: with more than 2 ^ 31 leaves it overflows.
-/
import Mathlib.Data.Nat.Bitwise
import Mathlib.Data.Nat.Pairing
import Zumy.Lib.MerkleTree

namespace Zumy.Consensus

open Zumy.Lib.MerkleTree

variable {α : Type} [DecidableEq α] (hash : α → α → α)

/-! ## In one pass -/

structure MerkleState (α : Type) where
  count : Nat
  inner : Nat → α
  mutated : Bool

/-- One step for each of the lower bits of `count` that are 0. -/
def carry (inner : Nat → α) (count : Nat) : Nat → Nat → α → Bool → Option (Nat × α × Bool)
  | 0, _, _, _ => none
  | n + 1, level, h, mutated =>
    if count.testBit level then some (level, h, mutated)
    else carry inner count n (level + 1) (hash (inner level) h) (mutated || decide (inner level = h))

def absorb (s : MerkleState α) (leaf : α) : Option (MerkleState α) :=
  let count := (s.count + 1) % 2 ^ 32
  (carry hash s.inner count 32 0 leaf s.mutated).map fun (level, h, mutated) => ⟨count, Function.update s.inner level h, mutated⟩

/-- The lowest bit of `count` that is 1. -/
def skipLevel (count : Nat) : Nat → Nat → Option Nat
  | 0, _ => none
  | n + 1, level => if count.testBit level then some level else skipLevel count n (level + 1)

def climb (inner : Nat → α) (count : Nat) : Nat → Nat → α → Option (Nat × α)
  | 0, _, _ => none
  | n + 1, level, h => if count.testBit level then some (level, h) else climb inner count n (level + 1) (hash (inner level) h)

def sweep (inner : Nat → α) : Nat → Nat → Nat → α → Option α
  | 0, _, _, _ => none
  | n + 1, count, level, h =>
    if count = 2 ^ level then some h
    else
      let h := hash h h
      let count := (count + 2 ^ level) % 2 ^ 32
      (climb hash inner count (31 - level) (level + 1) h).bind fun (level, h) => sweep inner n count level h

/-- `ComputeMerkleRoot` and `mutated`. -/
def computeMerkleRoot (null : α) (inner : Nat → α) (leaves : List α) : Option (α × Bool) :=
  if leaves = [] then some (null, false)
  else
    (leaves.foldlM (absorb hash) ⟨0, inner, false⟩).bind fun s =>
      (skipLevel s.count 32 0).bind fun level => (sweep hash s.inner 32 s.count level (s.inner level)).map fun h => (h, s.mutated)

/-! ## By recursion -/

section CalcHash

variable (vTxid : List α)

def calcTreeWidth (height : Nat) : Nat := (vTxid.length + 2 ^ height - 1) % 2 ^ 32 / 2 ^ height

def calcHash : Nat → Nat → Option α
  | 0, pos => vTxid[pos]?
  | height + 1, pos =>
    (calcHash height (2 * pos)).bind fun left =>
      if 2 * pos + 1 < calcTreeWidth vTxid height then (calcHash height (2 * pos + 1)).map fun right => hash left right
      else some (hash left left)

def heightFrom : Nat → Nat → Nat
  | 0, nHeight => nHeight
  | n + 1, nHeight => if 1 < calcTreeWidth vTxid nHeight then heightFrom n (nHeight + 1) else nHeight

def calcRoot : Option α := calcHash hash vTxid (heightFrom vTxid 32 0) 0

end CalcHash

/-! ## Arithmetic -/

section Bits

variable {n k j : Nat}

theorem testBit_iff : n.testBit k = true ↔ n / 2 ^ k % 2 = 1 := by
  rw [Nat.testBit_eq_decide_div_mod_eq, decide_eq_true_iff]

theorem mul_pred_div {b : Nat} (q : Nat) (hb : 0 < b) : (b * (q + 1) - 1) / b = q := by
  have hsplit : b * (q + 1) - 1 = b * q + (b - 1) := by
    rw [Nat.mul_add]
    omega
  rw [hsplit, Nat.mul_add_div hb, Nat.div_eq_of_lt (by omega), Nat.add_zero]

theorem pred_of_bit_zero (hn : 0 < n) (hdvd : 2 ^ k ∣ n) (hbit : n.testBit k = false) :
    (n - 1) / 2 ^ k % 2 = 1 ∧ 2 ^ (k + 1) ∣ n := by
  obtain ⟨q, rfl⟩ := hdvd
  have hpos : 0 < 2 ^ k := Nat.two_pow_pos k
  have heven : q % 2 = 0 := by
    have hq : ¬ q % 2 = 1 := by
      rw [← Nat.mul_div_cancel_left q hpos, ← testBit_iff, hbit]
      exact Bool.false_ne_true
    omega
  obtain ⟨r, rfl⟩ : ∃ r, q = r + 1 := ⟨q - 1, by have := Nat.pos_of_mul_pos_left hn; omega⟩
  refine ⟨by rw [mul_pred_div r hpos]; omega, ?_⟩
  rw [pow_succ]
  exact Nat.mul_dvd_mul_left _ (Nat.dvd_of_mod_eq_zero heven)

/-- Below a multiple whose bit is 1, the bit is 0 and those above are the same. -/
theorem pred_of_bit_one (hdvd : 2 ^ k ∣ n) (hbit : n.testBit k = true) :
    (n - 1) / 2 ^ k % 2 = 0 ∧ ∀ j, k < j → (n - 1) / 2 ^ j = n / 2 ^ j := by
  obtain ⟨q, rfl⟩ := hdvd
  have hpos : 0 < 2 ^ k := Nat.two_pow_pos k
  have hodd : q % 2 = 1 := by
    have hq := testBit_iff.1 hbit
    rwa [Nat.mul_div_cancel_left q hpos] at hq
  obtain ⟨r, rfl⟩ : ∃ r, q = r + 1 := ⟨q - 1, by omega⟩
  refine ⟨by rw [mul_pred_div r hpos]; omega, fun j hj => ?_⟩
  obtain ⟨i, rfl⟩ := Nat.exists_eq_add_of_lt hj
  have hpow : 2 ^ (k + i + 1) = 2 ^ k * 2 * 2 ^ i := by rw [Nat.add_right_comm, pow_add, pow_succ]
  rw [hpow, ← Nat.div_div_eq_div_mul, ← Nat.div_div_eq_div_mul, ← Nat.div_div_eq_div_mul, ← Nat.div_div_eq_div_mul,
    mul_pred_div r hpos,
    Nat.mul_div_cancel_left _ hpos]
  congr 1
  omega

end Bits

/-! ## The leaves -/

section Leaves

variable {hash} {leaves m : List α} {s : MerkleState α} {inner : Nat → α} {leaf h root : α} {mutated : Bool}
    {k n level count d : Nat}

variable (hash) in
/-- `inner` has the last node of each level with an odd number of whole nodes. -/
def Holds (leaves : List α) (inner : Nat → α) : Prop :=
  ∀ level, leaves.length.testBit level = true → ((pairs hash)^[level] leaves).getLast? = some (inner level)

variable (hash) in
structure Counted (leaves : List α) (s : MerkleState α) : Prop where
  count : s.count = leaves.length
  lt : leaves.length < 2 ^ 32
  holds : Holds hash leaves s.inner
  mutated : s.mutated = true ↔ Flagged hash leaves

omit [DecidableEq α] in
theorem Holds.exists_last (hh : Holds hash leaves inner) (hodd : leaves.length / 2 ^ k % 2 = 1) :
    ∃ m, (pairs hash)^[k] leaves = m ++ [inner k] ∧ m.length % 2 = 0 := by
  obtain ⟨m, x, hm, heven⟩ := exists_snoc (l := (pairs hash)^[k] leaves) (by rwa [length_pairs_iterate])
  have hlast := hh k (testBit_iff.2 hodd)
  rw [hm, List.getLast?_concat] at hlast
  cases hlast
  exact ⟨m, hm, heven⟩

/-- At level `k` the new node is behind those that are whole already; the loop goes on while
    it has a sibling. -/
theorem carry_spec (hh : Holds hash leaves inner) (hlt : leaves.length + 1 < 2 ^ 32) (hn : k + n = 32)
    (hdvd : 2 ^ k ∣ leaves.length + 1) (hnode : (pairs hash)^[k] (leaves ++ [leaf]) = (pairs hash)^[k] leaves ++ [h])
    (hmutated : Flagged hash ((pairs hash)^[k] leaves) → mutated = true) :
    ∃ level h' mutated', carry hash inner (leaves.length + 1) n k h mutated = some (level, h', mutated') ∧
      2 ^ level ∣ leaves.length + 1 ∧ (leaves.length + 1).testBit level = true ∧
      (pairs hash)^[level] (leaves ++ [leaf]) = (pairs hash)^[level] leaves ++ [h'] ∧
      (mutated' = true ↔ mutated = true ∨ Flagged hash ((pairs hash)^[k] leaves ++ [h])) := by
  induction n generalizing k h mutated with
  | zero =>
    obtain rfl : k = 32 := hn
    exact absurd (Nat.le_of_dvd (Nat.succ_pos _) hdvd) (Nat.not_le.2 hlt)
  | succ n ih =>
    rw [carry]
    cases hbit : (leaves.length + 1).testBit k with
    | true =>
      have heven : ((pairs hash)^[k] leaves).length % 2 = 0 := by
        rw [length_pairs_iterate]
        exact (pred_of_bit_one hdvd hbit).1
      refine ⟨k, h, mutated, rfl, hdvd, hbit, hnode, ?_⟩
      rw [flagged_snoc_even heven]
      exact ⟨.inl, fun hor => hor.elim id hmutated⟩
    | false =>
      obtain ⟨hodd, hdvd'⟩ := pred_of_bit_zero (Nat.succ_pos _) hdvd hbit
      obtain ⟨m, hm, heven⟩ := hh.exists_last hodd
      have hwhole : (pairs hash)^[k + 1] leaves = pairs hash m := by
        rw [Function.iterate_succ_apply', hm, pairs_append heven]
        simp [pairs]
      have hnode' : (pairs hash)^[k + 1] (leaves ++ [leaf]) = (pairs hash)^[k + 1] leaves ++ [hash (inner k) h] := by
        rw [Function.iterate_succ_apply', hnode, hwhole, hm, List.append_assoc, pairs_append heven]
        simp [pairs]
      have hmutated' : Flagged hash ((pairs hash)^[k + 1] leaves) → (mutated || decide (inner k = h)) = true := by
        intro hf
        rw [hmutated (flagged_iff.2 (.inr (by rwa [← Function.iterate_succ_apply' (pairs hash)]))), Bool.true_or]
      obtain ⟨level, h', mutated', hcarry, hd, hb, hnode'', hflag⟩ := ih (by omega) hdvd' hnode' hmutated'
      refine ⟨level, h', mutated', hcarry, hd, hb, hnode'', hflag.trans ?_⟩
      have htwins : Twins m → mutated = true := fun ht => hmutated (by
        rw [hm, flagged_snoc_even heven, flagged_iff]
        exact .inl ht)
      rw [hm, flagged_snoc_snoc heven, hwhole, Bool.or_eq_true, decide_eq_true_iff, or_assoc]
      constructor
      · intro hor
        exact hor.imp_right .inr
      · intro hor
        rcases hor with hmutated | ht | hor
        · exact .inl hmutated
        · exact .inl (htwins ht)
        · exact .inr hor

variable (leaf) in
theorem counted_absorb (hs : Counted hash leaves s) (hlt : leaves.length + 1 < 2 ^ 32) :
    ∃ s', absorb hash s leaf = some s' ∧ Counted hash (leaves ++ [leaf]) s' := by
  obtain ⟨level, h, mutated, hcarry, hdvd, hbit, hnode, hflag⟩ :=
    carry_spec (k := 0) (n := 32) hs.holds hlt rfl (one_dvd _) (rfl : leaves ++ [leaf] = leaves ++ [leaf]) hs.mutated.2
  have hcount : (s.count + 1) % 2 ^ 32 = leaves.length + 1 := by rw [hs.count, Nat.mod_eq_of_lt hlt]
  obtain ⟨heven, habove⟩ := pred_of_bit_one hdvd hbit
  refine ⟨⟨leaves.length + 1, Function.update s.inner level h, mutated⟩, ?_, ?_, ?_, ?_, ?_⟩
  · simp only [absorb, hcount, hcarry, Option.map_some]
  · simp
  · simpa using hlt
  · intro j hj
    rw [List.length_append, List.length_singleton] at hj
    rcases Nat.lt_trichotomy j level with hlt | rfl | hgt
    · -- the bits below are 0
      obtain ⟨q, hq⟩ := hdvd
      obtain ⟨i, rfl⟩ := Nat.exists_eq_add_of_lt hlt
      rw [testBit_iff, hq, Nat.add_right_comm, pow_add, pow_succ, Nat.mul_assoc, Nat.mul_assoc,
        Nat.mul_div_cancel_left _ (Nat.two_pow_pos j),
        Nat.mul_mod_right] at hj
      cases hj
    · show _ = some (Function.update s.inner j h j)
      rw [hnode, List.getLast?_concat, Function.update_self]
    · -- the levels above have no new whole node
      have hbit' : leaves.length.testBit j = true := by
        rw [testBit_iff] at hj ⊢
        rwa [← habove j hgt, Nat.add_sub_cancel] at hj
      have hlast := hs.holds j hbit'
      have hsame : (pairs hash)^[level + 1] (leaves ++ [leaf]) = (pairs hash)^[level + 1] leaves := by
        rw [Function.iterate_succ_apply', Function.iterate_succ_apply', hnode, pairs_append (by rwa [length_pairs_iterate])]
        simp [pairs]
      obtain ⟨i, rfl⟩ : ∃ i, j = i + (level + 1) := ⟨j - (level + 1), by omega⟩
      show _ = some (Function.update s.inner level h (i + (level + 1)))
      rw [Function.update_of_ne (by omega), ← hlast, Function.iterate_add_apply _ i (level + 1),
        Function.iterate_add_apply _ i (level + 1), hsame]
  · rw [hflag]
    exact ⟨fun hor => hor.elim (fun hm => (hs.mutated.1 hm).snoc leaf) id, .inr⟩

variable (hash) in
theorem counted_all (hlt : leaves.length < 2 ^ 32) (inner : Nat → α) :
    ∃ s, leaves.foldlM (absorb hash) ⟨0, inner, false⟩ = some s ∧ Counted hash leaves s := by
  induction leaves using List.reverseRecOn with
  | nil =>
    refine ⟨_, rfl, rfl, by simp, fun level h => ?_, ?_⟩
    · simp at h
    · simp [not_flagged_nil]
  | append_singleton leaves leaf ih =>
    rw [List.length_append, List.length_singleton] at hlt
    obtain ⟨s, hs, hcounted⟩ := ih (Nat.lt_of_succ_lt hlt)
    obtain ⟨s', hs', hcounted'⟩ := counted_absorb leaf hcounted hlt
    refine ⟨s', ?_, hcounted'⟩
    rw [List.foldlM_append, hs]
    simpa using hs'

/-! ## The sweep -/

omit [DecidableEq α] in
theorem length_parents_iterate (leaves : List α) (k : Nat) :
    ((parents hash)^[k] leaves).length = (leaves.length + 2 ^ k - 1) / 2 ^ k := by
  induction k with
  | zero => simp
  | succ k ih =>
    have hpos := Nat.two_pow_pos k
    rw [Function.iterate_succ_apply', length_parents, ih, pow_succ, ← Nat.div_div_eq_div_mul]
    congr 1
    rw [← Nat.add_div_right _ hpos]
    congr 1
    omega

theorem skipLevel_spec (hpos : 0 < count) (hlt : count < 2 ^ 32) (hn : level + n = 32) (hdvd : 2 ^ level ∣ count) :
    ∃ k, skipLevel count n level = some k ∧ k < 32 ∧ 2 ^ k ∣ count ∧ count.testBit k = true := by
  induction n generalizing level with
  | zero =>
    obtain rfl : level = 32 := hn
    exact absurd (Nat.le_of_dvd hpos hdvd) (Nat.not_le.2 hlt)
  | succ n ih =>
    rw [skipLevel]
    cases hbit : count.testBit level with
    | true => exact ⟨level, rfl, by omega, hdvd, hbit⟩
    | false => exact ih (by omega) (pred_of_bit_zero hpos hdvd hbit).2

omit [DecidableEq α] in
theorem parents_iterate_eq (hdvd : 2 ^ k ∣ leaves.length) : (parents hash)^[k] leaves = (pairs hash)^[k] leaves := by
  induction k with
  | zero => rfl
  | succ k ih =>
    rw [Function.iterate_succ_apply', Function.iterate_succ_apply', ih ((pow_dvd_pow 2 (Nat.le_succ k)).trans hdvd),
      parents_eq_pairs]
    obtain ⟨q, hq⟩ := hdvd
    rw [length_pairs_iterate, hq, pow_succ, Nat.mul_assoc, Nat.mul_div_cancel_left _ (Nat.two_pow_pos k), Nat.mul_mod_right]

variable (hash leaves) in
/-- At level `k` the sweep has `h` behind the nodes of `m`, of which all but the last level's
    have their siblings, and `count` as if there were no other. -/
structure Sweeping (m : List α) (k count : Nat) (h : α) : Prop where
  node : (parents hash)^[k] leaves = m ++ [h]
  whole : pairs hash m = (pairs hash)^[k + 1] leaves
  even : m.length % 2 = 0
  counts : count = 2 ^ k * (m.length + 1)
  bounded : count ≤ 2 ^ 31
  first : ∀ j < k, 1 < ((parents hash)^[j] leaves).length

omit [DecidableEq α] in
/-- The nodes that are whole have their last one in `inner` where `h` has a sibling. -/
theorem climb_spec (hh : Holds hash leaves inner) (hn : k + n = 32)
    (hnode : (parents hash)^[k] leaves = (pairs hash)^[k] leaves ++ [h])
    (hcount : count = 2 ^ k * (((pairs hash)^[k] leaves).length + 1))
    (hle : count ≤ 2 ^ 31) (hfirst : ∀ j < k, 1 < ((parents hash)^[j] leaves).length) :
    ∃ level h', climb hash inner count n k h = some (level, h') ∧ k ≤ level ∧ level < 32 ∧
      Sweeping hash leaves ((pairs hash)^[level] leaves) level count h' := by
  have hpos := Nat.two_pow_pos k
  have hdiv : count / 2 ^ k = ((pairs hash)^[k] leaves).length + 1 := by rw [hcount, Nat.mul_div_cancel_left _ hpos]
  induction n generalizing k h with
  | zero =>
    obtain rfl : k = 32 := hn
    omega
  | succ n ih =>
    rw [climb]
    by_cases hbit : count.testBit k = true
    · rw [if_pos hbit]
      have hodd := testBit_iff.1 hbit
      rw [hdiv] at hodd
      exact ⟨k, h, rfl, le_rfl, by omega, hnode, (Function.iterate_succ_apply' _ _ _).symm, by omega, hcount, hle, hfirst⟩
    · rw [if_neg hbit]
      have hodd : leaves.length / 2 ^ k % 2 = 1 := by
        rw [testBit_iff, hdiv] at hbit
        rw [← length_pairs_iterate hash]
        omega
      obtain ⟨m, hm, heven⟩ := hh.exists_last hodd
      have hwhole : (pairs hash)^[k + 1] leaves = pairs hash m := by
        rw [Function.iterate_succ_apply', hm, pairs_append heven]
        simp [pairs]
      have hnode' : (parents hash)^[k + 1] leaves = (pairs hash)^[k + 1] leaves ++ [hash (inner k) h] := by
        rw [Function.iterate_succ_apply', hnode, hwhole, hm, List.append_assoc, parents_append heven]
        simp [parents]
      have hlen : ((pairs hash)^[k] leaves).length = m.length + 1 := by rw [hm, List.length_append, List.length_singleton]
      have hcount' : count = 2 ^ (k + 1) * (((pairs hash)^[k + 1] leaves).length + 1) := by
        rw [hwhole, length_pairs, hcount, hlen, pow_succ, Nat.mul_assoc]
        congr 1
        omega
      obtain ⟨level, h', hclimb, hk, hlevel, hs⟩ := ih (by omega) hnode' hcount' (by
        intro j hj
        rcases Nat.lt_succ_iff_lt_or_eq.1 hj with hj | rfl
        · exact hfirst j hj
        · rw [hnode, List.length_append, List.length_singleton, hlen]
          omega) (Nat.two_pow_pos _) (by rw [hcount', Nat.mul_div_cancel_left _ (Nat.two_pow_pos _)])
      exact ⟨level, h', hclimb, by omega, hlevel, hs⟩

omit [DecidableEq α] in
theorem sweep_root (hh : Holds hash leaves inner) (hs : Sweeping hash leaves m k count h) (hk : k < 32) (hn : 32 ≤ k + n) :
    ∃ root d, sweep hash inner n count k h = some root ∧ (parents hash)^[d] leaves = [root] ∧ d < 32 ∧
      ∀ j < d, 1 < ((parents hash)^[j] leaves).length := by
  induction n generalizing m k count h with
  | zero => omega
  | succ n ih =>
    have hpos := Nat.two_pow_pos k
    rw [sweep]
    by_cases hend : count = 2 ^ k
    · rw [if_pos hend]
      have hnil : m = [] := by
        have hone : 2 ^ k * (m.length + 1) = 2 ^ k * 1 := by rw [← hs.counts, hend, Nat.mul_one]
        have := Nat.eq_of_mul_eq_mul_left hpos hone
        exact List.length_eq_zero_iff.1 (by omega)
      exact ⟨h, k, rfl, by rw [hs.node, hnil, List.nil_append], hk, hs.first⟩
    · rw [if_neg hend]
      -- a level with more than one node is not the last of 31
      have hnode : (parents hash)^[k + 1] leaves = (pairs hash)^[k + 1] leaves ++ [hash h h] := by
        rw [Function.iterate_succ_apply', hs.node, parents_append hs.even, hs.whole]
        rfl
      have hlen : ((pairs hash)^[k + 1] leaves).length = m.length / 2 := by rw [← hs.whole, length_pairs]
      have hcount : count + 2 ^ k = 2 ^ (k + 1) * (((pairs hash)^[k + 1] leaves).length + 1) := by
        have heven := hs.even
        have hm : m.length + 2 = 2 * (m.length / 2 + 1) := by omega
        rw [hlen, hs.counts, pow_succ, Nat.mul_assoc, ← hm, ← Nat.mul_succ]
      have hmpos : 2 ≤ m.length := by
        by_contra hlt
        have heven := hs.even
        have hzero : m.length = 0 := by omega
        rw [hs.counts, hzero] at hend
        exact hend (Nat.mul_one _)
      have hle : count + 2 ^ k ≤ 2 ^ 31 := by
        have hk31 : k ≤ 31 := by omega
        have hsplit : 2 ^ 31 = 2 ^ k * 2 ^ (31 - k) := by rw [← pow_add, Nat.add_sub_cancel' hk31]
        have hbound : m.length + 1 ≤ 2 ^ (31 - k) := by
          have := hs.bounded
          rw [hs.counts, hsplit] at this
          exact Nat.le_of_mul_le_mul_left this hpos
        have hodd : 2 ^ (31 - k) % 2 = 0 := by
          cases hd : 31 - k with
          | zero => rw [hd] at hbound; omega
          | succ i => rw [pow_succ, Nat.mul_mod_left]
        have heven := hs.even
        rw [hs.counts, hsplit, ← Nat.mul_succ]
        exact Nat.mul_le_mul_left _ (by omega)
      have hmod : (count + 2 ^ k) % 2 ^ 32 = count + 2 ^ k := Nat.mod_eq_of_lt (by omega)
      have hkn : k + 1 + (31 - k) = 32 := by omega
      obtain ⟨level, h', hclimb, hlevel, hlt, hs'⟩ := climb_spec hh hkn hnode hcount hle (by
        intro j hj
        rcases Nat.lt_succ_iff_lt_or_eq.1 hj with hj | rfl
        · exact hs.first j hj
        · rw [hs.node, List.length_append, List.length_singleton]
          omega)
      simp only [hmod, hclimb, Option.bind_some]
      exact ih hs' hlt (by omega)

variable (hash) in
/-- Up to 2 ^ 31 leaves, the root of the tree and whether the leaves are flagged. -/
theorem computeMerkleRoot_some (hne : leaves ≠ []) (hle : leaves.length ≤ 2 ^ 31) (null : α) (inner : Nat → α) :
    ∃ root mutated d, computeMerkleRoot hash null inner leaves = some (root, mutated) ∧ (mutated = true ↔ Flagged hash leaves) ∧
      (parents hash)^[d] leaves = [root] ∧ d < 32 ∧ ∀ j < d, 1 < ((parents hash)^[j] leaves).length := by
  obtain ⟨s, hs, hcounted⟩ := counted_all hash (by omega : leaves.length < 2 ^ 32) inner
  have hpos : 0 < leaves.length := List.length_pos_iff.2 hne
  obtain ⟨k, hskip, hk, hdvd, hbit⟩ := skipLevel_spec hpos hcounted.lt (Nat.zero_add 32) (one_dvd _)
  obtain ⟨m, hm, heven⟩ := hcounted.holds.exists_last (testBit_iff.1 hbit)
  have hsweeping : Sweeping hash leaves m k leaves.length (s.inner k) := by
    refine ⟨?_, ?_, heven, ?_, hle, fun j hj => ?_⟩
    · rw [parents_iterate_eq hdvd, hm]
    · rw [Function.iterate_succ_apply', hm, pairs_append heven]
      simp [pairs]
    · have hlen : ((pairs hash)^[k] leaves).length = m.length + 1 := by rw [hm, List.length_append, List.length_singleton]
      rw [← hlen, length_pairs_iterate, Nat.mul_div_cancel' hdvd]
    · have hdvd' : 2 ^ (j + 1) ∣ leaves.length := (pow_dvd_pow 2 hj).trans hdvd
      obtain ⟨q, hq⟩ := hdvd'
      rw [parents_iterate_eq ((pow_dvd_pow 2 (Nat.le_of_lt hj)).trans hdvd), length_pairs_iterate, hq, pow_succ, Nat.mul_assoc,
        Nat.mul_div_cancel_left _ (Nat.two_pow_pos j)]
      have hqpos : 0 < q := by
        rw [hq] at hpos
        exact Nat.pos_of_mul_pos_left hpos
      omega
  obtain ⟨root, d, hroot, hlevel, hd, hfirst⟩ := sweep_root (n := 32) hcounted.holds hsweeping hk (by omega)
  refine ⟨root, s.mutated, d, ?_, hcounted.mutated, hlevel, hd, hfirst⟩
  rw [← hcounted.count] at hroot
  rw [← hcounted.count] at hskip
  simp only [computeMerkleRoot, if_neg hne, hs, Option.bind_some, hskip, hroot, Option.map_some]

/-! ## Overflow -/

theorem carry_zero : carry hash inner 0 n k h mutated = none := by
  induction n generalizing k h mutated with
  | zero => rfl
  | succ n ih =>
    rw [carry, Nat.zero_testBit, if_neg Bool.false_ne_true]
    exact ih

omit [DecidableEq α] in
theorem climb_zero : climb hash inner 0 n k h = none := by
  induction n generalizing k h with
  | zero => rfl
  | succ n ih =>
    rw [climb, Nat.zero_testBit, if_neg Bool.false_ne_true]
    exact ih

omit [DecidableEq α] in
theorem climb_dvd {r : Nat × α} (hpos : 0 < count) (hdvd : 2 ^ k ∣ count) (hclimb : climb hash inner count n k h = some r) :
    2 ^ r.1 ∣ count ∧ count.testBit r.1 = true ∧ r.1 < k + n := by
  induction n generalizing k h with
  | zero => cases hclimb
  | succ n ih =>
    rw [climb] at hclimb
    split at hclimb
    · rename_i hbit
      cases hclimb
      exact ⟨hdvd, hbit, by omega⟩
    · rename_i hbit
      obtain ⟨hd, hb, hlt⟩ := ih (pred_of_bit_zero hpos hdvd (by simpa using hbit)).2 hclimb
      exact ⟨hd, hb, by omega⟩

omit [DecidableEq α] in
theorem sweep_none (hlow : 2 ^ 31 < count) (hhigh : count < 2 ^ 32) (hdvd : 2 ^ k ∣ count) (hbit : count.testBit k = true)
    (hk : k < 32) :
    sweep hash inner n count k h = none := by
  induction n generalizing count k h with
  | zero => rfl
  | succ n ih =>
    have hpow : 2 ^ k ≤ 2 ^ 31 := Nat.pow_le_pow_right (by decide) (by omega)
    have hpos := Nat.two_pow_pos k
    rw [sweep, if_neg (by omega)]
    have hnext : count + 2 ^ k ≤ 2 ^ 32 ∧ 2 ^ (k + 1) ∣ count + 2 ^ k := by
      obtain ⟨q, rfl⟩ := hdvd
      have hodd := testBit_iff.1 hbit
      rw [Nat.mul_div_cancel_left q hpos] at hodd
      have hsplit : 2 ^ 32 = 2 ^ k * 2 ^ (32 - k) := by rw [← pow_add, Nat.add_sub_cancel' (by omega)]
      rw [hsplit] at hhigh ⊢
      rw [← Nat.mul_succ]
      refine ⟨Nat.mul_le_mul_left _ (Nat.lt_of_mul_lt_mul_left hhigh), ?_⟩
      rw [pow_succ]
      exact Nat.mul_dvd_mul_left _ (Nat.dvd_of_mod_eq_zero (by omega))
    rcases Nat.lt_or_eq_of_le hnext.1 with hlt | heq
    · have hmod : (count + 2 ^ k) % 2 ^ 32 = count + 2 ^ k := Nat.mod_eq_of_lt hlt
      simp only [hmod]
      cases hclimb : climb hash inner (count + 2 ^ k) (31 - k) (k + 1) (hash h h) with
      | none => rfl
      | some r =>
        obtain ⟨hd, hb, hr⟩ := climb_dvd (by omega) hnext.2 hclimb
        exact ih (by omega) hlt hd hb (by omega)
    · simp only [heq, Nat.mod_self, climb_zero, Option.bind_none]

theorem absorbAll_none (hle : 2 ^ 32 ≤ leaves.length) (inner : Nat → α) :
    leaves.foldlM (absorb hash) ⟨0, inner, false⟩ = none := by
  have hsplit : leaves = leaves.take (2 ^ 32 - 1) ++ leaves.drop (2 ^ 32 - 1) := (List.take_append_drop _ _).symm
  have hlen : (leaves.take (2 ^ 32 - 1)).length = 2 ^ 32 - 1 := by
    rw [List.length_take]
    omega
  obtain ⟨s, hs, hcounted⟩ := counted_all hash (by omega : (leaves.take (2 ^ 32 - 1)).length < 2 ^ 32) inner
  have hrest : 0 < (leaves.drop (2 ^ 32 - 1)).length := by
    rw [List.length_drop]
    omega
  obtain ⟨leaf, rest, hdrop⟩ := List.exists_cons_of_length_pos hrest
  have hcount : (s.count + 1) % 2 ^ 32 = 0 := by
    rw [hcounted.count, hlen]
    decide
  have hnone : absorb hash s leaf = none := by simp only [absorb, hcount, carry_zero, Option.map_none]
  rw [hsplit, List.foldlM_append, hs, hdrop]
  simp [hnone]

theorem computeMerkleRoot_none (hlt : 2 ^ 31 < leaves.length) (null : α) (inner : Nat → α) :
    computeMerkleRoot hash null inner leaves = none := by
  have hne : leaves ≠ [] := by
    rintro rfl
    simp at hlt
  rw [computeMerkleRoot, if_neg hne]
  rcases Nat.lt_or_ge leaves.length (2 ^ 32) with hlt' | hge
  · obtain ⟨s, hs, hcounted⟩ := counted_all hash hlt' inner
    obtain ⟨k, hskip, hk, hdvd, hbit⟩ := skipLevel_spec (by omega) hcounted.lt (Nat.zero_add 32) (one_dvd _)
    rw [hs, Option.bind_some, hcounted.count, hskip, Option.bind_some, sweep_none hlt hlt' hdvd hbit hk, Option.map_none]
  · rw [absorbAll_none hge, Option.bind_none]

/-! ## The recursion -/

omit [DecidableEq α] in
theorem getElem?_parents (leaves : List α) (pos : Nat) :
    (parents hash leaves)[pos]? = (leaves[2 * pos]?).map fun left => hash left ((leaves[2 * pos + 1]?).getD left) := by
  induction leaves using List.twoStepInduction generalizing pos with
  | nil => rfl
  | singleton x => cases pos <;> rfl
  | cons_cons x y leaves ih _ =>
    cases pos with
    | zero => rfl
    | succ pos =>
      rw [parents, List.getElem?_cons_succ, ih, Nat.mul_succ]
      rfl

omit [DecidableEq α] in
variable (hash) in
theorem calcTreeWidth_eq (hle : leaves.length ≤ 2 ^ 31) (hk : k < 32) :
    calcTreeWidth leaves k = ((parents hash)^[k] leaves).length := by
  have hpow : 2 ^ k ≤ 2 ^ 31 := Nat.pow_le_pow_right (by decide) (by omega)
  have hpos := Nat.two_pow_pos k
  rw [calcTreeWidth, length_parents_iterate, Nat.mod_eq_of_lt (by omega)]

omit [DecidableEq α] in
theorem calcHash_eq (hle : leaves.length ≤ 2 ^ 31) (hk : k < 32) (pos : Nat) :
    calcHash hash leaves k pos = ((parents hash)^[k] leaves)[pos]? := by
  induction k generalizing pos with
  | zero => rfl
  | succ k ih =>
    have hk' : k < 32 := by omega
    rw [calcHash, ih hk', calcTreeWidth_eq hash hle hk', ih hk', Function.iterate_succ_apply', getElem?_parents]
    cases hleft : ((parents hash)^[k] leaves)[2 * pos]? with
    | none => rfl
    | some left =>
      rw [Option.bind_some, Option.map_some]
      split
      · rename_i hlt
        rw [List.getElem?_eq_getElem hlt, Option.map_some, Option.getD_some]
      · rename_i hge
        rw [List.getElem?_eq_none (Nat.le_of_not_lt hge), Option.getD_none]

omit [DecidableEq α] in
variable (hash) in
theorem heightFrom_eq (hle : leaves.length ≤ 2 ^ 31) (hd : d < 32) (hroot : ((parents hash)^[d] leaves).length ≤ 1)
    (hfirst : ∀ j < d, 1 < ((parents hash)^[j] leaves).length) (hk : k ≤ d) (hn : d < k + n) : heightFrom leaves n k = d := by
  induction n generalizing k with
  | zero => omega
  | succ n ih =>
    rw [heightFrom, calcTreeWidth_eq hash hle (by omega)]
    rcases Nat.lt_or_eq_of_le hk with hlt | rfl
    · rw [if_pos (hfirst k hlt)]
      exact ih hlt (by omega)
    · rw [if_neg (by omega)]

variable (hash) in
theorem computeMerkleRoot_eq (hne : leaves ≠ []) (hle : leaves.length ≤ 2 ^ 31) (null : α) (inner : Nat → α) :
    ∃ root mutated d, computeMerkleRoot hash null inner leaves = some (root, mutated) ∧ (mutated = true ↔ Flagged hash leaves) ∧
      (parents hash)^[d] leaves = [root] ∧ calcRoot hash leaves = some root := by
  obtain ⟨root, mutated, d, hcompute, hflag, hlevel, hd, hfirst⟩ := computeMerkleRoot_some hash hne hle null inner
  refine ⟨root, mutated, d, hcompute, hflag, hlevel, ?_⟩
  rw [calcRoot, heightFrom_eq hash hle hd (by rw [hlevel]; rfl) hfirst (Nat.zero_le d) (by omega), calcHash_eq hle hd, hlevel]
  rfl

end Leaves

/-! ## What stands for a list of transactions -/

/-- The merkle root in `CheckBlock`, over the ids of a block's transactions. -/
def checkMerkleRoot (null : α) (inner : Nat → α) (hashMerkleRoot : α) (vtx : List α) : Option (Except String Unit) :=
  (computeMerkleRoot hash null inner vtx).map fun (hashMerkleRoot2, mutated) =>
    if hashMerkleRoot ≠ hashMerkleRoot2 then .error "bad-txnmrklroot"
    else if mutated then .error "bad-txns-duplicate"
    else .ok ()

variable {hash} {null hashMerkleRoot : α} {inner inner' : Nat → α} {leaves leaves' : List α}

variable (hash null) in
/-- The one pass has the root of the recursion, and lists with one root that it does not flag are equal. -/
structure Detects (inner inner' : Nat → α) (leaves leaves' : List α) : Prop where
  root : ∃ root mutated, calcRoot hash leaves = some root ∧ computeMerkleRoot hash null inner leaves = some (root, mutated)
  root' : ∃ root mutated, calcRoot hash leaves' = some root ∧ computeMerkleRoot hash null inner' leaves' = some (root, mutated)
  unique : ∀ root, computeMerkleRoot hash null inner leaves = some (root, false) →
    computeMerkleRoot hash null inner' leaves' = some (root, false) → leaves = leaves'

theorem length_le_of_some {r : α × Bool} (h : computeMerkleRoot hash null inner leaves = some r) : leaves.length ≤ 2 ^ 31 := by
  by_contra hlt
  rw [computeMerkleRoot_none (Nat.lt_of_not_le hlt)] at h
  cases h

theorem leaves_eq (hinj : Function.Injective2 hash) (hleaf : ∀ x ∈ leaves ++ leaves', ∀ a b, x ≠ hash a b) (hne : leaves ≠ [])
    (hne' : leaves' ≠ []) {root : α} (h : computeMerkleRoot hash null inner leaves = some (root, false))
    (h' : computeMerkleRoot hash null inner' leaves' = some (root, false)) : leaves = leaves' := by
  obtain ⟨r, m, d, hr, hflag, hd, -⟩ := computeMerkleRoot_eq hash hne (length_le_of_some h) null inner
  obtain ⟨r', m', d', hr', hflag', hd', -⟩ := computeMerkleRoot_eq hash hne' (length_le_of_some h') null inner'
  rw [h] at hr
  rw [h'] at hr'
  cases hr
  cases hr'
  refine eq_of_root_eq hinj (fun x hx => .leaf (hleaf x (by simp [hx]))) (fun x hx => .leaf (hleaf x (by simp [hx]))) hd hd' ?_ ?_
  · exact fun hf => Bool.false_ne_true (hflag.2 hf)
  · exact fun hf => Bool.false_ne_true (hflag'.2 hf)

/-- Two blocks with one merkle root that pass the check have the same transactions. -/
theorem checkMerkleRoot_unique (hinj : Function.Injective2 hash) (hleaf : ∀ x ∈ leaves ++ leaves', ∀ a b, x ≠ hash a b)
    (hne : leaves ≠ [])
    (hne' : leaves' ≠ []) (h : checkMerkleRoot hash null inner hashMerkleRoot leaves = some (.ok ()))
    (h' : checkMerkleRoot hash null inner' hashMerkleRoot leaves' = some (.ok ())) : leaves = leaves' := by
  have hpass {inner : Nat → α} {l : List α} (hl : checkMerkleRoot hash null inner hashMerkleRoot l = some (.ok ())) :
      computeMerkleRoot hash null inner l = some (hashMerkleRoot, false) := by
    unfold checkMerkleRoot at hl
    obtain ⟨⟨root, mutated⟩, hr, hif⟩ := Option.map_eq_some_iff.1 hl
    dsimp only at hif
    split_ifs at hif with hroot hm
    rw [hr, not_ne_iff.1 hroot, Bool.eq_false_of_not_eq_true hm]
  exact leaves_eq hinj hleaf hne hne' (hpass h) (hpass h')

/-- With a hash that determines its pair and is no leaf, what is meant holds of two lists
    exactly if none has more than 2 ^ 31 leaves. -/
theorem detects_iff (hinj : Function.Injective2 hash) (hleaf : ∀ x ∈ leaves ++ leaves', ∀ a b, x ≠ hash a b) (hne : leaves ≠ [])
    (hne' : leaves' ≠ []) (inner inner' : Nat → α) :
    Detects hash null inner inner' leaves leaves' ↔ leaves.length ≤ 2 ^ 31 ∧ leaves'.length ≤ 2 ^ 31 := by
  constructor
  · rintro ⟨⟨_, _, _, h⟩, ⟨_, _, _, h'⟩, -⟩
    exact ⟨length_le_of_some h, length_le_of_some h'⟩
  · rintro ⟨hle, hle'⟩
    obtain ⟨r, m, d, hr, -, -, hcalc⟩ := computeMerkleRoot_eq hash hne hle null inner
    obtain ⟨r', m', d', hr', -, -, hcalc'⟩ := computeMerkleRoot_eq hash hne' hle' null inner'
    exact ⟨⟨r, m, hcalc, hr⟩, ⟨r', m', hcalc', hr'⟩, fun root h h' => leaves_eq hinj hleaf hne hne' h h'⟩

/-! ## Samples -/

def evenHash (a b : Nat) : Nat := 2 * Nat.pair a b

theorem evenHash_injective : Function.Injective2 evenHash := by
  intro a c b d h
  exact Nat.pair_eq_pair.1 (Nat.eq_of_mul_eq_mul_left (by decide) h)

theorem odd_ne_evenHash {x : Nat} (hx : x % 2 = 1) (a b : Nat) : x ≠ evenHash a b := by
  rintro rfl
  rw [evenHash, Nat.mul_mod_right] at hx
  cases hx

/-- Three leaves, and the same with the last one twice: the second list is flagged. -/
theorem repeated_leaf_is_detected :
    Detects evenHash 0 (fun _ => 0) (fun _ => 0) [1, 3, 5] [1, 3, 5, 5] ↔ [1, 3, 5].length ≤ 2 ^ 31 ∧
      [1, 3, 5, 5].length ≤ 2 ^ 31 :=
  detects_iff evenHash_injective (fun x hx a b => odd_ne_evenHash (by revert x; decide) a b) (by decide) (by decide) _ _

/-- One leaf more than 2 ^ 31. -/
theorem many_leaves_overflow : ¬ ∀ (hash : Nat → Nat → Nat) (null : Nat) (inner inner' : Nat → Nat) (leaves leaves' : List Nat),
    Function.Injective2 hash → (∀ x ∈ leaves ++ leaves', ∀ a b, x ≠ hash a b) → leaves ≠ [] → leaves' ≠ [] →
      leaves.length ≤ 2 ^ 32 → leaves'.length ≤ 2 ^ 32 → Detects hash null inner inner' leaves leaves' := by
  intro h
  have hlen : (List.replicate (2 ^ 31 + 1) 1).length = 2 ^ 31 + 1 := List.length_replicate
  have hone : ∀ x ∈ List.replicate (2 ^ 31 + 1) 1 ++ [1], x = 1 := by
    intro x hx
    rcases List.mem_append.1 hx with hx | hx
    · exact (List.mem_replicate.1 hx).2
    · exact List.mem_singleton.1 hx
  have hne : List.replicate (2 ^ 31 + 1) 1 ≠ [] := List.ne_nil_of_length_pos (by rw [hlen]; omega)
  obtain ⟨⟨_, _, _, hsome⟩, -, -⟩ := h evenHash 0 (fun _ => 0) (fun _ => 0) (List.replicate (2 ^ 31 + 1) 1) [1] evenHash_injective
    (fun x hx a b => odd_ne_evenHash (by rw [hone x hx]) a b) hne (by decide) (by rw [hlen]; decide) (by decide)
  have := length_le_of_some hsome
  omega

end Zumy.Consensus
