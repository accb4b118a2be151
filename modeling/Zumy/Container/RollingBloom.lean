/-
  Zumy.Container.RollingBloom — bloom.cpp: `CRollingBloomFilter`, two filters that are cleared in
  turn, so that one of them always contains the keys inserted last.

  The sizes of the filters come from floating-point formulas and are parameters. The number of
  elements is doubled in 32 bits.

  - `window_step`: which keys each filter covers, in every phase.
  - `window_run`: the last `nElements` keys are contained.
-/
import Zumy.Container.Bloom

namespace Zumy.Bloom

open Zumy.Lib

structure CRollingBloomFilter where
  nBloomSize : Nat
  nInsertions : Nat
  b1 : CBloomFilter
  b2 : CBloomFilter

namespace CRollingBloomFilter

/-- A filter with `size` zero bytes -/
def fresh (size : Nat) (nHashFuncs : UInt32) (nTweak : UInt32) : CBloomFilter :=
  ⟨List.replicate size 0, false, true, nHashFuncs, nTweak, 0⟩

/-- The private constructor of the filters divides by twice the number of elements. -/
def new (nElements size : Nat) (nHashFuncs nNewTweak : UInt32) : Option CRollingBloomFilter :=
  let nBloomSize := nElements * 2 % 2 ^ 32
  if nBloomSize = 0 then none
  else some ⟨nBloomSize, 0, (fresh size nHashFuncs 0).reset nNewTweak, (fresh size nHashFuncs 0).reset nNewTweak⟩

variable (murmurHash3 : UInt32 → List UInt8 → UInt32)

def insert (r : CRollingBloomFilter) (vKey : List UInt8) : Option CRollingBloomFilter := do
  let b1 := if r.nInsertions = 0 then r.b1.clear else r.b1
  let b2 := if r.nInsertions ≠ 0 ∧ r.nInsertions = r.nBloomSize / 2 then r.b2.clear else r.b2
  let b1 ← b1.insert murmurHash3 vKey
  let b2 ← b2.insert murmurHash3 vKey
  let nInsertions := (r.nInsertions + 1) % 2 ^ 32
  return { r with b1 := b1, b2 := b2, nInsertions := if nInsertions = r.nBloomSize then 0 else nInsertions }

def contains (r : CRollingBloomFilter) (vKey : List UInt8) : Option Bool :=
  if r.nInsertions < r.nBloomSize / 2 then r.b2.contains murmurHash3 vKey else r.b1.contains murmurHash3 vKey

end CRollingBloomFilter

def Window (murmurHash3 : UInt32 → List UInt8 → UInt32) (nElements : Nat) (r : CRollingBloomFilter) : Prop :=
  ∀ keys : List (List UInt8), ∃ r', run (CRollingBloomFilter.insert murmurHash3) r keys = some r' ∧
    ∀ vKey ∈ keys.drop (keys.length - nElements), r'.contains murmurHash3 vKey = some true

/-! ## The window -/

section Window

variable {murmurHash3 : UInt32 → List UInt8 → UInt32} {r : CRollingBloomFilter} {b : CBloomFilter} {n : Nat} {log : List (List UInt8)}

/-- A filter that is never full and has bits, and covers the `m` newest keys. The newest key comes first. -/
structure CoversLast (murmurHash3 : UInt32 → List UInt8 → UInt32) (b : CBloomFilter) (log : List (List UInt8)) (m : Nat) : Prop where
  data : b.vData ≠ []
  covers : ∀ vKey ∈ log.take m, b.Covers murmurHash3 vKey

theorem grows_data {b' : CBloomFilter} (h : CBloomFilter.Grows b b') (hdata : b.vData ≠ []) : b'.vData ≠ [] := by
  intro hnil
  apply hdata
  apply List.eq_nil_of_length_eq_zero
  rw [← h.length, hnil]
  rfl

theorem CoversLast.insert {m : Nat} (h : CoversLast murmurHash3 b log m) (vKey : List UInt8) :
    ∃ b', b.insert murmurHash3 vKey = some b' ∧ CoversLast murmurHash3 b' (vKey :: log) (m + 1) := by
  obtain ⟨b', hb', hgrows, hcovers⟩ := CBloomFilter.insert_spec murmurHash3 (Or.inr h.data) vKey
  refine ⟨b', hb', grows_data hgrows h.data, ?_⟩
  rw [List.take_succ_cons]
  exact List.forall_mem_cons.2 ⟨hcovers, fun vKey hmem => hgrows.covers (h.covers vKey hmem)⟩

theorem CoversLast.mono {m k : Nat} (h : CoversLast murmurHash3 b log m) (hk : k ≤ m) : CoversLast murmurHash3 b log k :=
  ⟨h.data, fun vKey hmem => h.covers vKey ((List.take_subset_take_left log hk) hmem)⟩

theorem clear_data (h : b.vData ≠ []) : b.clear.vData ≠ [] := by
  intro hnil
  have hlen := congrArg List.length hnil
  rw [CBloomFilter.clear, List.length_replicate] at hlen
  exact h (List.eq_nil_of_length_eq_zero hlen)

theorem coversLast_clear (h : b.vData ≠ []) : CoversLast murmurHash3 b.clear log 0 := ⟨clear_data h, by simp⟩

/-- The phases: the first filter is cleared at 0, the second one half a round later. -/
structure Phase (murmurHash3 : UInt32 → List UInt8 → UInt32) (n : Nat) (log : List (List UInt8)) (r : CRollingBloomFilter) : Prop where
  size : r.nBloomSize = 2 * n
  lt : r.nInsertions < 2 * n
  first : CoversLast murmurHash3 r.b1 log r.nInsertions
  second : CoversLast murmurHash3 r.b2 log (if r.nInsertions ≤ n then n + r.nInsertions else r.nInsertions - n)

theorem window_step (hn : n < 2 ^ 31) (h : Phase murmurHash3 n log r) (vKey : List UInt8) :
    ∃ r', r.insert murmurHash3 vKey = some r' ∧ Phase murmurHash3 n (vKey :: log) r' := by
  have hsize := h.size
  have hlt := h.lt
  have hhalf : r.nBloomSize / 2 = n := by rw [h.size, Nat.mul_div_cancel_left n (by decide)]
  have hfirst : CoversLast murmurHash3 (if r.nInsertions = 0 then r.b1.clear else r.b1) log r.nInsertions := by
    split
    · rename_i hzero
      rw [hzero]
      exact coversLast_clear h.first.data
    · exact h.first
  have hsecond : CoversLast murmurHash3 (if r.nInsertions ≠ 0 ∧ r.nInsertions = r.nBloomSize / 2 then r.b2.clear else r.b2) log
      (if r.nInsertions < n then n + r.nInsertions else r.nInsertions - n) := by
    rw [hhalf]
    split
    · rename_i hclear
      have hge : ¬ r.nInsertions < n := by omega
      rw [if_neg hge, hclear.2, Nat.sub_self]
      exact coversLast_clear h.second.data
    · refine h.second.mono ?_
      split <;> split <;> omega
  obtain ⟨b1, hb1, hcovers1⟩ := hfirst.insert vKey
  obtain ⟨b2, hb2, hcovers2⟩ := hsecond.insert vKey
  have hmod : (r.nInsertions + 1) % 2 ^ 32 = r.nInsertions + 1 := Nat.mod_eq_of_lt (by omega)
  refine ⟨⟨r.nBloomSize, if r.nInsertions + 1 = r.nBloomSize then 0 else r.nInsertions + 1, b1, b2⟩, ?_, h.size, ?_, ?_, ?_⟩
  · unfold CRollingBloomFilter.insert
    dsimp only
    rw [hb1, hb2, hmod]
    rfl
  · show (if r.nInsertions + 1 = r.nBloomSize then 0 else r.nInsertions + 1) < 2 * n
    split <;> omega
  · refine hcovers1.mono ?_
    dsimp only
    split <;> omega
  · refine hcovers2.mono ?_
    dsimp only
    rw [h.size]
    split <;> split <;> split <;> omega

theorem Phase.contains (h : Phase murmurHash3 n log r) {vKey : List UInt8} (hmem : vKey ∈ log.take n) :
    r.contains murmurHash3 vKey = some true := by
  have hhalf : r.nBloomSize / 2 = n := by rw [h.size, Nat.mul_div_cancel_left n (by decide)]
  unfold CRollingBloomFilter.contains
  rw [hhalf]
  split
  · rename_i hlt
    have hcovers := h.second.mono (k := n) (by rw [if_pos hlt.le]; exact Nat.le_add_right n _)
    exact CBloomFilter.contains_of_covers (Or.inr hcovers.data) (hcovers.covers vKey hmem)
  · rename_i hge
    have hcovers := h.first.mono (k := n) (not_lt.1 hge)
    exact CBloomFilter.contains_of_covers (Or.inr hcovers.data) (hcovers.covers vKey hmem)

theorem phase_run (hn : n < 2 ^ 31) (h : Phase murmurHash3 n log r) (keys : List (List UInt8)) :
    ∃ r', run (CRollingBloomFilter.insert murmurHash3) r keys = some r' ∧ Phase murmurHash3 n (keys.reverse ++ log) r' := by
  induction keys generalizing r log with
  | nil => exact ⟨r, rfl, h⟩
  | cons vKey keys ih =>
    obtain ⟨r', hr', hphase⟩ := window_step hn h vKey
    obtain ⟨r'', hr'', hphase'⟩ := ih hphase
    refine ⟨r'', by rw [run_cons, hr']; exact hr'', ?_⟩
    rw [List.reverse_cons, List.append_assoc]
    exact hphase'

theorem fresh_data {size : Nat} {nHashFuncs nNewTweak : UInt32} (hsize : 0 < size) :
    ((CRollingBloomFilter.fresh size nHashFuncs 0).reset nNewTweak).vData ≠ [] := by
  intro hnil
  have hlen := congrArg List.length hnil
  simp [CBloomFilter.reset, CBloomFilter.clear, CRollingBloomFilter.fresh] at hlen
  omega

theorem phase_new {nElements size : Nat} {nHashFuncs nNewTweak : UInt32} (hn : nElements < 2 ^ 31) (hsize : 0 < size)
    (h : CRollingBloomFilter.new nElements size nHashFuncs nNewTweak = some r) : Phase murmurHash3 nElements [] r := by
  have hmod : nElements * 2 % 2 ^ 32 = nElements * 2 := Nat.mod_eq_of_lt (by omega)
  unfold CRollingBloomFilter.new at h
  dsimp only at h
  rw [hmod] at h
  split at h
  · cases h
  · cases h
    have hdata : ((CRollingBloomFilter.fresh size nHashFuncs 0).reset nNewTweak).vData ≠ [] := fresh_data hsize
    exact ⟨Nat.mul_comm _ _, by dsimp only; omega, ⟨hdata, by simp⟩, ⟨hdata, by simp⟩⟩

theorem window_run {nElements size : Nat} {nHashFuncs nNewTweak : UInt32} (hn : nElements < 2 ^ 31) (hsize : 0 < size)
    (h : CRollingBloomFilter.new nElements size nHashFuncs nNewTweak = some r) : Window murmurHash3 nElements r := by
  intro keys
  obtain ⟨r', hr', hphase⟩ := phase_run hn (phase_new hn hsize h) keys
  refine ⟨r', hr', fun vKey hmem => hphase.contains ?_⟩
  rw [List.append_nil, List.take_reverse]
  exact List.mem_reverse.2 hmem

/-! ## Without hash functions -/

/-- Filters without hash functions contain every key, once they are not empty. -/
structure NoHash (r : CRollingBloomFilter) : Prop where
  data1 : r.b1.vData ≠ []
  data2 : r.b2.vData ≠ []
  funcs1 : r.b1.nHashFuncs = 0
  funcs2 : r.b2.nHashFuncs = 0

theorem noHash_insert (hdata : b.vData ≠ []) (hfuncs : b.nHashFuncs = 0) (vKey : List UInt8) :
    ∃ b', b.insert murmurHash3 vKey = some b' ∧ b'.vData ≠ [] ∧ b'.nHashFuncs = 0 ∧ ∀ key, b'.Covers murmurHash3 key := by
  obtain ⟨b', hb', hgrows, hcovers⟩ := CBloomFilter.insert_spec murmurHash3 (Or.inr hdata) vKey
  have hzero : b'.nHashFuncs = 0 := hgrows.nHashFuncs.trans hfuncs
  refine ⟨b', hb', grows_data hgrows hdata, hzero, fun key => ?_⟩
  rcases hcovers with hfull | ⟨hempty, -⟩
  · exact Or.inl hfull
  · refine Or.inr ⟨hempty, fun i hi => ?_⟩
    rw [hzero] at hi
    exact absurd hi (Nat.not_lt_zero i)

theorem contains_of_both {key : List UInt8} (h1 : r.b1.contains murmurHash3 key = some true)
    (h2 : r.b2.contains murmurHash3 key = some true) : r.contains murmurHash3 key = some true := by
  unfold CRollingBloomFilter.contains
  split
  · exact h2
  · exact h1

theorem noHash_step (h : NoHash r) (vKey : List UInt8) : ∃ r', r.insert murmurHash3 vKey = some r' ∧ NoHash r' ∧
    ∀ key, r'.contains murmurHash3 key = some true := by
  have hfirst : (if r.nInsertions = 0 then r.b1.clear else r.b1).vData ≠ [] ∧
      (if r.nInsertions = 0 then r.b1.clear else r.b1).nHashFuncs = 0 := by
    split
    · exact ⟨clear_data h.data1, h.funcs1⟩
    · exact ⟨h.data1, h.funcs1⟩
  have hsecond : (if r.nInsertions ≠ 0 ∧ r.nInsertions = r.nBloomSize / 2 then r.b2.clear else r.b2).vData ≠ [] ∧
      (if r.nInsertions ≠ 0 ∧ r.nInsertions = r.nBloomSize / 2 then r.b2.clear else r.b2).nHashFuncs = 0 := by
    split
    · exact ⟨clear_data h.data2, h.funcs2⟩
    · exact ⟨h.data2, h.funcs2⟩
  obtain ⟨b1, hb1, hdata1, hfuncs1, hcovers1⟩ := noHash_insert hfirst.1 hfirst.2 vKey
  obtain ⟨b2, hb2, hdata2, hfuncs2, hcovers2⟩ := noHash_insert hsecond.1 hsecond.2 vKey
  unfold CRollingBloomFilter.insert
  dsimp only
  rw [hb1, hb2]
  refine ⟨_, rfl, ⟨hdata1, hdata2, hfuncs1, hfuncs2⟩, fun key => contains_of_both ?_ ?_⟩
  · exact CBloomFilter.contains_of_covers (Or.inr hdata1) (hcovers1 key)
  · exact CBloomFilter.contains_of_covers (Or.inr hdata2) (hcovers2 key)

theorem noHash_window (h : NoHash r) (nElements : Nat) : Window murmurHash3 nElements r := by
  have hrun : ∀ keys (r : CRollingBloomFilter), NoHash r → ∃ r', run (CRollingBloomFilter.insert murmurHash3) r keys = some r' ∧
      NoHash r' ∧ (keys ≠ [] → ∀ key, r'.contains murmurHash3 key = some true) := by
    intro keys
    induction keys using List.reverseRecOn with
    | nil => exact fun r h => ⟨r, rfl, h, fun hne => absurd rfl hne⟩
    | append_singleton keys vKey ih =>
      intro r h
      obtain ⟨r', hr', hlive, -⟩ := ih r h
      obtain ⟨r'', hr'', hlive', hcontains⟩ := noHash_step hlive vKey
      refine ⟨r'', ?_, hlive', fun _ => hcontains⟩
      rw [run_append, hr', Option.bind_some, run_cons, hr'']
      rfl
  intro keys
  obtain ⟨r', hr', -, hcontains⟩ := hrun keys r h
  refine ⟨r', hr', fun vKey hmem => hcontains ?_ vKey⟩
  rintro rfl
  simp at hmem

theorem noHash_new {nElements size : Nat} {nHashFuncs nNewTweak : UInt32} (hsize : 0 < size) (hfuncs : nHashFuncs = 0)
    (h : CRollingBloomFilter.new nElements size nHashFuncs nNewTweak = some r) : NoHash r := by
  unfold CRollingBloomFilter.new at h
  dsimp only at h
  split at h
  · cases h
  · cases h
    exact ⟨fresh_data hsize, fresh_data hsize, hfuncs, hfuncs⟩

/-! ## A doubled number that wraps -/

def emptyHash (_ : UInt32) (vKey : List UInt8) : UInt32 := if vKey = [] then 0 else 1

structure Lost (n : Nat) (r : CRollingBloomFilter) : Prop where
  size : r.nBloomSize = 2 * n
  data1 : r.b1.vData ≠ []
  data2 : r.b2.vData ≠ []
  open1 : r.b1.isFull = false
  open2 : r.b2.isFull = false
  funcs : r.b2.nHashFuncs ≠ 0
  forgotten : n < r.nInsertions ∨ r.nInsertions = 0 → r.b2.isEmpty = false ∧ hasBit r.b2.vData 0 = false

theorem index_emptyHash (hdata : b.vData ≠ []) (i : Nat) : b.index emptyHash [] i = 0 ∧ b.index emptyHash [1] i = 1 := by
  have hlen : b.vData.length ≠ 0 := fun hlen => hdata (List.eq_nil_of_length_eq_zero hlen)
  constructor
  · exact Nat.zero_mod _
  · exact Nat.mod_eq_of_lt (show 1 < b.vData.length * 8 by omega)

theorem insert_other (hfull : b.isFull = false) (hdata : b.vData ≠ []) : ∃ b', b.insert emptyHash [1] = some b' ∧ b'.vData ≠ [] ∧
    b'.isFull = false ∧ b'.nHashFuncs = b.nHashFuncs ∧ b'.isEmpty = false ∧ hasBit b'.vData 0 = hasBit b.vData 0 := by
  have hother : ∀ p ∈ b.keyBits emptyHash [1], p = 1 := by
    intro p hp
    obtain ⟨i, -, rfl⟩ := List.mem_map.1 hp
    exact (index_emptyHash hdata i).2
  have hlt : ∀ p ∈ b.keyBits emptyHash [1], p < b.vData.length * 8 := by
    intro p hp
    obtain ⟨i, -, rfl⟩ := List.mem_map.1 hp
    exact CBloomFilter.index_lt hdata i
  have hnot : 0 ∉ b.keyBits emptyHash [1] := fun hmem => absurd (hother 0 hmem) (by decide)
  refine ⟨_, CBloomFilter.insert_eq hfull hdata, fun hnil => hdata ?_, hfull, rfl, rfl, ?_⟩
  · exact List.eq_nil_of_length_eq_zero (length_orBits.symm.trans (congrArg List.length hnil))
  · rw [hasBit_orBits hlt, decide_eq_false hnot, Bool.or_false]

theorem lost_step (hn : n < 2 ^ 31) (h : Lost n r) (hpos : 0 < r.nInsertions) (hlt : r.nInsertions < 2 * n) :
    ∃ r', r.insert emptyHash [1] = some r' ∧ Lost n r' ∧ r'.nInsertions = if r.nInsertions + 1 = 2 * n then 0 else r.nInsertions + 1 := by
  have hhalf : r.nBloomSize / 2 = n := by rw [h.size, Nat.mul_div_cancel_left n (by decide)]
  have hmod : (r.nInsertions + 1) % 2 ^ 32 = r.nInsertions + 1 := Nat.mod_eq_of_lt (by omega)
  obtain ⟨b1, hb1, hdata1, hopen1, -, -, -⟩ := insert_other h.open1 h.data1
  by_cases hclear : r.nInsertions = n
  · obtain ⟨b2, hb2, hdata2, hopen2, hfuncs, hempty, hbit⟩ := insert_other (b := r.b2.clear) rfl (clear_data h.data2)
    have hzero : hasBit b2.vData 0 = false := hbit.trans hasBit_replicate
    refine ⟨⟨r.nBloomSize, if r.nInsertions + 1 = 2 * n then 0 else r.nInsertions + 1, b1, b2⟩, ?_, ?_, rfl⟩
    · unfold CRollingBloomFilter.insert
      dsimp only
      rw [if_neg (by omega), if_pos ⟨by omega, hclear.trans hhalf.symm⟩, hb1, hb2, hmod, h.size]
      rfl
    · exact ⟨h.size, hdata1, hdata2, hopen1, hopen2, by rw [hfuncs]; exact h.funcs, fun _ => ⟨hempty, hzero⟩⟩
  · obtain ⟨b2, hb2, hdata2, hopen2, hfuncs, hempty, hbit⟩ := insert_other h.open2 h.data2
    refine ⟨⟨r.nBloomSize, if r.nInsertions + 1 = 2 * n then 0 else r.nInsertions + 1, b1, b2⟩, ?_, ?_, rfl⟩
    · unfold CRollingBloomFilter.insert
      dsimp only
      rw [if_neg (by omega), if_neg (by rw [hhalf]; exact fun h => hclear h.2), hb1, hb2, hmod, h.size]
      rfl
    · refine ⟨h.size, hdata1, hdata2, hopen1, hopen2, by rw [hfuncs]; exact h.funcs, fun hphase => ⟨hempty, ?_⟩⟩
      have hpast : n < r.nInsertions := by
        dsimp only at hphase
        split at hphase <;> omega
      rw [hbit]
      exact (h.forgotten (Or.inl hpast)).2

theorem lost_run (hn : n < 2 ^ 31) (k : Nat) (h : Lost n r) (hpos : 0 < r.nInsertions) (hk : r.nInsertions + k + 1 = 2 * n) :
    ∃ r', run (CRollingBloomFilter.insert emptyHash) r (List.replicate (k + 1) [1]) = some r' ∧ Lost n r' ∧ r'.nInsertions = 0 := by
  induction k generalizing r with
  | zero =>
    obtain ⟨r', hr', hlost, hcount⟩ := lost_step hn h hpos (by omega)
    rw [if_pos (by omega)] at hcount
    exact ⟨r', by rw [List.replicate_succ, run_cons, hr']; rfl, hlost, hcount⟩
  | succ k ih =>
    obtain ⟨r', hr', hlost, hcount⟩ := lost_step hn h hpos (by omega)
    rw [if_neg (by omega)] at hcount
    obtain ⟨r'', hr'', hlost', hzero⟩ := ih hlost (by omega) (by omega)
    exact ⟨r'', by rw [List.replicate_succ, run_cons, hr']; exact hr'', hlost', hzero⟩

theorem Lost.contains (h : Lost n r) (hn : 0 < n) (hzero : r.nInsertions = 0) : r.contains emptyHash [] = some false := by
  obtain ⟨hempty, hbit⟩ := h.forgotten (Or.inr hzero)
  have hhalf : r.nBloomSize / 2 = n := by rw [h.size, Nat.mul_div_cancel_left n (by decide)]
  have hpos : 0 < r.b2.nHashFuncs.toNat := Nat.pos_of_ne_zero fun hzero => h.funcs (UInt32.toNat_inj.1 hzero)
  unfold CRollingBloomFilter.contains CBloomFilter.contains
  rw [hzero, hhalf, if_pos hn, h.open2, hempty, if_neg Bool.false_ne_true, if_neg Bool.false_ne_true, CBloomFilter.allBits_eq h.data2]
  refine congrArg some (List.all_eq_false.2 ⟨0, List.mem_range.2 hpos, ?_⟩)
  rw [(index_emptyHash h.data2 0).1, hbit]
  exact Bool.false_ne_true

theorem lost_start {n size : Nat} {nHashFuncs nNewTweak : UInt32} (hn : 0 < n) (hsize : 0 < size) (hfuncs : nHashFuncs ≠ 0) :
    ∃ r, CRollingBloomFilter.insert emptyHash ⟨2 * n, 0, (CRollingBloomFilter.fresh size nHashFuncs 0).reset nNewTweak,
      (CRollingBloomFilter.fresh size nHashFuncs 0).reset nNewTweak⟩ [] = some r ∧ Lost n r ∧ r.nInsertions = 1 := by
  have hdata : ((CRollingBloomFilter.fresh size nHashFuncs 0).reset nNewTweak).vData ≠ [] := fresh_data hsize
  obtain ⟨b1, hb1, hgrows1, -⟩ := CBloomFilter.insert_spec emptyHash (Or.inr (clear_data hdata)) []
  obtain ⟨b2, hb2, hgrows2, -⟩ := CBloomFilter.insert_spec emptyHash (Or.inr hdata) []
  refine ⟨⟨2 * n, 1, b1, b2⟩, ?_, ?_, rfl⟩
  · unfold CRollingBloomFilter.insert
    dsimp only
    rw [if_pos rfl, if_neg (fun h => h.1 rfl), hb1, hb2]
    have hnot : ¬ (0 + 1) % 2 ^ 32 = 2 * n := by omega
    rw [if_neg hnot]
    rfl
  · refine ⟨rfl, grows_data hgrows1 (clear_data hdata), grows_data hgrows2 hdata, hgrows1.isFull, hgrows2.isFull, ?_, ?_⟩
    · rw [hgrows2.nHashFuncs]
      exact hfuncs
    · intro h
      dsimp only at h
      omega

theorem mem_drop_of_length_le {keys : List (List UInt8)} {vKey : List UInt8} (h : keys.length ≤ n) (hmem : vKey ∈ keys) :
    vKey ∈ keys.drop (keys.length - n) := by
  rw [Nat.sub_eq_zero_of_le h]
  exact hmem

theorem new_eq {nElements size : Nat} {nHashFuncs nNewTweak : UInt32}
    (h : CRollingBloomFilter.new nElements size nHashFuncs nNewTweak = some r) : nElements * 2 % 2 ^ 32 ≠ 0 ∧
      r = ⟨nElements * 2 % 2 ^ 32, 0, (CRollingBloomFilter.fresh size nHashFuncs 0).reset nNewTweak,
        (CRollingBloomFilter.fresh size nHashFuncs 0).reset nNewTweak⟩ := by
  unfold CRollingBloomFilter.new at h
  dsimp only at h
  split at h
  · cases h
  · rename_i hpos
    exact ⟨hpos, (Option.some.inj h).symm⟩

/-- A round of `2 * n` keys is no longer than the window: the first of them is lost. -/
theorem not_window_of_round {nElements size : Nat} {nHashFuncs nNewTweak : UInt32} (hn : 0 < n) (hlt : n < 2 ^ 31) (hle : 2 * n ≤ nElements)
    (hsize : 0 < size) (hfuncs : nHashFuncs ≠ 0) :
    ¬ Window emptyHash nElements ⟨2 * n, 0, (CRollingBloomFilter.fresh size nHashFuncs 0).reset nNewTweak,
      (CRollingBloomFilter.fresh size nHashFuncs 0).reset nNewTweak⟩ := by
  intro hwindow
  obtain ⟨r1, hr1, hlost1, hone⟩ := lost_start hn hsize hfuncs
  obtain ⟨r2, hr2, hlost2, hzero⟩ := lost_run hlt (2 * n - 2) hlost1 (by omega) (by omega)
  obtain ⟨r', hr', hcontains⟩ := hwindow ([] :: List.replicate (2 * n - 2 + 1) [1])
  rw [run_cons, hr1, Option.bind_some, hr2] at hr'
  cases hr'
  have hlength : ([] :: List.replicate (2 * n - 2 + 1) [(1 : UInt8)]).length ≤ nElements := by
    rw [List.length_cons, List.length_replicate]
    omega
  have htrue := hcontains [] (mem_drop_of_length_le hlength List.mem_cons_self)
  rw [hlost2.contains hn hzero] at htrue
  cases htrue

theorem not_window_of_wrap {nElements size : Nat} {nHashFuncs nNewTweak : UInt32} (hlow : 2 ^ 31 ≤ nElements) (hhigh : nElements < 2 ^ 32)
    (hsize : 0 < size) (hfuncs : nHashFuncs ≠ 0) (h : CRollingBloomFilter.new nElements size nHashFuncs nNewTweak = some r) :
    ¬ Window emptyHash nElements r := by
  obtain ⟨hpos, rfl⟩ := new_eq h
  obtain ⟨n, hn⟩ : ∃ n, nElements * 2 % 2 ^ 32 = 2 * n := ⟨nElements - 2 ^ 31, by omega⟩
  rw [hn] at hpos ⊢
  exact not_window_of_round (by omega) (by omega) (by omega) hsize hfuncs

/-- The window of the two filters, and the filters of peers -/
theorem window_iff (nElements size : Nat) (nHashFuncs nNewTweak : UInt32) (f : CBloomFilter) (es : List Event) :
    (∀ r, nElements < 2 ^ 32 → 0 < size → CRollingBloomFilter.new nElements size nHashFuncs nNewTweak = some r →
      ((∀ murmurHash3, Window murmurHash3 nElements r) ↔ nElements < 2 ^ 31 ∨ nHashFuncs = 0)) ∧
    ∀ murmurHash3 solvesToKey, ∃ s, run (step murmurHash3 solvesToKey) ⟨f.updateEmptyFull, []⟩ es = some s ∧
      ∀ vKey ∈ s.inserted, s.filter.contains murmurHash3 vKey = some true := by
  refine ⟨?_, fun murmurHash3 solvesToKey => CBloomFilter.peer_run f es⟩
  intro r hhigh hsize h
  constructor
  · intro hwindow
    by_contra hcond
    obtain ⟨hlow, hfuncs⟩ := not_or.1 hcond
    exact not_window_of_wrap (not_lt.1 hlow) hhigh hsize hfuncs h (hwindow emptyHash)
  · intro hcond murmurHash3
    rcases hcond with hn | hfuncs
    · exact window_run hn hsize h
    · exact noHash_window (noHash_new hsize hfuncs h) nElements

/-- With one element more than `2 ^ 31` the window has one key: the key before is lost. -/
theorem key_lost : ∃ r, CRollingBloomFilter.new (2 ^ 31 + 1) 1 1 0 = some r ∧ ¬ Window emptyHash (2 ^ 31 + 1) r :=
  ⟨_, rfl, not_window_of_wrap (by decide) (by decide) (by decide) (by decide) rfl⟩

end Window

end Zumy.Bloom
