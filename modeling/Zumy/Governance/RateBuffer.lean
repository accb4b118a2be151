/-
  Zumy.Governance.RateBuffer — governance.h: the times of the last objects of a masternode,
  by which the rate of its objects is limited.

  The times are of 64 bits and come from the objects. The rate is computed with doubles,
  after a subtraction of two times that may overflow, where `GetRate` is `none`. The largest
  time is looked for from 0 on, the smallest one from the largest number on.
-/
import Mathlib.Order.Bounds.Defs
import Zumy.Lib.Ring

namespace Zumy.Governance

open Lib

abbrev rateBufferSize : Nat := 5

structure CRateCheckBuffer where
  vecTimestamps : Fin rateBufferSize → Int64
  nDataStart : Fin rateBufferSize
  nDataEnd : Fin rateBufferSize
  fBufferEmpty : Bool

/-- `nMax - nMin` of two `int64_t`. -/
def subtractTimes (nMax nMin : Int64) : Option Int :=
  if -2 ^ 63 ≤ nMax.toInt - nMin.toInt ∧ nMax.toInt - nMin.toInt < 2 ^ 63 then some (nMax.toInt - nMin.toInt) else none

namespace CRateCheckBuffer

/-- `CRateCheckBuffer()` -/
def init : CRateCheckBuffer := ⟨fun _ => 0, 0, 0, true⟩

def addTimestamp (b : CRateCheckBuffer) (nTimestamp : Int64) : CRateCheckBuffer where
  vecTimestamps := Function.update b.vecTimestamps b.nDataEnd nTimestamp
  -- Buffer full, discard 1st element
  nDataStart := if b.nDataEnd = b.nDataStart ∧ b.fBufferEmpty = false then b.nDataStart + 1 else b.nDataStart
  nDataEnd := b.nDataEnd + 1
  fBufferEmpty := false

def ring (b : CRateCheckBuffer) : Ring Int64 rateBufferSize := ⟨b.vecTimestamps, b.nDataStart, b.nDataEnd, b.fBufferEmpty⟩

def getMinTimestamp (b : CRateCheckBuffer) : Option Int64 :=
  if b.fBufferEmpty then some Int64.maxValue
  else b.ring.sweep (fun nMin t => if t < nMin then t else nMin) rateBufferSize b.nDataStart Int64.maxValue

def getMaxTimestamp (b : CRateCheckBuffer) : Option Int64 :=
  if b.fBufferEmpty then some 0
  else b.ring.sweep (fun nMax t => if t > nMax then t else nMax) rateBufferSize b.nDataStart 0

def getCount (b : CRateCheckBuffer) : Int :=
  if b.fBufferEmpty then 0
  else if b.nDataEnd > b.nDataStart then (b.nDataEnd : Int) - (b.nDataStart : Int)
  else rateBufferSize - (b.nDataStart : Int) + (b.nDataEnd : Int)

def getRate (b : CRateCheckBuffer) : Option Float :=
  let nCount := b.getCount
  if nCount < 2 then some 0.0
  else
    b.getMinTimestamp.bind fun nMin =>
      b.getMaxTimestamp.bind fun nMax =>
        -- multiple objects with the same timestamp => infinite rate
        if nMin = nMax then some 1.0e10
        else (subtractTimes nMax nMin).map fun d => Float.ofInt nCount / Float.ofInt d

end CRateCheckBuffer

/-! ## The last five times -/

def lastTimes (ts : List Int64) : List Int64 := ts.drop (ts.length - rateBufferSize)

def bufferOf (ts : List Int64) : CRateCheckBuffer := ts.foldl .addTimestamp .init

variable {ts : List Int64} {b : CRateCheckBuffer} {t : Int64}

theorem ring_bufferOf (ts : List Int64) : (bufferOf ts).ring = ts.foldl Ring.push (CRateCheckBuffer.init).ring := by
  have hfold (b : CRateCheckBuffer) : (ts.foldl .addTimestamp b).ring = ts.foldl Ring.push b.ring := by
    induction ts generalizing b with
    | nil => rfl
    | cons t ts ih => exact ih (b.addTimestamp t)
  exact hfold .init

theorem closed_bufferOf (ts : List Int64) : (bufferOf ts).ring.Closed ∧ (bufferOf ts).ring.toList = lastTimes ts := by
  rw [ring_bufferOf]
  exact Ring.toList_foldl_push (fun _ => rfl) rfl ts

theorem getCount_eq (b : CRateCheckBuffer) : b.getCount = b.ring.count := by
  have hstart := b.nDataStart.isLt
  unfold CRateCheckBuffer.getCount Ring.count
  simp only [CRateCheckBuffer.ring, gt_iff_lt, Fin.lt_def]
  split
  · rfl
  · split <;> omega

theorem getCount_bufferOf (ts : List Int64) : (bufferOf ts).getCount = min ts.length rateBufferSize := by
  rw [getCount_eq, ← Ring.length_toList, (closed_bufferOf ts).2, lastTimes, List.length_drop]
  omega

theorem fBufferEmpty_bufferOf (ts : List Int64) : (bufferOf ts).fBufferEmpty = false ↔ lastTimes ts ≠ [] := by
  have hcount : (bufferOf ts).ring.count = (lastTimes ts).length := by
    rw [← Ring.length_toList, (closed_bufferOf ts).2]
  rw [ne_eq, ← List.length_eq_zero_iff, ← hcount]
  constructor
  · intro h
    exact (Ring.count_pos (r := (bufferOf ts).ring) h).ne'
  · intro h
    by_contra hne
    rw [Bool.not_eq_false] at hne
    exact h (if_pos hne)

theorem sweep_lastTimes (hne : lastTimes ts ≠ []) (f : Int64 → Int64 → Int64) (acc : Int64) :
    (bufferOf ts).ring.sweep f rateBufferSize (bufferOf ts).nDataStart acc = some ((lastTimes ts).foldl f acc) := by
  have hempty := (fBufferEmpty_bufferOf ts).2 hne
  rw [← (closed_bufferOf ts).2]
  exact Ring.sweep_eq (r := (bufferOf ts).ring) hempty f acc

/-! ## Extremes -/

theorem foldl_keep {α : Type} (k : α → Int) (l : List α) (a : α) :
    k (l.foldl (fun m t => if k t < k m then t else m) a) ≤ k a ∧
    (∀ t ∈ l, k (l.foldl (fun m t => if k t < k m then t else m) a) ≤ k t) ∧
    (l.foldl (fun m t => if k t < k m then t else m) a = a ∨ l.foldl (fun m t => if k t < k m then t else m) a ∈ l) := by
  induction l generalizing a with
  | nil => simp
  | cons t l ih =>
    rw [List.foldl_cons]
    by_cases hlt : k t < k a
    · obtain ⟨hle, hall, hmem⟩ := ih t
      simp only [if_pos hlt]
      refine ⟨by omega, ?_, ?_⟩
      · intro u hu
        rcases List.mem_cons.1 hu with rfl | hu
        · exact hle
        · exact hall u hu
      · right
        rcases hmem with heq | hmem
        · simp [heq]
        · exact List.mem_cons_of_mem t hmem
    · obtain ⟨hle, hall, hmem⟩ := ih a
      simp only [if_neg hlt]
      refine ⟨hle, ?_, ?_⟩
      · intro u hu
        rcases List.mem_cons.1 hu with rfl | hu
        · omega
        · exact hall u hu
      · exact hmem.imp_right (List.mem_cons_of_mem t)

theorem getMinTimestamp_bufferOf (hne : lastTimes ts ≠ []) :
    ∃ lo, (bufferOf ts).getMinTimestamp = some lo ∧ IsLeast {t | t ∈ lastTimes ts} lo := by
  obtain ⟨-, hall, hmem⟩ := foldl_keep Int64.toInt (lastTimes ts) Int64.maxValue
  have hrun : (bufferOf ts).getMinTimestamp =
    some ((lastTimes ts).foldl (fun m t => if t.toInt < m.toInt then t else m) Int64.maxValue) := by
    rw [CRateCheckBuffer.getMinTimestamp, (fBufferEmpty_bufferOf ts).2 hne, if_neg Bool.false_ne_true, sweep_lastTimes hne]
    simp only [Int64.lt_iff_toInt_lt]
  generalize (lastTimes ts).foldl (fun m t => if t.toInt < m.toInt then t else m) Int64.maxValue = lo at hall hmem hrun
  refine ⟨lo, hrun, ?_, fun t ht => Int64.le_iff_toInt_le.2 (hall t ht)⟩
  rcases hmem with rfl | hmem
  · -- no time is above the largest number
    obtain ⟨t, ht⟩ := List.exists_mem_of_ne_nil _ hne
    have hmax : t = Int64.maxValue := Int64.toInt_inj.1 (Int.le_antisymm t.toInt_le (hall t ht))
    exact hmax ▸ ht
  · exact hmem

theorem getMaxTimestamp_bufferOf (hne : lastTimes ts ≠ []) :
    ∃ hi, (bufferOf ts).getMaxTimestamp = some hi ∧ 0 ≤ hi.toInt ∧
      ((∃ t ∈ lastTimes ts, 0 ≤ t.toInt) → IsGreatest {t | t ∈ lastTimes ts} hi) := by
  obtain ⟨hle, hall, hmem⟩ := foldl_keep (fun t : Int64 => -t.toInt) (lastTimes ts) 0
  have hrun : (bufferOf ts).getMaxTimestamp =
    some ((lastTimes ts).foldl (fun m t => if -t.toInt < -m.toInt then t else m) 0) := by
    rw [CRateCheckBuffer.getMaxTimestamp, (fBufferEmpty_bufferOf ts).2 hne, if_neg Bool.false_ne_true, sweep_lastTimes hne]
    simp only [gt_iff_lt, Int64.lt_iff_toInt_lt, Int.neg_lt_neg_iff]
  generalize (lastTimes ts).foldl (fun m t => if -t.toInt < -m.toInt then t else m) 0 = hi at hle hall hmem hrun
  rw [Int64.toInt_zero] at hle
  refine ⟨hi, hrun, by omega, fun hpos => ⟨?_, fun u hu => ?_⟩⟩
  · rcases hmem with rfl | hmem
    · -- no time is above 0, which one of them is
      obtain ⟨t, ht, hnonneg⟩ := hpos
      have hzero := hall t ht
      rw [Int64.toInt_zero] at hzero
      have htz : t = 0 := Int64.toInt_inj.1 (by rw [Int64.toInt_zero]; omega)
      exact htz ▸ ht
    · exact hmem
  · have hu := hall u hu
    rw [Int64.le_iff_toInt_le]
    omega

/-! ## When the answers are right -/

/-- The buffer after `ts` counts up to five times, and knows the extremes of the last five and their rate. -/
structure ExactBuffer (ts : List Int64) (b : CRateCheckBuffer) : Prop where
  count : b.getCount = min ts.length rateBufferSize
  min : ∀ lo, IsLeast {t | t ∈ lastTimes ts} lo → b.getMinTimestamp = some lo
  max : ∀ hi, IsGreatest {t | t ∈ lastTimes ts} hi → b.getMaxTimestamp = some hi
  noOverflow : b.getRate ≠ none
  rate : b.getCount = rateBufferSize → ∀ lo hi, IsLeast {t | t ∈ lastTimes ts} lo →
    IsGreatest {t | t ∈ lastTimes ts} hi → hi ≠ lo →
    b.getRate = some (Float.ofInt b.getCount / Float.ofInt (hi.toInt - lo.toInt))

def OrdinaryTimes (ts : List Int64) : Prop :=
  (∃ t ∈ ts, 0 ≤ t.toInt) ∧ ∀ t ∈ ts, ∀ t' ∈ ts, t.toInt - t'.toInt < 2 ^ 63

theorem eq_of_isLeast {s : Set Int64} {a b : Int64} (ha : IsLeast s a) (hb : IsLeast s b) : a = b :=
  Int64.toInt_inj.1 (Int.le_antisymm (Int64.le_iff_toInt_le.1 (ha.2 hb.1)) (Int64.le_iff_toInt_le.1 (hb.2 ha.1)))

theorem eq_of_isGreatest {s : Set Int64} {a b : Int64} (ha : IsGreatest s a) (hb : IsGreatest s b) : a = b :=
  Int64.toInt_inj.1 (Int.le_antisymm (Int64.le_iff_toInt_le.1 (hb.2 ha.1)) (Int64.le_iff_toInt_le.1 (ha.2 hb.1)))

/-- The subtraction of the extremes overflows exactly if some two times are 2 ^ 63 apart. -/
theorem subtractTimes_isSome_iff {l : List Int64} {lo hi : Int64} (hlo : IsLeast {t | t ∈ l} lo)
    (hhi : IsGreatest {t | t ∈ l} hi) :
    subtractTimes hi lo ≠ none ↔ ∀ t ∈ l, ∀ t' ∈ l, t.toInt - t'.toInt < 2 ^ 63 := by
  have hle : lo.toInt ≤ hi.toInt := Int64.le_iff_toInt_le.1 (hlo.2 hhi.1)
  unfold subtractTimes
  constructor
  · intro h t ht t' ht'
    have htop : t.toInt ≤ hi.toInt := Int64.le_iff_toInt_le.1 (hhi.2 ht)
    have hbottom : lo.toInt ≤ t'.toInt := Int64.le_iff_toInt_le.1 (hlo.2 ht')
    split at h
    · omega
    · exact absurd rfl h
  · intro h
    have hlt := h hi hhi.1 lo hlo.1
    rw [if_pos ⟨by omega, hlt⟩]
    exact Option.some_ne_none _

/-- After fewer than two times the rate is 0, after more it is that of the extremes. -/
theorem getRate_bufferOf {lo hi : Int64} (hlo : (bufferOf ts).getMinTimestamp = some lo)
    (hhi : (bufferOf ts).getMaxTimestamp = some hi) :
    (bufferOf ts).getRate =
      if (bufferOf ts).getCount < 2 then some 0.0
      else if lo = hi then some 1.0e10
      else (subtractTimes hi lo).map fun d => Float.ofInt (bufferOf ts).getCount / Float.ofInt d := by
  rw [CRateCheckBuffer.getRate, hlo, hhi]
  rfl

/-- The answers are right for every sequence of times in whose last five some time is not
    negative and no two are 2 ^ 63 apart, and for the empty one. -/
theorem rate_buffer_exact_iff (ts : List Int64) :
    ExactBuffer ts (bufferOf ts) ↔ lastTimes ts = [] ∨ OrdinaryTimes (lastTimes ts) := by
  by_cases hne : lastTimes ts = []
  · simp only [hne, true_or, iff_true]
    have hcount : (bufferOf ts).getCount < 2 := by
      have hlen := congrArg List.length hne
      rw [lastTimes, List.length_drop, List.length_nil] at hlen
      rw [getCount_bufferOf]
      omega
    refine ⟨getCount_bufferOf ts, fun lo h => ?_, fun hi h => ?_, ?_, fun _ lo hi h => ?_⟩
    · exact absurd (show lo ∈ lastTimes ts from h.1) (by simp [hne])
    · exact absurd (show hi ∈ lastTimes ts from h.1) (by simp [hne])
    · rw [CRateCheckBuffer.getRate, if_pos hcount]
      exact Option.some_ne_none _
    · exact absurd (show lo ∈ lastTimes ts from h.1) (by simp [hne])
  · simp only [hne, false_or]
    obtain ⟨lo, hmin, hlo⟩ := getMinTimestamp_bufferOf hne
    obtain ⟨hi, hmax, hnonneg, hgreatest⟩ := getMaxTimestamp_bufferOf hne
    have hrate := getRate_bufferOf hmin hmax
    constructor
    · intro h
      -- the largest of the times is what was found, so it is not negative
      obtain ⟨m, hm⟩ : ∃ m, IsGreatest {t | t ∈ lastTimes ts} m := by
        obtain ⟨-, hall, hmem⟩ := foldl_keep (fun t : Int64 => -t.toInt) (lastTimes ts) lo
        refine ⟨_, ?_, fun u hu => Int64.le_iff_toInt_le.2 (Int.neg_le_neg_iff.1 (hall u hu))⟩
        rcases hmem with heq | hmem
        · rw [heq]
          exact hlo.1
        · exact hmem
      have hhi : hi = m := Option.some.inj (hmax.symm.trans (h.max m hm))
      subst hhi
      refine ⟨⟨hi, hm.1, hnonneg⟩, ?_⟩
      by_cases hcount : (bufferOf ts).getCount < 2
      · -- one time only
        have hone : (lastTimes ts).length ≤ 1 := by
          rw [getCount_bufferOf] at hcount
          rw [lastTimes, List.length_drop]
          omega
        intro t ht t' ht'
        obtain ⟨u, hu⟩ := List.length_eq_one_iff.1 (Nat.le_antisymm hone (List.length_pos_iff.2 hne))
        rw [hu, List.mem_singleton] at ht ht'
        rw [ht, ht', Int.sub_self]
        decide
      · by_cases heq : lo = hi
        · exact (subtractTimes_isSome_iff hlo hm).1 (by simp [subtractTimes, heq])
        · have hdefined := h.noOverflow
          rw [hrate, if_neg hcount, if_neg heq, ne_eq, Option.map_eq_none_iff] at hdefined
          exact (subtractTimes_isSome_iff hlo hm).1 hdefined
    · rintro ⟨hpos, hapart⟩
      have hhi := hgreatest hpos
      have hdefined := (subtractTimes_isSome_iff hlo hhi).2 hapart
      refine ⟨getCount_bufferOf ts, fun lo' h => ?_, fun hi' h => ?_, ?_, fun hfull lo' hi' h h' hdiff => ?_⟩
      · rw [hmin, eq_of_isLeast hlo h]
      · rw [hmax, eq_of_isGreatest hhi h]
      · rw [hrate]
        split
        · exact Option.some_ne_none _
        · split
          · exact Option.some_ne_none _
          · rw [ne_eq, Option.map_eq_none_iff]
            exact hdefined
      · obtain rfl := eq_of_isLeast hlo h
        obtain rfl := eq_of_isGreatest hhi h'
        obtain ⟨d, hd⟩ := Option.ne_none_iff_exists'.1 hdefined
        have hsub : hi.toInt - lo.toInt = d := by
          unfold subtractTimes at hd
          split at hd
          · exact Option.some.inj hd
          · cases hd
        rw [hrate, if_neg (by rw [hfull]; decide), if_neg (Ne.symm hdiff), hd, hsub]
        rfl

/-- A single time of one second before 1970. -/
theorem negative_time_is_no_maximum :
    (bufferOf [-1]).getMaxTimestamp = some 0 ∧ ¬ ∀ ts : List Int64, ExactBuffer ts (bufferOf ts) := by
  have hmax : (bufferOf [-1]).getMaxTimestamp = some 0 := by decide
  refine ⟨hmax, fun h => ?_⟩
  have hgreatest : IsGreatest {t | t ∈ lastTimes [-1]} (-1 : Int64) := by
    refine ⟨List.mem_singleton.2 rfl, fun t ht => ?_⟩
    rw [List.mem_singleton.1 ht]
    decide
  have hfound := (h [-1]).max (-1) hgreatest
  rw [hmax] at hfound
  exact absurd hfound (by decide)

end Zumy.Governance
