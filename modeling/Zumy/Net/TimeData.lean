/-
  Zumy.Net.TimeData — timedata.cpp: the offset of the network's time, the median of what the
  peers say.

  `CMedianFilter` starts with a sample of 0. A signed operation on `int64_t` that overflows is
  undefined: `none`. So is `abs64` of the least number, and a peer chooses its sample.

  - `addTimeData_isSome_iff`: when a call is defined.
  - `offsetStep`: what a defined call does to the offset.
-/
import Mathlib.Data.Finset.Card
import Zumy.Lib.Median
import Zumy.Lib.Run

namespace Zumy.Net

open Zumy.Lib

def minInt64 : Int := -2 ^ 63
def maxInt64 : Int := 2 ^ 63 - 1

def checked (n : Int) : Option Int := if minInt64 ≤ n ∧ n ≤ maxInt64 then some n else none

def abs64 (n : Int) : Option Int := if 0 ≤ n then some n else checked (-n)

structure CMedianFilter where
  vValues : List Int
  vSorted : List Int
  nSize : Nat

namespace CMedianFilter

def new (size : Nat) (initialValue : Int) : CMedianFilter := ⟨[initialValue], [initialValue], size⟩

def input (f : CMedianFilter) (value : Int) : CMedianFilter :=
  let vValues := (if f.vValues.length = f.nSize then f.vValues.tail else f.vValues) ++ [value]
  { f with vValues := vValues, vSorted := vValues.insertionSort (· ≤ ·) }

def median (f : CMedianFilter) : Option Int :=
  let size := f.vSorted.length
  if size % 2 = 1 then f.vSorted[size / 2]?
  else (f.vSorted[size / 2 - 1]?).bind fun a => (f.vSorted[size / 2]?).bind fun b => (checked (a + b)).map (·.tdiv 2)

def size (f : CMedianFilter) : Nat := f.vValues.length

end CMedianFilter

def zumyTimedataMaxSamples : Nat := 200

def clockMessage : String :=
  "Please check that your computer's date and time are correct! If your clock is wrong Zumy will not work properly."

structure TimeData (CNetAddr : Type) where
  nTimeOffset : Int
  setKnown : Finset CNetAddr
  vTimeOffsets : CMedianFilter
  fDone : Bool
  strMiscWarning : String

namespace TimeData

variable {CNetAddr : Type} [DecidableEq CNetAddr] (s : TimeData CNetAddr)

def start : TimeData CNetAddr := ⟨0, ∅, .new zumyTimedataMaxSamples 0, false, ""⟩

/-- `fMatch`: somebody has a time different than ours but within 5 minutes of ours. -/
def findMatch (vSorted : List Int) : Option Bool :=
  vSorted.foldlM (fun fMatch nOffset =>
    if nOffset = 0 then some fMatch else (abs64 nOffset).map fun n => fMatch || decide (n < 5 * 60)) false

def updateOffset : Option (TimeData CNetAddr) :=
  s.vTimeOffsets.median.bind fun nMedian =>
  (abs64 nMedian).bind fun n =>
  -- Only let other nodes change our time by so much
  if n < 70 * 60 then some { s with nTimeOffset := nMedian }
  else
    let s := { s with nTimeOffset := 0 }
    if s.fDone then some s
    else (findMatch s.vTimeOffsets.vSorted).map fun fMatch =>
      if fMatch then s else { s with fDone := true, strMiscWarning := clockMessage }

def take (ip : CNetAddr) (nOffsetSample : Int) : TimeData CNetAddr :=
  { s with setKnown := insert ip s.setKnown, vTimeOffsets := s.vTimeOffsets.input nOffsetSample }

def addTimeData (ip : CNetAddr) (nOffsetSample : Int) : Option (TimeData CNetAddr) :=
  if s.setKnown.card = zumyTimedataMaxSamples then some s
  -- Ignore duplicates
  else if ip ∈ s.setKnown then some s
  else
    let s := s.take ip nOffsetSample
    if 5 ≤ s.vTimeOffsets.size ∧ s.vTimeOffsets.size % 2 = 1 then s.updateOffset else some s

def step (e : CNetAddr × Int64) : Option (TimeData CNetAddr) := s.addTimeData e.1 e.2.toInt

end TimeData

/-! ## The filter -/

def InRange (n : Int) : Prop := minInt64 ≤ n ∧ n ≤ maxInt64

theorem inRange_toInt (n : Int64) : InRange n.toInt := by
  have hlow := n.le_toInt
  have hhigh := n.toInt_lt
  unfold InRange minInt64 maxInt64
  omega

structure CMedianFilter.Valid (f : CMedianFilter) : Prop where
  sorted : f.vSorted = f.vValues.insertionSort (· ≤ ·)
  ne_nil : f.vValues ≠ []
  range : ∀ n ∈ f.vValues, InRange n

variable {f : CMedianFilter} {n : Int}

theorem CMedianFilter.valid_new (size : Nat) : (CMedianFilter.new size 0).Valid where
  sorted := rfl
  ne_nil := List.cons_ne_nil _ _
  range := by
    intro n hn
    rw [List.mem_singleton.1 hn]
    exact ⟨by decide, by decide⟩

theorem CMedianFilter.Valid.input (h : f.Valid) (hn : InRange n) : (f.input n).Valid where
  sorted := rfl
  ne_nil := by simp [CMedianFilter.input]
  range := by
    intro a ha
    simp only [CMedianFilter.input, List.mem_append, List.mem_singleton] at ha
    rcases ha with ha | rfl
    · split at ha
      · exact h.range a (List.mem_of_mem_tail ha)
      · exact h.range a ha
    · exact hn

theorem CMedianFilter.Valid.median_odd (h : f.Valid) (hodd : f.size % 2 = 1) : f.median = some (Lib.median f.vValues) := by
  have hlength : f.vSorted.length = f.vValues.length := by rw [h.sorted, List.length_insertionSort]
  have hk : f.vValues.length / 2 < (f.vValues.insertionSort (· ≤ ·)).length := by
    have hpos := List.length_pos_iff.2 h.ne_nil
    rw [List.length_insertionSort]
    omega
  unfold CMedianFilter.median CMedianFilter.size at *
  rw [hlength, if_pos hodd, h.sorted, Lib.median, List.getElem?_eq_getElem hk, Option.getD_some]

/-! ## Absolute values -/

theorem abs64_eq (hn : InRange n) : abs64 n = if n = minInt64 then none else some |n| := by
  unfold InRange minInt64 maxInt64 at hn
  unfold abs64 checked minInt64 maxInt64
  by_cases hpos : 0 ≤ n
  · rw [if_pos hpos, if_neg (by omega), abs_of_nonneg hpos]
  · rw [if_neg hpos, abs_of_neg (by omega)]
    by_cases hmin : n = -2 ^ 63
    · rw [if_pos hmin, if_neg (by omega)]
    · rw [if_neg hmin, if_pos (by omega)]

namespace TimeData

theorem findMatch_isSome_iff {l : List Int} (hrange : ∀ n ∈ l, InRange n) : (findMatch l).isSome ↔ minInt64 ∉ l := by
  unfold findMatch
  generalize false = fMatch
  induction l generalizing fMatch with
  | nil => simp
  | cons a l ih =>
    obtain ⟨ha, hl⟩ := List.forall_mem_cons.1 hrange
    rw [List.foldlM_cons, Option.bind_eq_bind, List.mem_cons, not_or, abs64_eq ha]
    by_cases hzero : a = 0
    · rw [if_pos hzero, Option.bind_some, ih hl, hzero]
      simp [minInt64]
    · rw [if_neg hzero]
      by_cases hmin : a = minInt64
      · simp [hmin]
      · rw [if_neg hmin, Option.map_some, Option.bind_some, ih hl]
        simp [Ne.symm hmin]

variable {CNetAddr : Type} {s s' : TimeData CNetAddr}

/-- The median and, where it is too far away and nobody was warned yet, every sample has an absolute value. -/
structure Negatable (s : TimeData CNetAddr) : Prop where
  median : Lib.median s.vTimeOffsets.vValues ≠ minInt64
  samples : 70 * 60 ≤ |Lib.median s.vTimeOffsets.vValues| → s.fDone = false → minInt64 ∉ s.vTimeOffsets.vValues

theorem updateOffset_isSome_iff (hf : s.vTimeOffsets.Valid) (hodd : s.vTimeOffsets.size % 2 = 1) :
    s.updateOffset.isSome ↔ Negatable s := by
  have hmedian := (isMedian_median hf.ne_nil).mem
  have hsorted : ∀ n ∈ s.vTimeOffsets.vSorted, InRange n := by
    intro n hn
    rw [hf.sorted, List.mem_insertionSort] at hn
    exact hf.range n hn
  have hmatch := findMatch_isSome_iff hsorted
  rw [hf.sorted, List.mem_insertionSort] at hmatch
  unfold updateOffset
  rw [hf.median_odd hodd, Option.bind_some, abs64_eq (hf.range _ hmedian)]
  by_cases hmin : Lib.median s.vTimeOffsets.vValues = minInt64
  · rw [if_pos hmin]
    exact ⟨fun h => (by cases h), fun h => absurd hmin h.median⟩
  · rw [if_neg hmin, Option.bind_some]
    by_cases hnear : |Lib.median s.vTimeOffsets.vValues| < 70 * 60
    · rw [if_pos hnear]
      exact ⟨fun _ => ⟨hmin, fun hfar => absurd hnear (by omega)⟩, fun _ => rfl⟩
    · rw [if_neg hnear]
      dsimp only
      cases hdone : s.fDone with
      | true =>
        rw [if_pos rfl]
        exact ⟨fun _ => ⟨hmin, fun _ hnot => (by rw [hdone] at hnot; cases hnot)⟩, fun _ => rfl⟩
      | false =>
        rw [if_neg Bool.false_ne_true, Option.isSome_map, hf.sorted, hmatch]
        exact ⟨fun h => ⟨hmin, fun _ _ => h⟩, fun h => h.samples (by omega) hdone⟩

structure Updated (s s' : TimeData CNetAddr) : Prop where
  filter : s'.vTimeOffsets = s.vTimeOffsets
  near : |s'.nTimeOffset| < 70 * 60
  median : s'.nTimeOffset ≠ 0 → s'.nTimeOffset = Lib.median s.vTimeOffsets.vValues

theorem updateOffset_updated (hf : s.vTimeOffsets.Valid) (hodd : s.vTimeOffsets.size % 2 = 1) (h : s.updateOffset = some s') :
    Updated s s' := by
  unfold updateOffset at h
  have hzero : |(0 : Int)| < 70 * 60 := by decide
  rw [hf.median_odd hodd, Option.bind_some, abs64_eq (hf.range _ (isMedian_median hf.ne_nil).mem)] at h
  split at h
  · cases h
  · rw [Option.bind_some] at h
    split at h
    · next hnear =>
      cases h
      exact ⟨rfl, hnear, fun _ => rfl⟩
    · dsimp only at h
      split at h
      · cases h
        exact ⟨rfl, hzero, fun hne => absurd rfl hne⟩
      · obtain ⟨fMatch, -, rfl⟩ := Option.map_eq_some_iff.1 h
        cases fMatch with
        | true => exact ⟨rfl, hzero, fun hne => absurd rfl hne⟩
        | false => exact ⟨rfl, hzero, fun hne => absurd rfl hne⟩

/-! ## The calls -/

structure Sane (s : TimeData CNetAddr) : Prop where
  near : |s.nTimeOffset| < 70 * 60
  filter : s.vTimeOffsets.Valid

theorem sane_start : Sane (start : TimeData CNetAddr) where
  near := (by decide : |(0 : Int)| < 70 * 60)
  filter := CMedianFilter.valid_new _

variable [DecidableEq CNetAddr] {e : CNetAddr × Int64}

structure Updates (s : TimeData CNetAddr) (e : CNetAddr × Int64) : Prop where
  room : s.setKnown.card ≠ zumyTimedataMaxSamples
  unknown : e.1 ∉ s.setKnown
  size : 5 ≤ (s.take e.1 e.2.toInt).vTimeOffsets.size
  odd : (s.take e.1 e.2.toInt).vTimeOffsets.size % 2 = 1

theorem step_updates (h : Updates s e) : s.step e = (s.take e.1 e.2.toInt).updateOffset := by
  unfold step addTimeData
  rw [if_neg h.room, if_neg h.unknown]
  exact if_pos ⟨h.size, h.odd⟩

theorem step_other (h : ¬ Updates s e) : s.step e = some s ∨ s.step e = some (s.take e.1 e.2.toInt) := by
  unfold step addTimeData
  split
  · exact .inl rfl
  · next hroom =>
    split
    · exact .inl rfl
    · next hunknown =>
      right
      exact if_neg fun hsize => h ⟨hroom, hunknown, hsize.1, hsize.2⟩

theorem Sane.take (h : Sane s) (e : CNetAddr × Int64) : Sane (s.take e.1 e.2.toInt) :=
  ⟨h.near, h.filter.input (inRange_toInt e.2)⟩

/-- The condition of a call: where it recomputes the offset, no absolute value overflows. -/
def NoOverflow (s : TimeData CNetAddr) (e : CNetAddr × Int64) : Prop := Updates s e → Negatable (s.take e.1 e.2.toInt)

theorem addTimeData_isSome_iff (h : Sane s) : (s.step e).isSome ↔ NoOverflow s e := by
  by_cases hupdates : Updates s e
  · rw [step_updates hupdates, updateOffset_isSome_iff (h.take e).filter hupdates.odd]
    exact ⟨fun hneg _ => hneg, fun hok => hok hupdates⟩
  · refine ⟨fun _ hup => absurd hup hupdates, fun _ => ?_⟩
    rcases step_other hupdates with hs | hs <;> rw [hs] <;> rfl

structure OffsetStep (s : TimeData CNetAddr) (e : CNetAddr × Int64) (s' : TimeData CNetAddr) : Prop where
  near : |s'.nTimeOffset| < 70 * 60
  median : Updates s e → s'.nTimeOffset ≠ 0 → IsMedian s'.vTimeOffsets.vValues s'.nTimeOffset
  kept : ¬ Updates s e → s'.nTimeOffset = s.nTimeOffset

theorem offsetStep (h : Sane s) (hs : s.step e = some s') : Sane s' ∧ OffsetStep s e s' := by
  by_cases hupdates : Updates s e
  · have hf := (h.take e).filter
    rw [step_updates hupdates] at hs
    have hu := updateOffset_updated hf hupdates.odd hs
    refine ⟨⟨hu.near, hu.filter ▸ hf⟩, hu.near, fun _ hne => ?_, fun hnot => absurd hupdates hnot⟩
    rw [hu.median hne, hu.filter]
    exact isMedian_median hf.ne_nil
  · have hstays : Sane s' ∧ s'.nTimeOffset = s.nTimeOffset := by
      rcases step_other hupdates with hs' | hs'
      · cases hs'.symm.trans hs
        exact ⟨h, rfl⟩
      · cases hs'.symm.trans hs
        exact ⟨h.take e, rfl⟩
    exact ⟨hstays.1, hstays.1.near, fun hup => absurd hup hupdates, fun _ => hstays.2⟩

/-- In every order of calls the offset stays near and is the median of the samples, and no
    operation overflows, if and only if no call takes the absolute value of the least number. -/
theorem time_offset_iff (es : List (CNetAddr × Int64)) :
    ((run step (start : TimeData CNetAddr) es).isSome ∧ Along step OffsetStep start es) ↔ Meets step NoOverflow start es :=
  defined_along_iff_meets Sane (fun _ _ h hok => (addTimeData_isSome_iff h).2 hok) (fun _ _ _ h _ hs => offsetStep h hs)
    (fun _ _ _ h hs _ => (addTimeData_isSome_iff h).1 (by rw [hs]; rfl)) sane_start

theorem noOverflow_of_samples {es : List (CNetAddr × Int64)} (h : Sane s) (hs : minInt64 ∉ s.vTimeOffsets.vValues)
    (hes : ∀ e ∈ es, e.2.toInt ≠ minInt64) : Meets step NoOverflow s es := by
  induction es generalizing s with
  | nil => trivial
  | cons e es ih =>
    obtain ⟨he, hes⟩ := List.forall_mem_cons.1 hes
    have htaken : minInt64 ∉ (s.take e.1 e.2.toInt).vTimeOffsets.vValues := by
      simp only [take, CMedianFilter.input, List.mem_append, List.mem_singleton, not_or]
      refine ⟨?_, Ne.symm he⟩
      split
      · exact fun hmem => hs (List.mem_of_mem_tail hmem)
      · exact hs
    have hneg : Negatable (s.take e.1 e.2.toInt) := by
      refine ⟨fun hmin => htaken ?_, fun _ _ => htaken⟩
      rw [← hmin]
      exact (isMedian_median (h.take e).filter.ne_nil).mem
    refine ⟨fun _ => hneg, fun s' hs' => ih (offsetStep h hs').1 ?_ hes⟩
    by_cases hupdates : Updates s e
    · rw [step_updates hupdates] at hs'
      rw [(updateOffset_updated (h.take e).filter hupdates.odd hs').filter]
      exact htaken
    · rcases step_other hupdates with heq | heq
      · cases heq.symm.trans hs'
        exact hs
      · cases heq.symm.trans hs'
        exact htaken

def earliest : List (Nat × Int64) := [(1, .minValue), (2, .minValue), (3, .minValue), (4, .minValue)]

theorem earliest_overflows : ¬ ((run step (start : TimeData Nat) earliest).isSome ∧ Along step OffsetStep start earliest) := by
  have hundefined : ¬ (run step (start : TimeData Nat) earliest).isSome := by decide
  exact fun h => hundefined h.1

end TimeData

end Zumy.Net
