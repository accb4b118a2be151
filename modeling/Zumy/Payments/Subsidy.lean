/-
  Zumy.Payments.Subsidy — the block reward by height (`GetPoWBlockPayment`, main.cpp).

  The reward depends on the tip of the active chain and on the height after it. Each
  branch compares the tip with the phase's first height and the next height with its last
  one, so a phase that ends at `e` pays for the tips below `e` and the phase after it, which
  starts at `e + 1`, for the tips above `e`: the tip `e` itself falls through to the last branch.

  - `getPoWBlockPayment_eq`: the branches are a search of `schedule`.
  - `paid_by_one_phase_iff`: the tips after which exactly one phase pays, for any parameters.
-/
import Zumy.ChainParams
import Mathlib.Tactic.Tauto

namespace Zumy.Payments

/-- `tip` is `chainActive.Height()`; the `nHeight` of the source is not read. The products
`0.05 * COIN`, `1.6 * COIN`, .. are exact in the source's doubles. -/
def getPoWBlockPayment (cs : ConsensusParams) (tip : Int) (nFees : CAmount) : CAmount :=
  let nNextHeight := tip + 1
  if tip = 0 then 640000 * coin
  else if tip = 1 then 5 * coin
  else if 2 ≤ tip ∧ nNextHeight ≤ cs.nZumyBeginsBlock then 5 * coin / 100
  else if 2700 ≤ tip ∧ nNextHeight ≤ 375002 then 16 * coin / 10
  else if 375003 ≤ tip ∧ nNextHeight ≤ 467001 then 12 * coin / 10
  else if 467002 ≤ tip ∧ nNextHeight ≤ 592001 then coin
  else if 592002 ≤ tip ∧ nNextHeight ≤ 717000 then 8 * coin / 10
  else if 717001 ≤ tip ∧ nNextHeight ≤ 842000 then 6 * coin / 10
  else if 842001 ≤ tip ∧ nNextHeight ≤ 967000 then 7 * coin / 10
  else if 967001 ≤ tip ∧ nNextHeight ≤ 1092000 then coin
  else 8 * coin / 10 + nFees

/-! ## The phases -/

/-- A phase pays when the tip is at least `first` and the next height at most `last`. -/
structure Phase where
  first : Int
  last : Int
  reward : CAmount
  deriving DecidableEq, Repr

def Phase.Covers (p : Phase) (tip : Int) : Prop := p.first ≤ tip ∧ tip + 1 ≤ p.last

instance (p : Phase) (tip : Int) : Decidable (p.Covers tip) := inferInstanceAs (Decidable (_ ∧ _))

def schedule (cs : ConsensusParams) : List Phase :=
  [⟨0, 1, 640000 * coin⟩, ⟨1, 2, 5 * coin⟩, ⟨2, cs.nZumyBeginsBlock, 5 * coin / 100⟩, ⟨2700, 375002, 16 * coin / 10⟩,
   ⟨375003, 467001, 12 * coin / 10⟩, ⟨467002, 592001, coin⟩, ⟨592002, 717000, 8 * coin / 10⟩,
   ⟨717001, 842000, 6 * coin / 10⟩, ⟨842001, 967000, 7 * coin / 10⟩, ⟨967001, 1092000, coin⟩]

def scheduleEnd : Int := 1092000

/-- The phase the branches pick after a tip, `none` for the last branch. -/
def phaseOf (cs : ConsensusParams) (tip : Int) : Option Phase := (schedule cs).find? fun p => decide (p.Covers tip)

theorem find_reward (p : Phase) (ps : List Phase) (tip : Int) (d : CAmount) :
    (((p :: ps).find? fun q => decide (q.Covers tip)).map Phase.reward).getD d =
      if p.first ≤ tip ∧ tip + 1 ≤ p.last then p.reward else ((ps.find? fun q => decide (q.Covers tip)).map Phase.reward).getD d := by
  by_cases h : p.first ≤ tip ∧ tip + 1 ≤ p.last
  · have hcov : decide (p.Covers tip) = true := decide_eq_true h
    simp only [List.find?_cons, hcov, if_pos h, Option.map_some, Option.getD_some]
  · have hcov : decide (p.Covers tip) = false := decide_eq_false h
    simp only [List.find?_cons, hcov, if_neg h]

theorem getPoWBlockPayment_eq (cs : ConsensusParams) (tip : Int) (nFees : CAmount) :
    getPoWBlockPayment cs tip nFees = ((phaseOf cs tip).map Phase.reward).getD (8 * coin / 10 + nFees) := by
  have h0 : tip = 0 ↔ 0 ≤ tip ∧ tip + 1 ≤ 1 := by omega
  have h1 : tip = 1 ↔ 1 ≤ tip ∧ tip + 1 ≤ 2 := by omega
  simp only [getPoWBlockPayment, h0, h1, phaseOf, schedule, find_reward, List.find?_nil, Option.map_none, Option.getD_none]

/-- The schedule pays for the block after `tip` in one phase: a phase covers every tip up to
the end of the schedule, no two do, the block is paid the reward of that phase, and only
after the end is the last branch reached. -/
def PaidByOnePhase (cs : ConsensusParams) (tip : Int) : Prop :=
  (tip + 1 ≤ scheduleEnd → ∃ p ∈ schedule cs, p.Covers tip) ∧
  (∀ p ∈ schedule cs, ∀ q ∈ schedule cs, p.Covers tip → q.Covers tip → p = q) ∧
  (∀ p ∈ schedule cs, p.Covers tip → ∀ nFees, getPoWBlockPayment cs tip nFees = p.reward) ∧
  (phaseOf cs tip = none → scheduleEnd < tip + 1)

def phaseEnds : List Int := [375002, 467001, 592001, 717000, 842000, 967000]

/-- Between the first two blocks and the end of the schedule, the phase that ends at
`nZumyBeginsBlock` covers exactly the tips the later phases leave out. -/
def PhasesMeet (cs : ConsensusParams) (tip : Int) : Prop :=
  0 ≤ tip ∧ (2 ≤ tip → tip + 1 ≤ scheduleEnd → (tip + 1 ≤ cs.nZumyBeginsBlock ↔ tip < 2700 ∨ tip ∈ phaseEnds))

theorem find_of_covers {ps : List Phase} {p : Phase} {tip : Int} (hp : p ∈ ps) (hcov : p.Covers tip)
    (huniq : ∀ q ∈ ps, q.Covers tip → q = p) : (ps.find? fun q => decide (q.Covers tip)) = some p := by
  cases h : ps.find? fun q => decide (q.Covers tip) with
  | none => exact absurd hcov (by simpa using List.find?_eq_none.1 h p hp)
  | some q => exact congrArg some (huniq q (List.mem_of_find?_eq_some h) (by simpa using List.find?_some h))

theorem phaseOf_eq_none_iff {cs : ConsensusParams} {tip : Int} :
    phaseOf cs tip = none ↔ ∀ p ∈ schedule cs, ¬ p.Covers tip := by
  simp [phaseOf]

theorem paidByOnePhase_iff_covers {cs : ConsensusParams} {tip : Int} : PaidByOnePhase cs tip ↔
    (tip + 1 ≤ scheduleEnd → ∃ p ∈ schedule cs, p.Covers tip) ∧
    (∀ p ∈ schedule cs, ∀ q ∈ schedule cs, p.Covers tip → q.Covers tip → p = q) := by
  constructor
  · intro h
    rcases h with ⟨hsome, huniq, -, -⟩
    exact ⟨hsome, huniq⟩
  · intro h
    rcases h with ⟨hsome, huniq⟩
    refine ⟨hsome, huniq, fun p hp hcov nFees => ?_, fun hnone => ?_⟩
    · have hfind : phaseOf cs tip = some p := find_of_covers hp hcov fun q hq hqcov => huniq q hq p hp hqcov hcov
      rw [getPoWBlockPayment_eq, hfind, Option.map_some, Option.getD_some]
    · by_contra hle
      obtain ⟨p, hp, hcov⟩ := hsome (by omega)
      exact phaseOf_eq_none_iff.1 hnone p hp hcov

/-! ## Which tips the phases cover -/

def fixedPhases : List Phase :=
  [⟨0, 1, 640000 * coin⟩, ⟨1, 2, 5 * coin⟩, ⟨2700, 375002, 16 * coin / 10⟩, ⟨375003, 467001, 12 * coin / 10⟩,
   ⟨467002, 592001, coin⟩, ⟨592002, 717000, 8 * coin / 10⟩, ⟨717001, 842000, 6 * coin / 10⟩,
   ⟨842001, 967000, 7 * coin / 10⟩, ⟨967001, 1092000, coin⟩]

def beginPhase (cs : ConsensusParams) : Phase := ⟨2, cs.nZumyBeginsBlock, 5 * coin / 100⟩

theorem mem_schedule {cs : ConsensusParams} {p : Phase} : p ∈ schedule cs ↔ p = beginPhase cs ∨ p ∈ fixedPhases := by
  simp only [schedule, fixedPhases, beginPhase, List.mem_cons, List.not_mem_nil, or_false]
  tauto

theorem fixedPhases_ordered : fixedPhases.Pairwise fun p q => p.last ≤ q.first := by decide

theorem beginPhase_notMem (cs : ConsensusParams) : beginPhase cs ∉ fixedPhases := by
  simp [beginPhase, fixedPhases, coin]

/-- Phases in the order of their heights: one that ends by the next one's first height shares no tip with it. -/
theorem eq_of_covers {ps : List Phase} {p q : Phase} {tip : Int} (hps : ps.Pairwise fun p q => p.last ≤ q.first)
    (hp : p ∈ ps) (hq : q ∈ ps) (hpt : p.Covers tip) (hqt : q.Covers tip) : p = q := by
  unfold Phase.Covers at hpt hqt
  by_contra hne
  rcases List.pairwise_iff_getElem.1 hps with h
  obtain ⟨i, hi, rfl⟩ := List.getElem_of_mem hp
  obtain ⟨j, hj, rfl⟩ := List.getElem_of_mem hq
  rcases Nat.lt_trichotomy i j with hij | rfl | hij
  · have hle := h i j hi hj hij
    omega
  · exact hne rfl
  · have hle := h j i hj hi hij
    omega

theorem fixedPhases_cover_iff {tip : Int} : (∃ p ∈ fixedPhases, p.Covers tip) ↔
    tip = 0 ∨ tip = 1 ∨ (2700 ≤ tip ∧ tip + 1 ≤ scheduleEnd ∧ tip ∉ phaseEnds) := by
  simp only [fixedPhases, Phase.Covers, List.mem_cons, List.not_mem_nil, or_false, exists_eq_or_imp, exists_eq_left,
    scheduleEnd, phaseEnds, not_or]
  omega

theorem schedule_covers_iff {cs : ConsensusParams} {tip : Int} : (∃ p ∈ schedule cs, p.Covers tip) ↔
    (beginPhase cs).Covers tip ∨ ∃ p ∈ fixedPhases, p.Covers tip := by
  simp only [mem_schedule, or_and_right, exists_or, exists_eq_left]

/-- Only the phase of `nZumyBeginsBlock` can cover a tip another phase covers. -/
theorem schedule_unique_iff {cs : ConsensusParams} {tip : Int} :
    (∀ p ∈ schedule cs, ∀ q ∈ schedule cs, p.Covers tip → q.Covers tip → p = q) ↔
      ((beginPhase cs).Covers tip → ¬ ∃ p ∈ fixedPhases, p.Covers tip) := by
  constructor
  · rintro huniq hbegin ⟨p, hp, hcov⟩
    have heq := huniq p (mem_schedule.2 (.inr hp)) _ (mem_schedule.2 (.inl rfl)) hcov hbegin
    exact beginPhase_notMem cs (heq ▸ hp)
  · intro hnot p hp q hq hpt hqt
    rcases mem_schedule.1 hp with rfl | hp
    · rcases mem_schedule.1 hq with rfl | hq
      · rfl
      · exact absurd ⟨q, hq, hqt⟩ (hnot hpt)
    · rcases mem_schedule.1 hq with rfl | hq
      · exact absurd ⟨p, hp, hpt⟩ (hnot hqt)
      · exact eq_of_covers fixedPhases_ordered hp hq hpt hqt

theorem lt_scheduleEnd_of_mem_phaseEnds {tip : Int} (h : tip ∈ phaseEnds) : 2700 ≤ tip ∧ tip + 1 ≤ scheduleEnd := by
  simp only [phaseEnds, List.mem_cons, List.not_mem_nil, or_false] at h
  unfold scheduleEnd
  omega

theorem paid_by_one_phase_iff (cs : ConsensusParams) (tip : Int) : PaidByOnePhase cs tip ↔ PhasesMeet cs tip := by
  rw [paidByOnePhase_iff_covers, schedule_covers_iff, schedule_unique_iff, fixedPhases_cover_iff]
  simp only [PhasesMeet, beginPhase, Phase.Covers, scheduleEnd]
  by_cases hend : tip ∈ phaseEnds
  · have hlt := lt_scheduleEnd_of_mem_phaseEnds hend
    simp only [hend, scheduleEnd, not_true_eq_false, and_false, or_false, or_true, iff_true] at hlt ⊢
    omega
  · simp only [hend, not_false_eq_true, and_true, or_false]
    omega

/-! ## A tip between two phases -/

/-- The block at height 375003 of the main network: the phase before it ended one block
earlier, the phase after it starts one block later, and the last branch pays it, fees included. -/
theorem reward_falls_between_phases : ¬ PaidByOnePhase mainParams 375002 ∧
    getPoWBlockPayment mainParams 375002 7 = 8 * coin / 10 + 7 := by
  refine ⟨fun h => ?_, by decide⟩
  obtain ⟨p, hp, hcov⟩ := h.1 (by decide)
  revert p
  decide

end Zumy.Payments
