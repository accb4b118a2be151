/-
  Zumy.Consensus.VersionBits — versionbits.h, versionbits.cpp: the state of a deployment, by
  the blocks before it.

  `GetStateFor` walks back in steps of a period to a block whose state is in the cache, and
  forward again. It stops early where the median time past is before the start of the
  deployment. `stateFor` is the rule without a cache: the state of a period from that of the
  one before. `GetAncestor` follows `pprev`; the skip pointers, which lead to the same blocks,
  are left out. A loop that reaches no known block, and a null pointer that is followed, are
  `none`.

  Proved, on a tree whose headers are after the median time past of their parents, for a
  deployment that does not end before it starts:
  - `stateFor_child`, `stateFor_forward`: along a chain the state only moves forward.

  Where the end is before the start, the early stop and the rule differ
  (`ended_before_start`).
-/
import Zumy.Lib.Median
import Zumy.Lib.Run
import Zumy.Lib.Tree
import Mathlib.Logic.Function.Basic

namespace Zumy.Consensus

open Zumy.Lib

inductive ThresholdState where
  | defined
  | started
  | lockedIn
  | active
  | failed
  deriving DecidableEq, Repr

variable {α : Type}

/-! ## Blocks -/

structure Headers (α : Type) where
  pprev : α → Option α
  nHeight : α → Nat
  nTime : α → Int
  nVersion : α → UInt32

namespace Headers

variable (t : Headers α)

/-- The blocks of a loop along `pprev` that ends after `n` turns, or at the null pointer. -/
def lastBlocks : Nat → Option α → List α
  | 0, _ => []
  | _ + 1, none => []
  | n + 1, some p => p :: lastBlocks n (t.pprev p)

def nMedianTimeSpan : Nat := 11

def getMedianTimePast (p : α) : Int := median ((t.lastBlocks nMedianTimeSpan (some p)).map t.nTime)

/-- `n` steps along `pprev`. -/
def back : Nat → α → Option α
  | 0, p => some p
  | n + 1, p => (t.pprev p).bind (back n)

def getAncestor (p : α) (height : Int) : Option α :=
  if (t.nHeight p : Int) < height ∨ height < 0 then none else t.back (t.nHeight p - height.toNat) p

end Headers

/-- The tree of the accepted headers: `ContextualCheckBlockHeader` compares the time with the parent's. -/
structure BlockTree (α : Type) extends Headers α where
  nHeight_root : ∀ p, pprev p = none → nHeight p = 0
  nHeight_child : ∀ p q, pprev p = some q → nHeight p = nHeight q + 1
  time_past : ∀ p q, pprev p = some q → toHeaders.getMedianTimePast q < nTime p

/-! ## The checker -/

/-- `AbstractThresholdConditionChecker`, with its virtual functions as fields. -/
structure ThresholdConditionChecker (α : Type) where
  beginTime : Int
  endTime : Int
  period : Nat
  threshold : Int
  condition : α → Bool
  /-- A remainder of a division by zero is undefined. -/
  period_pos : 0 < period

/-- A deployment of `Consensus::Params`, with the window and the threshold of all. -/
structure BIP9Deployment where
  bit : Nat
  nStartTime : Int
  nTimeout : Int
  nMinerConfirmationWindow : Nat
  nRuleChangeActivationThreshold : Nat
  window_pos : 0 < nMinerConfirmationWindow

def versionBitsTopBits : UInt32 := 0x20000000
def versionBitsTopMask : UInt32 := 0xE0000000

def BIP9Deployment.mask (d : BIP9Deployment) : UInt32 := 1 <<< UInt32.ofNat d.bit

def versionBitsConditionChecker (t : Headers α) (d : BIP9Deployment) : ThresholdConditionChecker α where
  beginTime := d.nStartTime
  endTime := d.nTimeout
  period := d.nMinerConfirmationWindow
  threshold := d.nRuleChangeActivationThreshold
  condition pindex := t.nVersion pindex &&& versionBitsTopMask == versionBitsTopBits && t.nVersion pindex &&& d.mask != 0
  period_pos := d.window_pos

/-- `ThresholdConditionCache`: the keys are null or the last block of a period. -/
abbrev ThresholdConditionCache (α : Type) := Option α → Option ThresholdState

section

variable [DecidableEq α] (t : Headers α) (checker : ThresholdConditionChecker α)

def periodEnd (pindexPrev : α) : Option α :=
  t.getAncestor pindexPrev ((t.nHeight pindexPrev : Int) - ((t.nHeight pindexPrev + 1) % checker.period : Nat))

def periodBefore (pindexPrev : α) : Option α := t.getAncestor pindexPrev ((t.nHeight pindexPrev : Int) - checker.period)

def walkBack : Nat → ThresholdConditionCache α → Option α → List α → Option (ThresholdConditionCache α × Option α × List α)
  | fuel, cache, pindexPrev, vToCompute =>
    match cache pindexPrev with
    | some _ => some (cache, pindexPrev, vToCompute)
    | none =>
      match pindexPrev with
      -- The genesis block is by definition defined.
      | none => some (Function.update cache none (some .defined), none, vToCompute)
      | some p =>
        if t.getMedianTimePast p < checker.beginTime then some (Function.update cache (some p) (some .defined), some p, vToCompute)
        else
          match fuel with
          | 0 => none
          | fuel + 1 => walkBack fuel cache (periodBefore t checker p) (p :: vToCompute)

def countBlocks : Nat → Option α → Option Nat
  | 0, _ => some 0
  | _ + 1, none => none
  | n + 1, some p => (countBlocks n (t.pprev p)).map (· + if checker.condition p then 1 else 0)

def stateNext (state : ThresholdState) (p : α) : Option ThresholdState :=
  match state with
  | .defined =>
    if checker.endTime ≤ t.getMedianTimePast p then some .failed
    else if checker.beginTime ≤ t.getMedianTimePast p then some .started
    else some .defined
  | .started =>
    if checker.endTime ≤ t.getMedianTimePast p then some .failed
    else (countBlocks t checker checker.period (some p)).map fun count =>
      if checker.threshold ≤ count then .lockedIn else .started
  | .lockedIn => some .active
  | .failed => some .failed
  | .active => some .active

def walkForward : ThresholdConditionCache α → ThresholdState → List α → Option (ThresholdState × ThresholdConditionCache α)
  | cache, state, [] => some (state, cache)
  | cache, state, p :: vToCompute => (stateNext t checker state p).bind fun next =>
    walkForward (Function.update cache (some p) (some next)) next vToCompute

def turns : Option α → Nat
  | none => 0
  | some p => t.nHeight p + 1

def getStateFor (cache : ThresholdConditionCache α) (pindexPrev : Option α) :
    Option (ThresholdState × ThresholdConditionCache α) :=
  let pindexPrev := pindexPrev.bind (periodEnd t checker)
  (walkBack t checker (turns t pindexPrev) cache pindexPrev []).bind fun (cache, pindexPrev, vToCompute) =>
    (cache pindexPrev).bind fun state => walkForward t checker cache state vToCompute

end

/-! ## The rule without a cache -/

section

variable (t : Headers α) (checker : ThresholdConditionChecker α)

/-- From the state of one period to that of the next, by the last block of the first. -/
def nextPeriod (state : ThresholdState) (p : α) : ThresholdState :=
  match state with
  | .defined =>
    if checker.endTime ≤ t.getMedianTimePast p then .failed
    else if checker.beginTime ≤ t.getMedianTimePast p then .started
    else .defined
  | .started =>
    if checker.endTime ≤ t.getMedianTimePast p then .failed
    else if checker.threshold ≤ ((t.lastBlocks checker.period (some p)).countP checker.condition : Int) then .lockedIn
    else .started
  | .lockedIn => .active
  | .active => .active
  | .failed => .failed

def statePeriod : Nat → Option α → ThresholdState
  | 0, _ => .defined
  | _ + 1, none => .defined
  | n + 1, some p => nextPeriod t checker (statePeriod n (periodBefore t checker p)) p

def stateBehind : Option α → ThresholdState
  | none => .defined
  | some p => statePeriod t checker ((t.nHeight p + 1) / checker.period) (some p)

/-- The state of the block behind `pindexPrev`. -/
def stateFor (pindexPrev : Option α) : ThresholdState := stateBehind t checker (pindexPrev.bind (periodEnd t checker))

end

/-- How a state moves: a deployment fails before it is locked in, or becomes active. -/
inductive Moves : ThresholdState → ThresholdState → Prop
  | start : Moves .defined .started
  | lockIn : Moves .started .lockedIn
  | activate : Moves .lockedIn .active
  | failUnstarted : Moves .defined .failed
  | failStarted : Moves .started .failed

/-! ## Ancestors -/

section

variable {t : BlockTree α} {p q : α} {n : Nat}

theorem nHeight_back (h : t.back n p = some q) : t.nHeight q + n = t.nHeight p := by
  induction n generalizing p with
  | zero =>
    cases h
    rfl
  | succ n ih =>
    obtain ⟨parent, hparent, hrest⟩ := Option.bind_eq_some_iff.1 h
    have hheight := t.nHeight_child p parent hparent
    have hback := ih hrest
    omega

theorem up_back (h : t.back n p = some q) : Up t.pprev p q := by
  induction n generalizing p with
  | zero =>
    cases h
    exact .refl
  | succ n ih =>
    obtain ⟨parent, hparent, hrest⟩ := Option.bind_eq_some_iff.1 h
    exact (ih hrest).head hparent

theorem getAncestor_of_le (h : n ≤ t.nHeight p) : t.getAncestor p ((t.nHeight p : Int) - n) = t.back n p := by
  have hindex : t.nHeight p - ((t.nHeight p : Int) - n).toNat = n := by omega
  rw [Headers.getAncestor, if_neg (by omega), hindex]

theorem getAncestor_of_lt (h : t.nHeight p < n) : t.getAncestor p ((t.nHeight p : Int) - n) = none := by
  rw [Headers.getAncestor, if_pos (by omega)]

/-! ## Median time past -/

theorem length_lastBlocks (t : Headers α) (n : Nat) (o : Option α) : (t.lastBlocks n o).length ≤ n := by
  induction n generalizing o with
  | zero => exact Nat.le_refl 0
  | succ n ih =>
    cases o with
    | none => exact Nat.zero_le _
    | some p => exact Nat.succ_le_succ (ih (t.pprev p))

theorem take_lastBlocks (t : Headers α) (n : Nat) (o : Option α) : (t.lastBlocks (n + 1) o).take n = t.lastBlocks n o := by
  induction n generalizing o with
  | zero => exact List.take_zero
  | succ n ih =>
    cases o with
    | none => rfl
    | some p =>
      show p :: (t.lastBlocks (n + 1) (t.pprev p)).take n = p :: t.lastBlocks n (t.pprev p)
      rw [ih]

theorem medianTimePast_child (h : t.pprev p = some q) : t.getMedianTimePast q ≤ t.getMedianTimePast p := by
  have hslide : (t.lastBlocks Headers.nMedianTimeSpan (some p)).map t.nTime =
      t.nTime p :: ((t.lastBlocks Headers.nMedianTimeSpan (some q)).map t.nTime).take 10 := by
    rw [← List.map_take, Headers.nMedianTimeSpan, take_lastBlocks, ← h]
    rfl
  rw [Headers.getMedianTimePast, Headers.getMedianTimePast, hslide]
  refine median_le_of_slide (by simp [Headers.lastBlocks, Headers.nMedianTimeSpan]) ?_ (t.time_past p q h).le
  rw [List.length_map]
  exact length_lastBlocks ..

theorem medianTimePast_up (h : Up t.pprev p q) : t.getMedianTimePast q ≤ t.getMedianTimePast p := by
  induction h with
  | refl => exact Int.le_refl _
  | tail _ hstep ih => exact (medianTimePast_child hstep).trans ih

end

/-! ## Periods -/

section

variable {t : BlockTree α} {checker : ThresholdConditionChecker α} {p q : α}

def AtEnd (t : Headers α) (checker : ThresholdConditionChecker α) (p : α) : Prop := checker.period ∣ t.nHeight p + 1

theorem periodEnd_some (h : periodEnd t.toHeaders checker p = some q) : AtEnd t.toHeaders checker q ∧ Up t.pprev p q := by
  unfold periodEnd at h
  rcases Nat.lt_or_ge (t.nHeight p) ((t.nHeight p + 1) % checker.period) with hlt | hge
  · rw [getAncestor_of_lt hlt] at h
    cases h
  · rw [getAncestor_of_le hge] at h
    refine ⟨?_, up_back h⟩
    have hheight := nHeight_back h
    have hmod := Nat.mod_add_div (t.nHeight p + 1) checker.period
    exact ⟨(t.nHeight p + 1) / checker.period, by omega⟩

theorem period_le (h : AtEnd t.toHeaders checker p) : checker.period ≤ t.nHeight p + 1 := Nat.le_of_dvd (Nat.succ_pos _) h

theorem periodBefore_some (h : AtEnd t.toHeaders checker p) (hbefore : periodBefore t.toHeaders checker p = some q) :
    AtEnd t.toHeaders checker q ∧ Up t.pprev p q ∧ t.nHeight q + checker.period = t.nHeight p := by
  unfold periodBefore at hbefore
  rcases Nat.lt_or_ge (t.nHeight p) checker.period with hlt | hge
  · rw [getAncestor_of_lt hlt] at hbefore
    cases hbefore
  · rw [getAncestor_of_le hge] at hbefore
    have hheight := nHeight_back hbefore
    refine ⟨?_, up_back hbefore, hheight⟩
    have hsub : t.nHeight q + 1 = t.nHeight p + 1 - checker.period := by omega
    unfold AtEnd
    rw [hsub]
    exact Nat.dvd_sub h (Nat.dvd_refl _)

theorem stateBehind_some (h : AtEnd t.toHeaders checker p) :
    stateBehind t.toHeaders checker (some p) =
      nextPeriod t.toHeaders checker (stateBehind t.toHeaders checker (periodBefore t.toHeaders checker p)) p := by
  obtain ⟨k, hk⟩ := h
  cases k with
  | zero => omega
  | succ k =>
    have hnumber : (t.nHeight p + 1) / checker.period = k + 1 := by rw [hk, Nat.mul_div_cancel_left _ checker.period_pos]
    rw [stateBehind, hnumber, statePeriod]
    cases hbefore : periodBefore t.toHeaders checker p with
    | none => cases k <;> rfl
    | some q =>
      have hheight := (periodBefore_some ⟨k + 1, hk⟩ hbefore).2.2
      have hq : t.nHeight q + 1 = checker.period * k := by
        rw [Nat.mul_succ] at hk
        omega
      rw [stateBehind, hq, Nat.mul_div_cancel_left _ checker.period_pos]

theorem stateBehind_early (hstart : checker.beginTime ≤ checker.endTime) (h : AtEnd t.toHeaders checker p)
    (hearly : t.getMedianTimePast p < checker.beginTime) : stateBehind t.toHeaders checker (some p) = .defined := by
  generalize hn : t.nHeight p = n
  induction n using Nat.strong_induction_on generalizing p with
  | _ n ih =>
    have hbefore : stateBehind t.toHeaders checker (periodBefore t.toHeaders checker p) = .defined := by
      cases hq : periodBefore t.toHeaders checker p with
      | none => rfl
      | some q =>
        obtain ⟨hend, hup, hheight⟩ := periodBefore_some h hq
        have hpos := checker.period_pos
        exact ih (t.nHeight q) (by omega) hend ((medianTimePast_up hup).trans_lt hearly) rfl
    rw [stateBehind_some h, hbefore, nextPeriod, if_neg (by omega), if_neg (by omega)]

/-! ## The loops -/

theorem countBlocks_eq (checker : ThresholdConditionChecker α) {n : Nat} (h : n ≤ t.nHeight p + 1) :
    countBlocks t.toHeaders checker n (some p) = some ((t.lastBlocks n (some p)).countP checker.condition) := by
  induction n generalizing p with
  | zero => rfl
  | succ n ih =>
    have hrest : countBlocks t.toHeaders checker n (t.pprev p) =
      some ((t.lastBlocks n (t.pprev p)).countP checker.condition) := by
      cases hparent : t.pprev p with
      | none =>
        have hroot := t.nHeight_root p hparent
        obtain rfl : n = 0 := by omega
        rfl
      | some parent =>
        have hheight := t.nHeight_child p parent hparent
        exact ih (by omega)
    rw [countBlocks, hrest, Headers.lastBlocks, List.countP_cons, Option.map_some]

theorem stateNext_eq (h : AtEnd t.toHeaders checker p) (state : ThresholdState) :
    stateNext t.toHeaders checker state p = some (nextPeriod t.toHeaders checker state p) := by
  cases state with
  | defined =>
    simp only [stateNext, nextPeriod]
    split
    · rfl
    · split <;> rfl
  | started =>
    simp only [stateNext, nextPeriod, countBlocks_eq checker (period_le h)]
    split
    · rfl
    · rfl
  | lockedIn => rfl
  | active => rfl
  | failed => rfl

def Known (t : Headers α) (checker : ThresholdConditionChecker α) (cache : ThresholdConditionCache α) : Prop :=
  ∀ o state, cache o = some state → state = stateBehind t checker o

/-- The periods to compute, from behind `o` up to `goal`. -/
def Pending (t : Headers α) (checker : ThresholdConditionChecker α) : Option α → List α → Option α → Prop
  | o, [], goal => o = goal
  | o, p :: vToCompute, goal => AtEnd t checker p ∧ periodBefore t checker p = o ∧ Pending t checker (some p) vToCompute goal

variable [DecidableEq α] {cache : ThresholdConditionCache α}

theorem Known.update (h : Known t.toHeaders checker cache) (o : Option α) :
    Known t.toHeaders checker (Function.update cache o (some (stateBehind t.toHeaders checker o))) := by
  intro o' state hstate
  by_cases ho : o' = o
  · rw [ho, Function.update_self] at hstate
    cases hstate
    rw [ho]
  · rw [Function.update_of_ne ho] at hstate
    exact h o' state hstate

/-- The induction is on the turns that are left: the height falls by a period in each. -/
theorem walkBack_spec (hstart : checker.beginTime ≤ checker.endTime) (hknown : Known t.toHeaders checker cache) {fuel : Nat}
    {o goal : Option α} {vToCompute : List α} (hpending : Pending t.toHeaders checker o vToCompute goal)
    (hend : ∀ p, o = some p → AtEnd t.toHeaders checker p) (hfuel : turns t.toHeaders o ≤ fuel) :
    ∃ cache' o' vToCompute', walkBack t.toHeaders checker fuel cache o vToCompute = some (cache', o', vToCompute') ∧
      Known t.toHeaders checker cache' ∧ cache' o' = some (stateBehind t.toHeaders checker o') ∧
      Pending t.toHeaders checker o' vToCompute' goal := by
  induction fuel generalizing o vToCompute with
  | zero =>
    cases o with
    | some p => exact absurd hfuel (Nat.not_succ_le_zero _)
    | none =>
      unfold walkBack
      cases hcache : cache none with
      | some state => exact ⟨_, _, _, rfl, hknown, by rw [hcache, hknown _ _ hcache], hpending⟩
      | none => exact ⟨_, _, _, rfl, hknown.update none, Function.update_self .., hpending⟩
  | succ fuel ih =>
    unfold walkBack
    cases hcache : cache o with
    | some state => exact ⟨_, _, _, rfl, hknown, by rw [hcache, hknown _ _ hcache], hpending⟩
    | none =>
      cases o with
      | none => exact ⟨_, _, _, rfl, hknown.update none, Function.update_self .., hpending⟩
      | some p =>
        have hp := hend p rfl
        dsimp only
        split
        · next hearly =>
          have hupdate := hknown.update (some p)
          rw [stateBehind_early hstart hp hearly] at hupdate
          exact ⟨_, _, _, rfl, hupdate, by rw [Function.update_self, stateBehind_early hstart hp hearly], hpending⟩
        · refine ih ⟨hp, rfl, hpending⟩ (fun q hq => (periodBefore_some hp hq).1) ?_
          have hp' : t.nHeight p + 1 ≤ fuel + 1 := hfuel
          cases hq : periodBefore t.toHeaders checker p with
          | none => exact Nat.zero_le _
          | some q =>
            have hheight := (periodBefore_some hp hq).2.2
            have hpos := checker.period_pos
            show t.nHeight q + 1 ≤ fuel
            omega

theorem walkForward_spec (hknown : Known t.toHeaders checker cache) {o goal : Option α} {vToCompute : List α}
    (hpending : Pending t.toHeaders checker o vToCompute goal) :
    ∃ cache', walkForward t.toHeaders checker cache (stateBehind t.toHeaders checker o) vToCompute =
      some (stateBehind t.toHeaders checker goal, cache') ∧ Known t.toHeaders checker cache' := by
  induction vToCompute generalizing cache o with
  | nil =>
    obtain rfl : o = goal := hpending
    exact ⟨cache, rfl, hknown⟩
  | cons p vToCompute ih =>
    obtain ⟨hp, rfl, hrest⟩ := hpending
    rw [walkForward, stateNext_eq hp, Option.bind_some, ← stateBehind_some hp]
    exact ih (hknown.update (some p)) hrest

theorem getStateFor_known (hstart : checker.beginTime ≤ checker.endTime) (hknown : Known t.toHeaders checker cache)
    (pindexPrev : Option α) :
    ∃ cache', getStateFor t.toHeaders checker cache pindexPrev = some (stateFor t.toHeaders checker pindexPrev, cache') ∧
      Known t.toHeaders checker cache' := by
  have hend : ∀ p, pindexPrev.bind (periodEnd t.toHeaders checker) = some p → AtEnd t.toHeaders checker p := by
    intro p hp
    obtain ⟨_, _, hp⟩ := Option.bind_eq_some_iff.1 hp
    exact (periodEnd_some hp).1
  have hnone : Pending t.toHeaders checker (pindexPrev.bind (periodEnd t.toHeaders checker)) []
      (pindexPrev.bind (periodEnd t.toHeaders checker)) := rfl
  obtain ⟨cache', o, vToCompute, hwalk, hknown', hcache, hpending⟩ := walkBack_spec hstart hknown hnone hend (Nat.le_refl _)
  obtain ⟨cache'', hforward, hknown''⟩ := walkForward_spec hknown' hpending
  refine ⟨cache'', ?_, hknown''⟩
  rw [getStateFor, hwalk, Option.bind_some]
  dsimp only
  rw [hcache, Option.bind_some, hforward]
  rfl

/-! ## Runs of calls -/

def call (t : Headers α) (checker : ThresholdConditionChecker α) (cache : ThresholdConditionCache α) (pindexPrev : Option α) :
    Option (ThresholdConditionCache α) := (getStateFor t checker cache pindexPrev).map Prod.snd

theorem run_known (hstart : checker.beginTime ≤ checker.endTime) (hknown : Known t.toHeaders checker cache)
    (calls : List (Option α)) :
    ∃ cache', run (call t.toHeaders checker) cache calls = some cache' ∧ Known t.toHeaders checker cache' := by
  induction calls generalizing cache with
  | nil => exact ⟨cache, rfl, hknown⟩
  | cons pindexPrev calls ih =>
    obtain ⟨cache', hcall, hknown'⟩ := getStateFor_known hstart hknown pindexPrev
    obtain ⟨cache'', hrun, hknown''⟩ := ih hknown'
    refine ⟨cache'', ?_, hknown''⟩
    rw [run_cons, call, hcall, Option.map_some, Option.bind_some, hrun]

end

/-! ## Forward -/

section

variable {t : BlockTree α} {checker : ThresholdConditionChecker α} {p q : α}

theorem nextPeriod_moves (t : Headers α) (checker : ThresholdConditionChecker α) (state : ThresholdState) (p : α) :
    nextPeriod t checker state p = state ∨ Moves state (nextPeriod t checker state p) := by
  cases state with
  | defined =>
    simp only [nextPeriod]
    split
    · exact .inr .failUnstarted
    · split
      · exact .inr .start
      · exact .inl rfl
  | started =>
    simp only [nextPeriod]
    split
    · exact .inr .failStarted
    · split
      · exact .inr .lockIn
      · exact .inl rfl
  | lockedIn => exact .inr .activate
  | active => exact .inl rfl
  | failed => exact .inl rfl

theorem periodEnd_atEnd (h : AtEnd t.toHeaders checker p) : periodEnd t.toHeaders checker p = some p := by
  have hmod : (t.nHeight p + 1) % checker.period = 0 := Nat.mod_eq_zero_of_dvd h
  rw [periodEnd, hmod, getAncestor_of_le (Nat.zero_le _)]
  rfl

theorem getAncestor_parent (t : BlockTree α) (p : α) (n : Nat) :
    t.getAncestor p ((t.nHeight p : Int) - (n + 1 : Nat)) = (t.pprev p).bind fun q =>
      t.getAncestor q ((t.nHeight q : Int) - n) := by
  cases hparent : t.pprev p with
  | none => rw [getAncestor_of_lt (by rw [t.nHeight_root p hparent]; omega), Option.bind_none]
  | some q =>
    have hheight := t.nHeight_child p q hparent
    rw [Option.bind_some]
    rcases Nat.lt_or_ge (t.nHeight q) n with hlt | hge
    · rw [getAncestor_of_lt hlt, getAncestor_of_lt (by omega)]
    · rw [getAncestor_of_le hge, getAncestor_of_le (by omega), Headers.back, hparent, Option.bind_some]

/-- The remainder that leads from the parent of a block to the end of a period. -/
theorem bind_periodEnd (t : BlockTree α) (checker : ThresholdConditionChecker α) (p : α) :
    (t.pprev p).bind (periodEnd t.toHeaders checker) =
      t.getAncestor p ((t.nHeight p : Int) - (t.nHeight p % checker.period + 1 : Nat)) := by
  rw [getAncestor_parent]
  cases hparent : t.pprev p with
  | none => rfl
  | some q => rw [Option.bind_some, Option.bind_some, periodEnd, t.nHeight_child p q hparent]

/-- Within a period the state is that of the parent; behind its end, that of the next period. -/
theorem stateFor_some (t : BlockTree α) (checker : ThresholdConditionChecker α) (p : α) :
    stateFor t.toHeaders checker (some p) = stateFor t.toHeaders checker (t.pprev p) ∨
    stateFor t.toHeaders checker (some p) = nextPeriod t.toHeaders checker (stateFor t.toHeaders checker (t.pprev p)) p := by
  have hpos := checker.period_pos
  have hdiv := Nat.div_add_mod (t.nHeight p) checker.period
  have hlt := Nat.mod_lt (t.nHeight p) hpos
  rcases Nat.lt_or_ge (t.nHeight p % checker.period + 1) checker.period with hwithin | hend
  · left
    have hmod : (t.nHeight p + 1) % checker.period = t.nHeight p % checker.period + 1 := by
      rw [Nat.add_mod, Nat.mod_eq_of_lt (a := 1) (by omega), Nat.mod_eq_of_lt hwithin]
    rw [stateFor, stateFor, bind_periodEnd, Option.bind_some, periodEnd, hmod]
  · right
    have hperiod : t.nHeight p % checker.period + 1 = checker.period := by omega
    have hatEnd : AtEnd t.toHeaders checker p := by
      refine ⟨t.nHeight p / checker.period + 1, ?_⟩
      rw [Nat.mul_succ]
      omega
    rw [stateFor, stateFor, bind_periodEnd, hperiod, Option.bind_some, periodEnd_atEnd hatEnd, stateBehind_some hatEnd]
    rfl

theorem stateFor_child (t : BlockTree α) (checker : ThresholdConditionChecker α) (p : α) :
    stateFor t.toHeaders checker (some p) = stateFor t.toHeaders checker (t.pprev p) ∨
      Moves (stateFor t.toHeaders checker (t.pprev p)) (stateFor t.toHeaders checker (some p)) := by
  rcases stateFor_some t checker p with h | h
  · exact .inl h
  · rw [h]
    exact nextPeriod_moves ..

theorem stateFor_forward (t : BlockTree α) (checker : ThresholdConditionChecker α) (h : Up t.pprev p q) :
    Relation.ReflTransGen Moves (stateFor t.toHeaders checker (some q)) (stateFor t.toHeaders checker (some p)) := by
  induction h with
  | refl => exact .refl
  | @tail p q _ hstep ih =>
    refine Relation.ReflTransGen.trans ?_ ih
    rcases stateFor_child t checker p with h | h
    · rw [h, hstep]
    · rw [hstep] at h
      exact .single h

/-- Every chain begins with a block whose deployments are defined, or move from there. -/
theorem stateFor_from_defined (t : BlockTree α) (checker : ThresholdConditionChecker α) (p : α) :
    Relation.ReflTransGen Moves .defined (stateFor t.toHeaders checker (some p)) := by
  have hrank : Ranked t.pprev t.nHeight fun _ => True := by
    intro a b _ hab
    have hheight := t.nHeight_child a b hab
    exact ⟨trivial, by omega⟩
  obtain ⟨g, hup, -, hroot⟩ := exists_root hrank (a := p) trivial
  refine Relation.ReflTransGen.trans ?_ (stateFor_forward t checker hup)
  have hfirst := stateFor_child t checker g
  rw [hroot] at hfirst
  rcases hfirst with h | h
  · rw [h]
    exact .refl
  · exact .single h

end

/-- Behind any calls the answer is that of the rule without a cache, and along a chain it only moves forward. -/
theorem getStateFor_eq [DecidableEq α] (t : BlockTree α) (checker : ThresholdConditionChecker α)
    (hstart : checker.beginTime ≤ checker.endTime) :
    (∀ (calls : List (Option α)) (pindexPrev : Option α), ∃ cache cache',
      run (call t.toHeaders checker) (fun _ => none) calls = some cache ∧
      getStateFor t.toHeaders checker cache pindexPrev = some (stateFor t.toHeaders checker pindexPrev, cache')) ∧
    (∀ p, Relation.ReflTransGen Moves .defined (stateFor t.toHeaders checker (some p))) ∧
    ∀ p q, Up t.pprev p q →
      Relation.ReflTransGen Moves (stateFor t.toHeaders checker (some q)) (stateFor t.toHeaders checker (some p)) := by
  refine ⟨fun calls pindexPrev => ?_, stateFor_from_defined t checker, fun p q h => stateFor_forward t checker h⟩
  have hempty : Known t.toHeaders checker fun _ => none := by
    intro o state h
    cases h
  obtain ⟨cache, hrun, hknown⟩ := run_known hstart hempty calls
  obtain ⟨cache', hcall, -⟩ := getStateFor_known hstart hknown pindexPrev
  exact ⟨cache, cache', hrun, hcall⟩

def sampleTree : BlockTree (Fin 3) where
  pprev p := if p = 0 then none else some (p - 1)
  nHeight p := p
  nTime p := 100 + 10 * p
  nVersion p := if p = 0 then 1 else 0x20000001
  nHeight_root := by decide
  nHeight_child := by decide
  time_past := by decide

def sampleDeployment : BIP9Deployment := ⟨0, 100, 1000, 1, 1, by decide⟩

theorem getStateFor_eq_sample :
    (∀ (calls : List (Option (Fin 3))) (pindexPrev : Option (Fin 3)), ∃ cache cache',
      run (call sampleTree.toHeaders (versionBitsConditionChecker sampleTree.toHeaders sampleDeployment)) (fun _ => none) calls =
        some cache ∧
      getStateFor sampleTree.toHeaders (versionBitsConditionChecker sampleTree.toHeaders sampleDeployment) cache pindexPrev =
        some (stateFor sampleTree.toHeaders (versionBitsConditionChecker sampleTree.toHeaders sampleDeployment) pindexPrev, cache')) ∧
    stateFor sampleTree.toHeaders (versionBitsConditionChecker sampleTree.toHeaders sampleDeployment) (some 2) = .active :=
  ⟨(getStateFor_eq sampleTree (versionBitsConditionChecker sampleTree.toHeaders sampleDeployment) (by decide)).1, by decide⟩

/-- A deployment that ends before it starts: where the median time past is between the two, the rule says that it
    failed, and the early stop that it is defined. -/
theorem ended_before_start :
    ¬ ∀ (t : BlockTree (Fin 3)) (checker : ThresholdConditionChecker (Fin 3)) (calls : List (Option (Fin 3)))
      (pindexPrev : Option (Fin 3)),
      ∃ cache cache', run (call t.toHeaders checker) (fun _ => none) calls = some cache ∧
        getStateFor t.toHeaders checker cache pindexPrev = some (stateFor t.toHeaders checker pindexPrev, cache') := by
  intro h
  obtain ⟨cache, cache', hrun, hcall⟩ :=
    h sampleTree (versionBitsConditionChecker sampleTree.toHeaders ⟨0, 1000, 50, 1, 1, by decide⟩) [] (some 0)
  cases hrun
  have hstate := congrArg (Option.map Prod.fst) hcall
  rw [Option.map_some] at hstate
  dsimp only at hstate
  clear hcall
  revert hstate
  decide

end Zumy.Consensus
