/-
  Zumy.PrivateSend.Splitting — privatesend.cpp: how CreateDenominated splits an amount.

  The outputs are made from the smallest denomination up, on a first pass without those that the
  wallet has enough of, and on a second one with all of them if the first added nothing. Keys come
  from the key pool, one for each output. The text for the user is left out, as is what follows the
  loop: the wallet funds the transaction and gives the rest back as change.
-/
import Mathlib.Data.List.Find
import Zumy.PrivateSend.Pool

namespace Zumy.PrivateSend

def denomsCountMax : Int := 100

structure CRecipient where
  scriptPubKey : CScript
  nAmount : Int
  fSubtractFeeFromAmount : Bool
  deriving DecidableEq, Repr

structure SplitWallet where
  countInputsWithAmount : Int → Int
  /-- The script of each key that is reserved. -/
  reservedScript : Nat → CScript

structure Splitting where
  vecSend : List CRecipient
  nValueLeft : Int
  nOutputsTotal : Nat
  vecDenominationsSkipped : List Int
  nReserved : Nat
  deriving DecidableEq, Repr

def Splitting.isDenomSkipped (s : Splitting) (nDenomValue : Int) : Bool := s.vecDenominationsSkipped.contains nDenomValue

def Splitting.addOutput (w : SplitWallet) (nDenomValue : Int) (s : Splitting) : Splitting :=
  { s with
    vecSend := s.vecSend ++ [⟨w.reservedScript s.nReserved, nDenomValue, false⟩]
    nValueLeft := s.nValueLeft - nDenomValue
    nReserved := s.nReserved + 1 }

def addOutputs (w : SplitWallet) (nDenomValue : Int) (nOutputs : Nat) (s : Splitting) : Nat × Splitting :=
  if s.nValueLeft - nDenomValue ≥ 0 ∧ nOutputs ≤ 10 then addOutputs w nDenomValue (nOutputs + 1) (s.addOutput w nDenomValue)
  else (nOutputs, s)
termination_by 11 - nOutputs
decreasing_by omega

def splitPass (w : SplitWallet) (fSkip : Bool) : List Int → Splitting → Splitting
  | [], s => s
  | nDenomValue :: rest, s =>
    if fSkip && s.isDenomSkipped nDenomValue then splitPass w fSkip rest s
    else if fSkip && nDenomValue != vecPrivateSendDenominations.headD 0 &&
        w.countInputsWithAmount nDenomValue > denomsCountMax then
      splitPass w fSkip rest { s with vecDenominationsSkipped := s.vecDenominationsSkipped ++ [nDenomValue] }
    else
      let (nOutputs, s) := addOutputs w nDenomValue 0 s
      let s := { s with nOutputsTotal := s.nOutputsTotal + nOutputs }
      if s.nValueLeft = 0 then s else splitPass w fSkip rest s

/-- `do … while (nOutputsTotal == 0 && !fSkip)` -/
def splitLoop (w : SplitWallet) (fSkip : Bool) (s : Splitting) : Splitting :=
  let s := splitPass w fSkip vecPrivateSendDenominations.reverse s
  let fSkip' := !fSkip
  if s.nOutputsTotal = 0 ∧ fSkip' = false then splitLoop w fSkip' s else s
termination_by fSkip.toNat
decreasing_by grind

def splitStart (w : SplitWallet) (vecDenominationsSkipped : List Int) (nAmount : Int)
    (fCreateMixingCollaterals : Bool) : Splitting :=
  let nValueLeft := nAmount - privatesendCollateral
  if fCreateMixingCollaterals then
    { vecSend := [⟨w.reservedScript 0, privatesendCollateral * 4, false⟩]
      nValueLeft := nValueLeft - privatesendCollateral * 4
      nOutputsTotal := 0
      vecDenominationsSkipped
      nReserved := 1 }
  else { vecSend := [], nValueLeft, nOutputsTotal := 0, vecDenominationsSkipped, nReserved := 1 }

/-- `CreateDenominated` up to the end of the loop. -/
def createDenominated (w : SplitWallet) (vecDenominationsSkipped : List Int) (nAmount : Int)
    (fCreateMixingCollaterals : Bool) : Splitting :=
  splitLoop w true (splitStart w vecDenominationsSkipped nAmount fCreateMixingCollaterals)

/-! ## Outputs -/

variable {w : SplitWallet} {s s' t : Splitting} {d : Int} {ds : List Int} {fSkip : Bool}

def Splitting.amounts (s : Splitting) : List Int := s.vecSend.map (·.nAmount)

/-- What the loop keeps: the value, that it does not fall below zero, and the outputs made. -/
structure Splits (s s' : Splitting) : Prop where
  total : s.nOutputsTotal ≤ s'.nOutputsTotal
  conserved : s'.amounts.sum + s'.nValueLeft = s.amounts.sum + s.nValueLeft
  bounded : min 0 s.nValueLeft ≤ s'.nValueLeft
  outputs : s.amounts <+: s'.amounts

theorem Splits.refl : Splits s s := ⟨Nat.le_refl _, rfl, min_le_right _ _, List.prefix_rfl⟩

theorem Splits.trans (h : Splits s s') (h' : Splits s' t) : Splits s t where
  total := h.total.trans h'.total
  conserved := h'.conserved.trans h.conserved
  bounded := by
    have hs := h.bounded
    have ht := h'.bounded
    omega
  outputs := h.outputs.trans h'.outputs

structure Quiet (s s' : Splitting) : Prop where
  amounts : s'.amounts = s.amounts
  left : s'.nValueLeft = s.nValueLeft
  total : s'.nOutputsTotal = s.nOutputsTotal

theorem Quiet.trans (h : Quiet s s') (h' : Quiet s' t) : Quiet s t :=
  ⟨h'.amounts.trans h.amounts, h'.left.trans h.left, h'.total.trans h.total⟩

theorem Quiet.of_skipped {skipped : List Int} (h : Quiet { s with vecDenominationsSkipped := skipped } s') : Quiet s s' :=
  ⟨h.amounts, h.left, h.total⟩

/-- `k` outputs of one denomination. -/
structure Adds (d : Int) (k : Nat) (s s' : Splitting) : Prop where
  amounts : s'.amounts = s.amounts ++ List.replicate k d
  left : s'.nValueLeft = s.nValueLeft - k * d
  total : s'.nOutputsTotal = s.nOutputsTotal

theorem Adds.quiet (h : Adds d 0 s s') : Quiet s s' where
  amounts := by rw [h.amounts, List.replicate_zero, List.append_nil]
  left := by rw [h.left, Int.natCast_zero, Int.zero_mul, Int.sub_zero]
  total := h.total

theorem Adds.splits {k : Nat} (h : Adds d k s s') (hleft : 0 < k → 0 ≤ s'.nValueLeft) : Splits s s' where
  total := h.total.ge
  conserved := by
    rw [h.amounts, h.left, List.sum_append, List.sum_replicate, nsmul_eq_mul]
    omega
  bounded := by
    rcases Nat.eq_zero_or_pos k with rfl | hk
    · rw [h.quiet.left]
      exact min_le_right _ _
    · exact (min_le_left _ _).trans (hleft hk)
  outputs := by
    rw [h.amounts]
    exact List.prefix_append _ _

/-- The inner loop: it stops where the value does not hold another output, or behind the eleventh. -/
theorem addOutputs_spec (w : SplitWallet) (d : Int) (n : Nat) (s : Splitting) :
    ∃ k, (addOutputs w d n s).1 = n + k ∧ Adds d k s (addOutputs w d n s).2 ∧ (0 < k → n + k ≤ 11) ∧
      (0 < k → 0 ≤ (addOutputs w d n s).2.nValueLeft) ∧
      ((addOutputs w d n s).2.nValueLeft < d ∨ 11 ≤ n + k) ∧
      (addOutputs w d n s).2.vecDenominationsSkipped = s.vecDenominationsSkipped := by
  induction n, s using addOutputs.induct w d with
  | case1 n s hgo ih =>
    rw [addOutputs, if_pos hgo]
    obtain ⟨k, hn, hadds, hcap, hleft, hstop, hskipped⟩ := ih
    refine ⟨k + 1, by omega, ⟨?_, ?_, hadds.total⟩, fun _ => ?_, fun _ => ?_, by omega, hskipped⟩
    · rw [hadds.amounts, Splitting.amounts, Splitting.addOutput, List.map_append, List.append_assoc, List.replicate_succ]
      rfl
    · rw [hadds.left, Int.natCast_succ, Int.add_mul, Int.one_mul]
      show s.nValueLeft - d - k * d = _
      omega
    · rcases Nat.eq_zero_or_pos k with rfl | hk
      · omega
      · have := hcap hk
        omega
    · rcases Nat.eq_zero_or_pos k with rfl | hk
      · rw [hadds.quiet.left]
        exact hgo.1
      · exact hleft hk
  | case2 n s hstop =>
    rw [addOutputs, if_neg hstop]
    refine ⟨0, rfl, ⟨?_, ?_, rfl⟩, fun h => absurd h (Nat.lt_irrefl 0), fun h => absurd h (Nat.lt_irrefl 0), ?_, rfl⟩
    · rw [List.replicate_zero, List.append_nil]
    · rw [Int.natCast_zero, Int.zero_mul, Int.sub_zero]
    · show s.nValueLeft < d ∨ 11 ≤ n + 0
      omega

/-! ## A pass -/

def passesOver (w : SplitWallet) (vecDenominationsSkipped : List Int) (nDenomValue : Int) : Bool :=
  vecDenominationsSkipped.contains nDenomValue ||
    (nDenomValue != vecPrivateSendDenominations.headD 0 && w.countInputsWithAmount nDenomValue > denomsCountMax)

theorem splitPass_over (ds : List Int) (h : passesOver w s.vecDenominationsSkipped d = true) :
    ∃ skipped, splitPass w true (d :: ds) s = splitPass w true ds { s with vecDenominationsSkipped := skipped } ∧
      ∀ e, e ≠ d → (e ∈ skipped ↔ e ∈ s.vecDenominationsSkipped) := by
  rw [splitPass]
  by_cases hskipped : s.isDenomSkipped d = true
  · rw [Bool.true_and, if_pos hskipped]
    exact ⟨_, rfl, fun _ _ => Iff.rfl⟩
  · have hcount : (d != vecPrivateSendDenominations.headD 0 && w.countInputsWithAmount d > denomsCountMax) = true :=
      (Bool.or_eq_true_iff.1 h).resolve_left hskipped
    rw [Bool.true_and, if_neg hskipped, if_pos (by rwa [Bool.true_and])]
    refine ⟨_, rfl, fun e hne => ?_⟩
    rw [List.mem_append, List.mem_singleton]
    exact or_iff_left hne

def tally (added : Nat × Splitting) : Splitting := { added.2 with nOutputsTotal := added.2.nOutputsTotal + added.1 }

theorem splitPass_tried (h : (fSkip && passesOver w s.vecDenominationsSkipped d) = false) :
    splitPass w fSkip (d :: ds) s =
      if (tally (addOutputs w d 0 s)).nValueLeft = 0 then tally (addOutputs w d 0 s)
      else splitPass w fSkip ds (tally (addOutputs w d 0 s)) := by
  rw [splitPass, if_neg, if_neg]
  · rfl
  all_goals
    cases fSkip
    · exact Bool.false_ne_true
    · rw [Bool.true_and, passesOver, Bool.or_eq_false_iff] at h
      grind [Splitting.isDenomSkipped]

theorem tally_spec (w : SplitWallet) (d : Int) (s : Splitting) :
    ∃ k ≤ 11, (tally (addOutputs w d 0 s)).amounts = s.amounts ++ List.replicate k d ∧
      (tally (addOutputs w d 0 s)).nValueLeft = s.nValueLeft - k * d ∧
      (tally (addOutputs w d 0 s)).nOutputsTotal = s.nOutputsTotal + k ∧
      (0 < k → 0 ≤ s.nValueLeft - k * d) ∧ (s.nValueLeft - k * d < d ∨ k = 11) ∧ Splits s (tally (addOutputs w d 0 s)) := by
  obtain ⟨k, hn, hadds, hcap, hleft, hstop, -⟩ := addOutputs_spec w d 0 s
  rw [hadds.left] at hleft hstop
  have hk : k ≤ 11 := by
    rcases Nat.eq_zero_or_pos k with rfl | hk
    · exact Nat.zero_le _
    · have := hcap hk
      omega
  have hsplits : Splits s (addOutputs w d 0 s).2 := hadds.splits (by rwa [hadds.left])
  have htotal : (tally (addOutputs w d 0 s)).nOutputsTotal = s.nOutputsTotal + k := by
    show (addOutputs w d 0 s).2.nOutputsTotal + (addOutputs w d 0 s).1 = _
    rw [hadds.total, hn, Nat.zero_add]
  exact ⟨k, hk, hadds.amounts, hadds.left, htotal, hleft, by omega, by omega, hsplits.conserved, hsplits.bounded,
    hsplits.outputs⟩

theorem splitPass_splits : Splits s (splitPass w fSkip ds s) := by
  induction ds generalizing s with
  | nil => exact Splits.refl
  | cons d ds ih =>
    by_cases hover : fSkip = true ∧ passesOver w s.vecDenominationsSkipped d = true
    · obtain ⟨rfl, hover⟩ := hover
      obtain ⟨skipped, hpass, -⟩ := splitPass_over ds hover
      rw [hpass]
      have hrest := ih (s := { s with vecDenominationsSkipped := skipped })
      exact ⟨hrest.total, hrest.conserved, hrest.bounded, hrest.outputs⟩
    · obtain ⟨k, -, -, -, -, -, -, hsplits⟩ := tally_spec w d s
      rw [splitPass_tried (by grind)]
      split
      · exact hsplits
      · exact hsplits.trans ih

theorem splitPass_quiet (h : ∀ d ∈ ds, s.nValueLeft < d) : Quiet s (splitPass w fSkip ds s) := by
  induction ds generalizing s with
  | nil => exact ⟨rfl, rfl, rfl⟩
  | cons d ds ih =>
    have hfits := h d (List.mem_cons_self ..)
    have hrest : ∀ e ∈ ds, s.nValueLeft < e := fun e he => h e (List.mem_cons_of_mem _ he)
    by_cases hover : fSkip = true ∧ passesOver w s.vecDenominationsSkipped d = true
    · obtain ⟨rfl, hover⟩ := hover
      obtain ⟨skipped, hpass, -⟩ := splitPass_over ds hover
      rw [hpass]
      exact (ih (s := { s with vecDenominationsSkipped := skipped }) hrest).of_skipped
    · have hquiet : Quiet s (tally (addOutputs w d 0 s)) := by
        rw [addOutputs, if_neg (by omega)]
        exact ⟨rfl, rfl, rfl⟩
      rw [splitPass_tried (by grind)]
      split
      · exact hquiet
      · exact hquiet.trans (ih fun e he => by rw [hquiet.left]; exact hrest e he)

/-- What a pass does that tries `d` first. -/
structure FirstTried (d : Int) (s s' : Splitting) : Prop where
  none : s.nValueLeft < d → Quiet s s'
  some : d ≤ s.nValueLeft → s.nValueLeft < 11 * d →
    ∃ k, 0 < k ∧ k ≤ 10 ∧ s'.amounts = s.amounts ++ List.replicate k d ∧ s'.nOutputsTotal = s.nOutputsTotal + k
  eleven : 0 < d → 11 * d ≤ s.nValueLeft →
    s.amounts ++ List.replicate 11 d <+: s'.amounts ∧ s.nOutputsTotal + 11 ≤ s'.nOutputsTotal

theorem FirstTried.of_skipped {skipped : List Int} (h : FirstTried d { s with vecDenominationsSkipped := skipped } s') :
    FirstTried d s s' :=
  ⟨fun hfits => (h.none hfits).of_skipped, h.some, h.eleven⟩

theorem FirstTried.of_quiet (hquiet : Quiet s s') (h : FirstTried d s' t) : FirstTried d s t := by
  obtain ⟨hnone, hsome, heleven⟩ := h
  rw [hquiet.left] at hnone hsome heleven
  rw [hquiet.amounts, hquiet.total] at hsome heleven
  exact ⟨fun hfits => hquiet.trans (hnone hfits), hsome, heleven⟩

theorem FirstTried.total_pos (h : FirstTried d s s') (hpos : 0 < d) (hfits : d ≤ s.nValueLeft) : s'.nOutputsTotal ≠ 0 := by
  by_cases hcap : s.nValueLeft < 11 * d
  · obtain ⟨k, hk, -, -, htotal⟩ := h.some hfits hcap
    omega
  · have := (h.eleven hpos (by omega)).2
    omega

theorem firstTried_head (hsorted : (d :: ds).Pairwise (· < ·))
    (htried : (fSkip && passesOver w s.vecDenominationsSkipped d) = false) : FirstTried d s (splitPass w fSkip (d :: ds) s) := by
  rw [List.pairwise_cons] at hsorted
  obtain ⟨k, hk, hamounts, hleft, htotal, hnonneg, hstop, hsplits⟩ := tally_spec w d s
  refine ⟨fun hfits => splitPass_quiet fun e he => ?_, fun hfits hcap => ?_, fun hpos hcap => ?_⟩
  · rcases List.mem_cons.1 he with rfl | he
    · exact hfits
    · exact hfits.trans (hsorted.1 e he)
  · have hk0 : 0 < k := by
      by_contra hzero
      obtain rfl : k = 0 := by omega
      omega
    have hk10 : k ≤ 10 := by
      by_contra heleven
      obtain rfl : k = 11 := by omega
      have := hnonneg hk0
      omega
    have hlt : s.nValueLeft - k * d < d := hstop.resolve_right (by omega)
    refine ⟨k, hk0, hk10, ?_⟩
    rw [splitPass_tried htried]
    split
    · exact ⟨hamounts, htotal⟩
    · have hquiet : Quiet (tally (addOutputs w d 0 s)) (splitPass w fSkip ds (tally (addOutputs w d 0 s))) := by
        apply splitPass_quiet
        intro e he
        rw [hleft]
        exact hlt.trans (hsorted.1 e he)
      exact ⟨hquiet.amounts.trans hamounts, hquiet.total.trans htotal⟩
  · have hk11 : k = 11 := by
      rcases hstop with hlt | heq
      · by_contra hne
        have hle : (k : Int) * d ≤ 10 * d := Int.mul_le_mul_of_nonneg_right (by omega) (by omega)
        omega
      · exact heq
    subst hk11
    rw [splitPass_tried htried, ← hamounts, ← htotal]
    split
    · exact ⟨List.prefix_rfl, Nat.le_refl _⟩
    · exact ⟨splitPass_splits.outputs, splitPass_splits.total⟩

/-- The first pass tries the smallest denomination that it does not pass over. -/
theorem splitPass_find (hsorted : ds.Pairwise (· < ·)) :
    (ds.find? (!passesOver w s.vecDenominationsSkipped ·) = none → Quiet s (splitPass w true ds s)) ∧
    ∀ d, ds.find? (!passesOver w s.vecDenominationsSkipped ·) = some d → FirstTried d s (splitPass w true ds s) := by
  induction ds generalizing s with
  | nil => exact ⟨fun _ => ⟨rfl, rfl, rfl⟩, fun d h => by cases h⟩
  | cons e ds ih =>
    by_cases hover : passesOver w s.vecDenominationsSkipped e = true
    · obtain ⟨skipped, hpass, hmem⟩ := splitPass_over ds hover
      have hfind : (e :: ds).find? (!passesOver w s.vecDenominationsSkipped ·) = ds.find? (!passesOver w skipped ·) := by
        rw [List.find?_cons_of_neg (by simp [hover])]
        refine List.find?_congr fun d hd => ?_
        have hlt := (List.pairwise_cons.1 hsorted).1 d hd
        have hcontains : s.vecDenominationsSkipped.contains d = skipped.contains d := by
          rw [Bool.eq_iff_iff, List.contains_iff_mem, List.contains_iff_mem]
          exact (hmem d (by omega)).symm
        rw [passesOver, passesOver, hcontains]
      obtain ⟨hnone, hsome⟩ := ih (s := { s with vecDenominationsSkipped := skipped }) (List.Pairwise.of_cons hsorted)
      rw [hpass, hfind]
      exact ⟨fun h => (hnone h).of_skipped, fun d h => (hsome d h).of_skipped⟩
    · rw [List.find?_cons_of_pos (by simp [hover])]
      refine ⟨fun h => absurd h (Option.some_ne_none _), fun d h => ?_⟩
      cases h
      exact firstTried_head hsorted (by rw [Bool.true_and]; simpa using hover)

/-! ## The splitting of an amount -/

variable {skipped : List Int} {nAmount : Int} {fCreateMixingCollaterals : Bool}

/-- Value is conserved, the loop does not take it below zero, and there are at most ten outputs of each denomination. -/
structure SplitWell (w : SplitWallet) (skipped : List Int) (nAmount : Int) (fCreateMixingCollaterals : Bool) : Prop where
  conserved : ((createDenominated w skipped nAmount fCreateMixingCollaterals).vecSend.map (·.nAmount)).sum +
    (createDenominated w skipped nAmount fCreateMixingCollaterals).nValueLeft + privatesendCollateral = nAmount
  bounded : min 0 (splitStart w skipped nAmount fCreateMixingCollaterals).nValueLeft ≤
    (createDenominated w skipped nAmount fCreateMixingCollaterals).nValueLeft
  ten : ∀ d ∈ vecPrivateSendDenominations,
    (createDenominated w skipped nAmount fCreateMixingCollaterals).vecSend.countP (·.nAmount = d) ≤ 10

/-- The smallest denomination that the first pass tries, where it fits; else the smallest of all, on the second pass. -/
def firstFitting (w : SplitWallet) (skipped : List Int) (nValueLeft : Int) : Int :=
  match vecPrivateSendDenominations.reverse.find? (!passesOver w skipped ·) with
  | some d => if d ≤ nValueLeft then d else vecPrivateSendDenominations.getLastD 0
  | none => vecPrivateSendDenominations.getLastD 0

theorem sorted_denominations : vecPrivateSendDenominations.reverse.Pairwise (· < ·) := by decide

theorem splitLoop_false : splitLoop w false s = splitPass w false vecPrivateSendDenominations.reverse s := by
  rw [splitLoop]
  exact if_neg fun h => Bool.noConfusion h.2

theorem splitLoop_true : splitLoop w true s =
    if (splitPass w true vecPrivateSendDenominations.reverse s).nOutputsTotal = 0 then
      splitPass w false vecPrivateSendDenominations.reverse (splitPass w true vecPrivateSendDenominations.reverse s)
    else splitPass w true vecPrivateSendDenominations.reverse s := by
  rw [splitLoop, ← splitLoop_false]
  simp only [Bool.not_true, and_true]

theorem splitLoop_splits : Splits s (splitLoop w true s) := by
  rw [splitLoop_true]
  split
  · exact splitPass_splits.trans splitPass_splits
  · exact splitPass_splits

theorem splitLoop_tried (w : SplitWallet) (s : Splitting) (htotal : s.nOutputsTotal = 0) :
    FirstTried (firstFitting w s.vecDenominationsSkipped s.nValueLeft) s (splitLoop w true s) := by
  obtain ⟨hnone, hsome⟩ := splitPass_find (w := w) (s := s) sorted_denominations
  have hsecond : Quiet s (splitPass w true vecPrivateSendDenominations.reverse s) →
      FirstTried (vecPrivateSendDenominations.getLastD 0) s (splitLoop w true s) := by
    intro hquiet
    rw [splitLoop_true, if_pos (hquiet.total.trans htotal)]
    exact (firstTried_head sorted_denominations (Bool.false_and _)).of_quiet hquiet
  rw [firstFitting]
  cases hfind : vecPrivateSendDenominations.reverse.find? (!passesOver w s.vecDenominationsSkipped ·) with
  | none => exact hsecond (hnone hfind)
  | some d =>
    have htried := hsome d hfind
    have hpos : ∀ e ∈ vecPrivateSendDenominations.reverse, 0 < e := by decide
    by_cases hfits : d ≤ s.nValueLeft
    · simp only [if_pos hfits]
      rw [splitLoop_true, if_neg (htried.total_pos (hpos d (List.mem_of_find?_eq_some hfind)) hfits)]
      exact htried
    · simp only [if_neg hfits]
      exact hsecond (htried.none (by omega))

theorem countP_vecSend : s.vecSend.countP (·.nAmount = d) = s.amounts.count d := by
  rw [Splitting.amounts, List.count, List.countP_map]
  congr 1

theorem firstFitting_mem (w : SplitWallet) (skipped : List Int) (nValueLeft : Int) :
    firstFitting w skipped nValueLeft ∈ vecPrivateSendDenominations := by
  have hlast : vecPrivateSendDenominations.getLastD 0 ∈ vecPrivateSendDenominations := by decide
  rw [firstFitting]
  split
  · rename_i d hfind
    split
    · exact List.mem_reverse.1 (List.mem_of_find?_eq_some hfind)
    · exact hlast
  · exact hlast

theorem count_start (hd : d ∈ vecPrivateSendDenominations) :
    (splitStart w skipped nAmount fCreateMixingCollaterals).amounts.count d = 0 := by
  rw [List.count_eq_zero]
  cases fCreateMixingCollaterals
  · exact List.not_mem_nil
  · intro hmem
    have hvalue : d = 4000004 := List.mem_singleton.1 hmem
    subst hvalue
    exact absurd hd (by decide)

theorem splitStart_conserved (w : SplitWallet) (skipped : List Int) (nAmount : Int) (fCreateMixingCollaterals : Bool) :
    (splitStart w skipped nAmount fCreateMixingCollaterals).amounts.sum +
      (splitStart w skipped nAmount fCreateMixingCollaterals).nValueLeft + privatesendCollateral = nAmount := by
  cases fCreateMixingCollaterals
  · show 0 + (nAmount - 1000001) + 1000001 = nAmount
    omega
  · show 4000004 + 0 + (nAmount - 1000001 - 4000004) + 1000001 = nAmount
    omega

theorem splitStart_tried (w : SplitWallet) (skipped : List Int) (nAmount : Int) (fCreateMixingCollaterals : Bool) :
    FirstTried (firstFitting w skipped (splitStart w skipped nAmount fCreateMixingCollaterals).nValueLeft)
      (splitStart w skipped nAmount fCreateMixingCollaterals)
      (createDenominated w skipped nAmount fCreateMixingCollaterals) := by
  cases fCreateMixingCollaterals
  · exact splitLoop_tried w (splitStart w skipped nAmount false) rfl
  · exact splitLoop_tried w (splitStart w skipped nAmount true) rfl

theorem not_splitWell (hcap : 11 * firstFitting w skipped (splitStart w skipped nAmount fCreateMixingCollaterals).nValueLeft ≤
    (splitStart w skipped nAmount fCreateMixingCollaterals).nValueLeft) :
    ¬ SplitWell w skipped nAmount fCreateMixingCollaterals := by
  intro h
  have hpos : ∀ e ∈ vecPrivateSendDenominations, 0 < e := by decide
  have htried := splitStart_tried w skipped nAmount fCreateMixingCollaterals
  have hmem := firstFitting_mem w skipped (splitStart w skipped nAmount fCreateMixingCollaterals).nValueLeft
  have hten := h.ten _ hmem
  have heleven := (htried.eleven (hpos _ hmem) hcap).1.count_le
    (firstFitting w skipped (splitStart w skipped nAmount fCreateMixingCollaterals).nValueLeft)
  rw [List.count_append, List.count_replicate_self] at heleven
  rw [countP_vecSend] at hten
  omega

/-- `vecDenominationsSkipped` is any list; the smallest denomination is 1000010. -/
theorem splitting_iff (w : SplitWallet) (skipped : List Int) (nAmount : Int) (fCreateMixingCollaterals : Bool) :
    SplitWell w skipped nAmount fCreateMixingCollaterals ↔
      (splitStart w skipped nAmount fCreateMixingCollaterals).nValueLeft <
        11 * firstFitting w skipped (splitStart w skipped nAmount fCreateMixingCollaterals).nValueLeft := by
  refine ⟨fun h => ?_, fun hcap => ?_⟩
  · by_contra hcap
    exact not_splitWell (by omega) h
  · have htried := splitStart_tried w skipped nAmount fCreateMixingCollaterals
    have hsplits := splitLoop_splits (w := w) (s := splitStart w skipped nAmount fCreateMixingCollaterals)
    refine ⟨?_, hsplits.bounded, fun d hd => ?_⟩
    · have hstart := splitStart_conserved w skipped nAmount fCreateMixingCollaterals
      rw [← hsplits.conserved] at hstart
      exact hstart
    · rw [countP_vecSend]
      by_cases hfits : firstFitting w skipped (splitStart w skipped nAmount fCreateMixingCollaterals).nValueLeft ≤
          (splitStart w skipped nAmount fCreateMixingCollaterals).nValueLeft
      · obtain ⟨k, -, hk, hamounts, -⟩ := htried.some hfits hcap
        rw [hamounts, List.count_append, count_start hd, Nat.zero_add, List.count_replicate]
        split
        · exact hk
        · exact Nat.zero_le _
      · rw [(htried.none (by omega)).amounts, count_start hd]
        exact Nat.zero_le _

/-- Eleven times the smallest denomination, and the collateral. -/
theorem eleven_outputs : ¬ SplitWell ⟨fun _ => 0, fun _ => []⟩ [] 12000111 false := not_splitWell (by decide)

end Zumy.PrivateSend
