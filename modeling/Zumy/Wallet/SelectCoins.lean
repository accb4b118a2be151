/-
  Zumy.Wallet.SelectCoins — the coins for a payment (`wallet/wallet.cpp`: `SelectCoins`).

  The search for denominations has at most two passes. It goes through each denomination and,
  for each, through the coins; the second pass clears `setCoinsRet` and goes on with the total
  of the first. Unlike the other ways it does not ask whether a coin is spendable. Coins are
  references as in MinConf; callers pass an empty set and a total of 0.
-/
import Zumy.Lib.Run
import Zumy.Wallet.MinConf

namespace Zumy.Ledger

open Zumy.Lib
open Zumy.PrivateSend (vecPrivateSendDenominations)

/-- What the call reads beside its arguments; the choices are by the number of the search. -/
structure Selector where
  cfg : CoinConfig
  wallet : MixingWallet
  getInputPrivateSendRounds : COutPoint → Int
  maxTxFee : Int
  bSpendZeroConfChange : Bool
  shuffle : Nat → List COutput → List COutput
  rand : Nat → Nat → Nat → Nat → Bool

def Picked.add (p : Picked) (out : COutput) : Picked := ⟨insert out.ref p.setCoinsRet, p.nValueRet + out.nValue⟩

def Picked.empty : Picked := ⟨∅, 0⟩

namespace Selector

section
variable (e : Selector) (nTargetValue : Int)

def isMixed (out : COutput) : Bool := e.cfg.nPrivateSendRounds ≤ e.getInputPrivateSendRounds out.prevout

def takeSelected (nCoinType : AvailableCoinsType) (p : Picked) (out : COutput) : Picked :=
  if !out.fSpendable then p
  else if nCoinType == .onlyDenominated && !e.isMixed out then p
  else p.add out

/-- It's the denom we're looking for, we won't exceed current max fee, and it is anonymized. -/
def Fits (nMaxFee : Int) (p : Picked) (c : Int × COutput) : Prop :=
  c.2.nValue = c.1 ∧ p.nValueRet + c.1 < nTargetValue + nMaxFee ∧ e.isMixed c.2 = true

instance (nMaxFee : Int) (p : Picked) (c : Int × COutput) : Decidable (e.Fits nTargetValue nMaxFee p c) :=
  inferInstanceAs (Decidable (_ ∧ _ ∧ _))

def takeDenominated (nMaxFee : Int) (p : Picked) (c : Int × COutput) : Picked :=
  if e.Fits nTargetValue nMaxFee p c then p.add c.2 else p

def candidates (vCoins : List COutput) : List (Int × COutput) :=
  vecPrivateSendDenominations.flatMap fun nDenom => vCoins.map fun out => (nDenom, out)

def pass (nMaxFee : Int) (vCoins : List COutput) (p : Picked) : Picked :=
  (candidates vCoins).foldl (e.takeDenominated nTargetValue nMaxFee) p

/-- `fFirstRun` -/
def firstRun : Bool := smallestDenomination < e.maxTxFee

def firstPass (vCoins : List COutput) : Picked := e.pass nTargetValue smallestDenomination vCoins Picked.empty

def searchDenominated (vCoins : List COutput) : Bool × Picked :=
  if e.firstRun then
    let p := e.firstPass nTargetValue vCoins
    if nTargetValue ≤ p.nValueRet then (true, p)
    else
      -- start over again, make sure we won't exceed default max fee
      let p := e.pass nTargetValue e.maxTxFee vCoins { p with setCoinsRet := ∅ }
      (nTargetValue ≤ p.nValueRet, p)
  else
    let p := e.pass nTargetValue e.maxTxFee vCoins Picked.empty
    (nTargetValue ≤ p.nValueRet, p)

/-- `setPresetCoins`; `none` for an input that is not the wallet's. -/
def presetCoins (coinControl : Option CCoinControl) : Option (List CoinRef) :=
  (coinControl.elim [] (·.setSelected)).mapM fun outpoint =>
    (e.wallet.mapWallet[outpoint.hash]?).bind fun wtx => if wtx.vout.length ≤ outpoint.n then none else some (wtx, outpoint.n)

def searchMinConf (nTargetValue : Int) (vCoins : List COutput) : Bool × Picked :=
  let search (k : Nat) (nConfMine nConfTheirs : Int) :=
    selectCoinsMinConf e.cfg nTargetValue nConfMine nConfTheirs (e.shuffle k) (e.rand k) vCoins
  if (search 0 1 10).1 then search 0 1 10
  else if (search 1 1 1).1 then search 1 1 1
  else if e.bSpendZeroConfChange then search 2 0 1
  else search 1 1 1

def availableCoins (coinControl : Option CCoinControl) (nCoinType : AvailableCoinsType) (fUseInstantSend : Bool) : List COutput :=
  e.wallet.availableCoins e.cfg ⟨true, coinControl, false, nCoinType, fUseInstantSend⟩

def selectedOnly (coinControl : Option CCoinControl) : Bool := coinControl.any fun cc => cc.hasSelected && !cc.fAllowOtherInputs

def selectCoins (coinControl : Option CCoinControl) (nCoinType : AvailableCoinsType) (fUseInstantSend : Bool) : Bool × Picked :=
  let vCoins := e.availableCoins coinControl nCoinType fUseInstantSend
  if selectedOnly coinControl then
    let p := vCoins.foldl (e.takeSelected nCoinType) Picked.empty
    (nTargetValue ≤ p.nValueRet, p)
  else if nCoinType = .onlyDenominated then e.searchDenominated nTargetValue vCoins
  else
    match e.presetCoins coinControl with
    | none => (false, Picked.empty)
    | some setPresetCoins =>
      let nValueFromPresetInputs := (setPresetCoins.map outValue).sum
      let res := if nTargetValue ≤ nValueFromPresetInputs then (true, Picked.empty)
        else e.searchMinConf (nTargetValue - nValueFromPresetInputs) (vCoins.filter fun out => out.ref ∉ setPresetCoins)
      -- because SelectCoinsMinConf clears the setCoinsRet, we now add the possible inputs to the coinset
      (res.1, ⟨res.2.setCoinsRet ∪ setPresetCoins.toFinset, res.2.nValueRet + nValueFromPresetInputs⟩)

/-! ## What is asked of a selection -/

def producingFee (vCoins : List COutput) : Int :=
  if e.firstRun ∧ nTargetValue ≤ (e.firstPass nTargetValue vCoins).nValueRet then smallestDenomination else e.maxTxFee

structure Right (coinControl : Option CCoinControl) (nCoinType : AvailableCoinsType) (vCoins : List COutput) (p : Picked) : Prop where
  total : p.nValueRet = ∑ c ∈ p.setCoinsRet, outValue c
  enough : nTargetValue ≤ p.nValueRet
  mixed : nCoinType = .onlyDenominated → ∀ c ∈ p.setCoinsRet,
    ∃ out ∈ vCoins, out.ref = c ∧ out.fSpendable = true ∧ isDenominatedAmount out.nValue = true ∧ e.isMixed out = true
  overshoot : nCoinType = .onlyDenominated → selectedOnly coinControl = false →
    p.nValueRet < nTargetValue + e.producingFee nTargetValue vCoins

/-- Nothing fits in the first pass, where the search starts over; and a coin that a turn of the pass takes is spendable. -/
structure SearchOk (vCoins : List COutput) : Prop where
  overs : e.firstRun = true → (e.firstPass nTargetValue vCoins).nValueRet < nTargetValue →
    ∀ c ∈ candidates vCoins, ¬ e.Fits nTargetValue smallestDenomination Picked.empty c
  spendable : Meets (fun p c => some (e.takeDenominated nTargetValue (e.producingFee nTargetValue vCoins) p c))
    (fun p c => e.Fits nTargetValue (e.producingFee nTargetValue vCoins) p c → c.2.fSpendable = true) Picked.empty (candidates vCoins)
  room : 0 < nTargetValue + e.producingFee nTargetValue vCoins

end

variable {e : Selector} {nTargetValue nMaxFee : Int} {p : Picked} {vCoins : List COutput} {l : List (Int × COutput)}

/-! ## A pass -/

/-- What holds of all coins at the end holds of those at the start and of each that a turn takes. -/
theorem pass_forall (P : CoinRef → Prop) :
    (∀ c ∈ (l.foldl (e.takeDenominated nTargetValue nMaxFee) p).setCoinsRet, P c) ↔ (∀ c ∈ p.setCoinsRet, P c) ∧
      Meets (fun p c => some (e.takeDenominated nTargetValue nMaxFee p c))
        (fun p c => e.Fits nTargetValue nMaxFee p c → P c.2.ref) p l := by
  induction l generalizing p with
  | nil => simp
  | cons c l ih =>
    rw [List.foldl_cons, ih, meets_cons_total fun _ _ => rfl, takeDenominated]
    split
    · next hfits =>
      rw [Picked.add, Finset.forall_mem_insert]
      tauto
    · next hfits => tauto

theorem pass_le (hl : ∀ c ∈ l, 0 ≤ c.1) : p.nValueRet ≤ (l.foldl (e.takeDenominated nTargetValue nMaxFee) p).nValueRet := by
  induction l generalizing p with
  | nil => exact le_rfl
  | cons c l ih =>
    obtain ⟨hc, hl⟩ := List.forall_mem_cons.1 hl
    refine le_trans ?_ (ih hl)
    unfold takeDenominated
    split
    · next hfits =>
      rw [Picked.add, hfits.1]
      exact le_add_of_nonneg_right hc
    · exact le_rfl

theorem pass_lt (h : p.nValueRet < nTargetValue + nMaxFee) :
    (l.foldl (e.takeDenominated nTargetValue nMaxFee) p).nValueRet < nTargetValue + nMaxFee := by
  induction l generalizing p with
  | nil => exact h
  | cons c l ih =>
    refine ih ?_
    unfold takeDenominated
    split
    · next hfits =>
      rw [Picked.add, hfits.1]
      exact hfits.2.1
    · exact h

/-- A pass that starts with nothing ends with nothing just when no coin fits at the start. -/
theorem pass_eq_zero_iff (hl : ∀ c ∈ l, 0 < c.1) :
    (l.foldl (e.takeDenominated nTargetValue nMaxFee) Picked.empty).nValueRet = 0 ↔
      ∀ c ∈ l, ¬ e.Fits nTargetValue nMaxFee Picked.empty c := by
  induction l with
  | nil => simp [Picked.empty]
  | cons c l ih =>
    obtain ⟨hc, hl⟩ := List.forall_mem_cons.1 hl
    rw [List.foldl_cons, takeDenominated, List.forall_mem_cons]
    split
    · next hfits =>
      have hle := @pass_le e nTargetValue nMaxFee (Picked.empty.add c.2) l fun c hc => (hl c hc).le
      have hvalue : (Picked.empty.add c.2).nValueRet = c.1 := by
        rw [Picked.add, Picked.empty, hfits.1, Int.zero_add]
      simp only [hfits, not_true_eq_false, false_and, iff_false]
      omega
    · next hfits =>
      rw [ih hl]
      tauto

theorem pass_total (hnodup : ((l.filter fun c => c.2.nValue = c.1).map fun c => c.2.ref).Nodup)
    (hnew : ∀ c ∈ l, c.2.nValue = c.1 → c.2.ref ∉ p.setCoinsRet) :
    (l.foldl (e.takeDenominated nTargetValue nMaxFee) p).nValueRet =
      p.nValueRet - ∑ c ∈ p.setCoinsRet, outValue c +
        ∑ c ∈ (l.foldl (e.takeDenominated nTargetValue nMaxFee) p).setCoinsRet, outValue c := by
  induction l generalizing p with
  | nil => simp
  | cons c l ih =>
    obtain ⟨hc, hnew⟩ := List.forall_mem_cons.1 hnew
    rw [List.foldl_cons]
    by_cases hfits : e.Fits nTargetValue nMaxFee p c
    · rw [List.filter_cons_of_pos (by simpa using hfits.1), List.map_cons, List.nodup_cons] at hnodup
      rw [takeDenominated, if_pos hfits, ih hnodup.2, Picked.add, Finset.sum_insert (hc hfits.1)]
      · show _ = _ - _ + _
        have hvalue : outValue c.2.ref = c.2.nValue := rfl
        rw [hvalue]
        dsimp only
        omega
      · intro d hd hvalue
        rw [Picked.add, Finset.mem_insert, not_or]
        refine ⟨fun heq => hnodup.1 ?_, hnew d hd hvalue⟩
        exact List.mem_map.2 ⟨d, List.mem_filter.2 ⟨hd, by simpa using hvalue⟩, heq⟩
    · rw [takeDenominated, if_neg hfits]
      exact ih (hnodup.sublist (((List.sublist_cons_self c l).filter _).map _)) hnew

/-! ## The candidates -/

theorem mem_candidates {c : Int × COutput} : c ∈ candidates vCoins ↔ c.1 ∈ vecPrivateSendDenominations ∧ c.2 ∈ vCoins := by
  rw [candidates, List.mem_flatMap]
  constructor
  · intro h
    obtain ⟨nDenom, hdenom, hc⟩ := h
    obtain ⟨out, hout, rfl⟩ := List.mem_map.1 hc
    exact ⟨hdenom, hout⟩
  · intro h
    exact ⟨c.1, h.1, List.mem_map.2 ⟨c.2, h.2, rfl⟩⟩

theorem candidates_pos : ∀ c ∈ candidates vCoins, 0 < c.1 := by
  have hpos : ∀ nDenom ∈ vecPrivateSendDenominations, 0 < nDenom := by decide
  exact fun c hc => hpos _ (mem_candidates.1 hc).1

theorem candidates_nodup (hnodup : (vCoins.map COutput.ref).Nodup) :
    (((candidates vCoins).filter fun c => c.2.nValue = c.1).map fun c => c.2.ref).Nodup := by
  have hpart (nDenom : Int) : ((((vCoins.map fun out => (nDenom, out)).filter fun c => c.2.nValue = c.1)).map
      fun c => c.2.ref) = (vCoins.filter fun out => out.nValue = nDenom).map COutput.ref := by
    rw [List.filter_map, List.map_map]
    rfl
  rw [candidates, List.filter_flatMap, List.map_flatMap, List.nodup_flatMap]
  simp only [hpart]
  refine ⟨fun nDenom _ => ?_, ?_⟩
  · exact hnodup.sublist (List.filter_sublist.map _)
  · have hdenoms : vecPrivateSendDenominations.Pairwise (· ≠ ·) := by decide
    refine hdenoms.imp fun {a b} hne c hca hcb => ?_
    obtain ⟨out, hout, rfl⟩ := List.mem_map.1 hca
    obtain ⟨out', hout', heq⟩ := List.mem_map.1 hcb
    have hsame := List.inj_on_of_nodup_map hnodup (List.mem_of_mem_filter hout') (List.mem_of_mem_filter hout) heq
    have hvalue := of_decide_eq_true (List.mem_filter.1 hout).2
    have hvalue' := of_decide_eq_true (List.mem_filter.1 hout').2
    exact hne (by rw [← hvalue, ← hvalue', hsame])

/-- A pass over the coins from an empty set: its total is what it starts with and what it takes. -/
theorem pass_sum (hnodup : (vCoins.map COutput.ref).Nodup) (hempty : p.setCoinsRet = ∅) :
    (e.pass nTargetValue nMaxFee vCoins p).nValueRet =
      p.nValueRet + ∑ c ∈ (e.pass nTargetValue nMaxFee vCoins p).setCoinsRet, outValue c := by
  have htotal := @pass_total e nTargetValue nMaxFee p _ (candidates_nodup hnodup) (by simp [hempty])
  rwa [hempty, Finset.sum_empty, Int.sub_zero] at htotal

/-- What a pass takes is denominated and mixed; it is spendable just when each turn asks for it. -/
theorem pass_mixed (hnodup : (vCoins.map COutput.ref).Nodup) (hempty : p.setCoinsRet = ∅) :
    (∀ c ∈ (e.pass nTargetValue nMaxFee vCoins p).setCoinsRet,
      ∃ out ∈ vCoins, out.ref = c ∧ out.fSpendable = true ∧ isDenominatedAmount out.nValue = true ∧ e.isMixed out = true) ↔
    Meets (fun p c => some (e.takeDenominated nTargetValue nMaxFee p c))
      (fun p c => e.Fits nTargetValue nMaxFee p c → c.2.fSpendable = true) p (candidates vCoins) := by
  have hmeets (ok ok' : Picked → Int × COutput → Prop) (l : List (Int × COutput)) (hsame : ∀ p, ∀ c ∈ l, ok p c ↔ ok' p c) (p : Picked) :
      Meets (fun p c => some (e.takeDenominated nTargetValue nMaxFee p c)) ok p l ↔
        Meets (fun p c => some (e.takeDenominated nTargetValue nMaxFee p c)) ok' p l := by
    induction l generalizing p with
    | nil => exact Iff.rfl
    | cons c l ih =>
      rw [meets_cons_total fun _ _ => rfl, meets_cons_total fun _ _ => rfl, hsame p c List.mem_cons_self,
        ih fun p c hc => hsame p c (List.mem_cons_of_mem _ hc)]
  rw [pass, pass_forall, hempty, hmeets _ (fun p c => e.Fits nTargetValue nMaxFee p c → c.2.fSpendable = true)]
  · simp
  · intro p c hc
    obtain ⟨hdenom, hout⟩ := mem_candidates.1 hc
    refine imp_congr_right fun hfits => ?_
    constructor
    · intro h
      obtain ⟨out, hout', heq, hspend, -⟩ := h
      rwa [← List.inj_on_of_nodup_map hnodup hout' hout heq]
    · intro h
      refine ⟨c.2, hout, rfl, h, ?_, hfits.2.2⟩
      rw [isDenominatedAmount, hfits.1, List.any_eq_true]
      exact ⟨c.1, hdenom, beq_self_eq_true c.1⟩

/-! ## The search -/

variable {coinControl : Option CCoinControl} {nCoinType : AvailableCoinsType} {fUseInstantSend : Bool}

theorem right_pass_iff (hcontrol : selectedOnly coinControl = false) (hnodup : (vCoins.map COutput.ref).Nodup)
    (hempty : p.setCoinsRet = ∅) (hfee : e.producingFee nTargetValue vCoins = nMaxFee)
    (hres : nTargetValue ≤ (e.pass nTargetValue nMaxFee vCoins p).nValueRet) :
    e.Right nTargetValue coinControl .onlyDenominated vCoins (e.pass nTargetValue nMaxFee vCoins p) ↔
      p.nValueRet = 0 ∧ p.nValueRet < nTargetValue + nMaxFee ∧
        Meets (fun p c => some (e.takeDenominated nTargetValue nMaxFee p c))
          (fun p c => e.Fits nTargetValue nMaxFee p c → c.2.fSpendable = true) p (candidates vCoins) := by
  have hsum := @pass_sum e nTargetValue nMaxFee p vCoins hnodup hempty
  have hmixed := @pass_mixed e nTargetValue nMaxFee p vCoins hnodup hempty
  have hle : p.nValueRet ≤ (e.pass nTargetValue nMaxFee vCoins p).nValueRet := pass_le fun c hc => (candidates_pos c hc).le
  constructor
  · intro h
    have hover := h.overshoot rfl hcontrol
    rw [hfee] at hover
    have htotal := h.total
    exact ⟨by omega, by omega, hmixed.1 (h.mixed rfl)⟩
  · intro h
    refine ⟨by omega, hres, fun _ => hmixed.2 h.2.2, fun _ _ => ?_⟩
    rw [hfee]
    exact pass_lt h.2.1

theorem right_search_iff (hcontrol : selectedOnly coinControl = false) (hnodup : (vCoins.map COutput.ref).Nodup)
    (hres : (e.searchDenominated nTargetValue vCoins).1 = true) :
    e.Right nTargetValue coinControl .onlyDenominated vCoins (e.searchDenominated nTargetValue vCoins).2 ↔
      e.SearchOk nTargetValue vCoins := by
  have hstart (nMaxFee : Int) (hfee : e.producingFee nTargetValue vCoins = nMaxFee)
      (hres : nTargetValue ≤ (e.pass nTargetValue nMaxFee vCoins Picked.empty).nValueRet)
      (hover : e.firstRun = true → ¬ (e.firstPass nTargetValue vCoins).nValueRet < nTargetValue) :
      e.Right nTargetValue coinControl .onlyDenominated vCoins (e.pass nTargetValue nMaxFee vCoins Picked.empty) ↔
        e.SearchOk nTargetValue vCoins := by
    rw [right_pass_iff hcontrol hnodup rfl hfee hres]
    subst hfee
    constructor
    · intro h
      exact ⟨fun hfirst hlt => absurd hlt (hover hfirst), h.2.2, h.2.1⟩
    · intro h
      exact ⟨rfl, h.room, h.spendable⟩
  unfold searchDenominated at hres ⊢
  by_cases hfirst : e.firstRun = true
  · simp only [if_pos hfirst] at hres ⊢
    by_cases hreached : nTargetValue ≤ (e.firstPass nTargetValue vCoins).nValueRet
    · simp only [if_pos hreached]
      exact hstart _ (if_pos ⟨hfirst, hreached⟩) hreached fun _ => not_lt.2 hreached
    · simp only [if_neg hreached] at hres ⊢
      have hfee : e.producingFee nTargetValue vCoins = e.maxTxFee := if_neg fun h => hreached h.2
      have hzero : (e.firstPass nTargetValue vCoins).nValueRet = 0 ↔
          ∀ c ∈ candidates vCoins, ¬ e.Fits nTargetValue smallestDenomination Picked.empty c := pass_eq_zero_iff candidates_pos
      rw [right_pass_iff hcontrol hnodup rfl hfee (of_decide_eq_true hres)]
      have hsame (h : (e.firstPass nTargetValue vCoins).nValueRet = 0) :
          { e.firstPass nTargetValue vCoins with setCoinsRet := ∅ } = Picked.empty := congrArg (Picked.mk ∅) h
      constructor
      · intro h
        have hmeets := h.2.2
        rw [hsame h.1] at hmeets
        refine ⟨fun _ _ => hzero.1 h.1, by rwa [hfee], ?_⟩
        rw [hfee]
        exact h.1 ▸ h.2.1
      · intro h
        have hnone := hzero.2 (h.overs hfirst (not_le.1 hreached))
        refine ⟨hnone, ?_, ?_⟩
        · have hroom := h.room
          rw [hfee] at hroom
          exact hnone.symm ▸ hroom
        · rw [hsame hnone, ← hfee]
          exact h.spendable
  · simp only [if_neg hfirst] at hres ⊢
    exact hstart _ (if_neg fun h => hfirst h.1) (of_decide_eq_true hres) fun h => absurd h hfirst

/-! ## The other ways -/

theorem takeSelected_run (hnodup : (vCoins.map COutput.ref).Nodup) (hnew : ∀ out ∈ vCoins, out.ref ∉ p.setCoinsRet)
    (hp : p.nValueRet = ∑ c ∈ p.setCoinsRet, outValue c) :
    (vCoins.foldl (e.takeSelected nCoinType) p).nValueRet =
      ∑ c ∈ (vCoins.foldl (e.takeSelected nCoinType) p).setCoinsRet, outValue c ∧
    ∀ c ∈ (vCoins.foldl (e.takeSelected nCoinType) p).setCoinsRet, c ∈ p.setCoinsRet ∨
      ∃ out ∈ vCoins, out.ref = c ∧ out.fSpendable = true ∧ (nCoinType = .onlyDenominated → e.isMixed out = true) := by
  induction vCoins generalizing p with
  | nil => exact ⟨hp, fun c hc => .inl hc⟩
  | cons out vCoins ih =>
    obtain ⟨hout, hnodup⟩ := List.nodup_cons.1 hnodup
    obtain ⟨hnewout, hnew⟩ := List.forall_mem_cons.1 hnew
    rw [List.foldl_cons]
    have hskip (hsame : e.takeSelected nCoinType p out = p) := ih hnodup hnew hp
    by_cases htake : out.fSpendable = true ∧ (nCoinType = .onlyDenominated → e.isMixed out = true)
    · have hadd : e.takeSelected nCoinType p out = p.add out := by
        unfold takeSelected
        rw [if_neg (by simp [htake.1]), if_neg (by simpa using htake.2)]
      rw [hadd]
      obtain ⟨htotal, hmem⟩ := @ih (p.add out) hnodup (fun o ho => by
          rw [Picked.add, Finset.mem_insert, not_or]
          exact ⟨fun heq => hout (heq ▸ List.mem_map_of_mem ho), hnew o ho⟩) (by
          rw [Picked.add, Finset.sum_insert hnewout, hp, Int.add_comm]
          rfl)
      refine ⟨htotal, fun c hc => ?_⟩
      obtain hc | ⟨o, ho, hrest⟩ := hmem c hc
      · obtain rfl | hc := Finset.mem_insert.1 hc
        · exact .inr ⟨out, List.mem_cons_self, rfl, htake⟩
        · exact .inl hc
      · exact .inr ⟨o, List.mem_cons_of_mem _ ho, hrest⟩
    · have hsame : e.takeSelected nCoinType p out = p := by
        unfold takeSelected
        split_ifs with h₁ h₂
        · rfl
        · rfl
        · exact absurd ⟨by simpa using h₁, by simpa using h₂⟩ htake
      rw [hsame]
      obtain ⟨htotal, hmem⟩ := ih hnodup hnew hp
      refine ⟨htotal, fun c hc => (hmem c hc).imp id fun h => ?_⟩
      obtain ⟨o, ho, hrest⟩ := h
      exact ⟨o, List.mem_cons_of_mem _ ho, hrest⟩

theorem searchMinConf_chosen (hshuffle : ∀ k l, (e.shuffle k l).Perm l) (hnodup : (vCoins.map COutput.ref).Nodup)
    (h : (e.searchMinConf nTargetValue vCoins).1 = true) :
    Chosen vCoins nTargetValue (e.searchMinConf nTargetValue vCoins).2 := by
  unfold searchMinConf at h ⊢
  dsimp only at h ⊢
  split_ifs at h ⊢ with h₁ h₂ h₃ <;>
    exact (selectCoinsMinConf_chosen (hshuffle _) hnodup ‹_›).mono List.filter_sublist.subset

theorem presetCoins_nodup (hhash : ∀ (k : Uint256) (wtx : CWalletTx), e.wallet.mapWallet[k]? = some wtx → wtx.hash = k)
    {preset : List CoinRef} (h : e.presetCoins coinControl = some preset) : preset.Nodup := by
  have hselected : (coinControl.elim [] (·.setSelected)).Nodup := by
    cases coinControl with
    | none => exact List.nodup_nil
    | some cc => exact cc.nodup
  unfold presetCoins at h
  refine List.Nodup.of_map (fun c : CoinRef => (⟨c.1.hash, c.2⟩ : COutPoint)) ?_
  generalize coinControl.elim [] (·.setSelected) = selected at h hselected
  have hback : preset.map (fun c : CoinRef => (⟨c.1.hash, c.2⟩ : COutPoint)) = selected := by
    induction selected generalizing preset with
    | nil =>
      cases h
      rfl
    | cons o selected ih =>
      rw [List.mapM_cons] at h
      obtain ⟨c, hc, h⟩ := Option.bind_eq_some_iff.1 h
      obtain ⟨rest, hrest, h⟩ := Option.bind_eq_some_iff.1 h
      cases h
      obtain ⟨wtx, hwtx, hc⟩ := Option.bind_eq_some_iff.1 hc
      split at hc
      · cases hc
      · cases hc
        rw [List.map_cons, ih hrest (List.nodup_cons.1 hselected).2, hhash _ _ hwtx]
  rwa [hback]

open MixingWallet in
/-- Outputs of 0.01 and of 0.1 coins, in the memory pool; the fee is at most 0.1 coins. -/
def twoOutputs : Selector where
  cfg := ownNode
  wallet :=
    { onePayment with
      view := { nodeAt 10 with mempool := fun _ => true }
      mapWallet := (∅ : Map Uint256 CWalletTx).insert 7 { payment with vout := [⟨1000010, []⟩, ⟨10000100, []⟩] } }
  getInputPrivateSendRounds _ := 2
  maxTxFee := coin / 10
  bSpendZeroConfChange := true
  shuffle _ := id
  rand _ _ _ _ := false

theorem hash_twoOutputs (k : Uint256) (wtx : CWalletTx) (hget : twoOutputs.wallet.mapWallet[k]? = some wtx) : wtx.hash = k := by
  rw [twoOutputs, lookup_insert] at hget
  split at hget
  · next hk =>
    cases hget
    exact hk.symm
  · simp at hget

end Selector

end Zumy.Ledger
