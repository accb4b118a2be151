/-
  Zumy.Wallet.Rounds — how many rounds an output was mixed (`wallet/wallet.cpp`:
  `GetRealInputPrivateSendRounds`, `IsDenominatedAmount`, `IsCollateralAmount`).

  The source's static table `mDenomWtxes` holds copies of wallet transactions, of which it
  uses the outputs' `nRounds`; -10 is the value of one that was not computed yet. A read
  past the end of `vout` is `none`. The recursion counts down the levels that are left
  (16 less `nRounds`).
-/
import Zumy.Lib.DepthMemo
import Zumy.Lib.Run
import Zumy.PrivateSend.Pool
import Zumy.Wallet.Ledger

namespace Zumy.Ledger

open Zumy.Lib
open Zumy.PrivateSend (privatesendCollateral vecPrivateSendDenominations)

/-! ## Amounts -/

def isDenominatedAmount (nInputAmount : CAmount) : Bool := vecPrivateSendDenominations.any (nInputAmount == ·)

def isCollateralAmount (nInputAmount : CAmount) : Bool :=
  decide (privatesendCollateral * 2 ≤ nInputAmount) && decide (nInputAmount ≤ privatesendCollateral * 4) &&
    nInputAmount.tmod privatesendCollateral == 0

/-! ## The recursion -/

/-- `mDenomWtxes`: the `nRounds` of each output of the transactions it knows. -/
abbrev DenomTable := Map Uint256 (List Int)

/-- The value written to `mDenomWtxes[hash].vout[nout].nRounds`, which is also the answer. -/
def update (m : DenomTable) (hash : Uint256) (nout : Nat) (nRounds : Int) : Int × DenomTable :=
  (nRounds, m.modify hash fun vout => vout.set nout nRounds)

/-- A denominated input's turn of the loop: `nShortest` and `fDenomFound`. -/
def foundRounds (best : Int × Bool) (n : Int) : Int × Bool :=
  if decide (0 ≤ n) && (decide (n < best.1) || best.1 == -10) then (n, true) else best

section
variable (mapWallet : Map Uint256 CWalletTx) (isMine : CTxOut → Bool)

/-- `IsMine` of an input. -/
def isMineInput (prevout : COutPoint) : Bool :=
  (mapWallet[prevout.hash]?).any fun prev => (prev.vout[prevout.n]?).any isMine

/-- The loop over the inputs; `real` is the call for one of them, one level down. -/
def lookUp (real : DenomTable → COutPoint → Option (Int × DenomTable)) :
    List CTxIn → Int × Bool → DenomTable → Option ((Int × Bool) × DenomTable)
  | [], best, m => some (best, m)
  | txinNext :: vin, best, m =>
    if isMineInput mapWallet isMine txinNext.prevout then
      (real m txinNext.prevout).bind fun (n, m) => lookUp real vin (foundRounds best n) m
    else lookUp real vin best m

/-- The part behind the table; `real` is the call for an input. -/
def computeRounds (real : DenomTable → COutPoint → Option (Int × DenomTable)) (wtx : CWalletTx) (hash : Uint256)
    (nout : Nat) (m : DenomTable) : Option (Int × DenomTable) :=
  match wtx.vout[nout]? with
  | none => some (-4, m) -- bounds check
  | some out =>
    if isCollateralAmount out.nValue then some (update m hash nout (-3))
    else if !isDenominatedAmount out.nValue then some (update m hash nout (-2))
    -- this one is denominated but there is another non-denominated output found in the same tx
    else if !wtx.vout.all fun out => isDenominatedAmount out.nValue then some (update m hash nout 0)
    else
      -- only denoms here so let's look up
      (lookUp mapWallet isMine real wtx.vin (-10, false) m).map fun (best, m) =>
      update m hash nout (if best.2 then (if best.1 ≥ 15 then 16 else best.1 + 1) else 0)

def getRealInputPrivateSendRounds : Nat → DenomTable → COutPoint → Option (Int × DenomTable)
  | 0, m, _ => some (15, m) -- 16 rounds max
  | left + 1, m, prevout =>
    match mapWallet[prevout.hash]? with
    | none => some ((15 - left : Int) - 1, m)
    | some wtx =>
      match m[prevout.hash]? with
      | none =>
        -- not known yet, let's add it
        computeRounds mapWallet isMine (getRealInputPrivateSendRounds left) wtx prevout.hash prevout.n
          (m.insert prevout.hash (wtx.vout.map fun _ => -10))
      | some vout =>
        (vout[prevout.n]?).bind fun nRounds =>
        -- found and it's not an initial value, just return it
        if nRounds ≠ -10 then some (nRounds, m)
        else computeRounds mapWallet isMine (getRealInputPrivateSendRounds left) wtx prevout.hash prevout.n m

/-! ## The definition -/

def ownInputs (o : COutPoint) : List COutPoint :=
  match mapWallet[o.hash]? with
  | none => []
  | some wtx =>
    match wtx.vout[o.n]? with
    | none => []
    | some out =>
      if isCollateralAmount out.nValue || !isDenominatedAmount out.nValue ||
          !wtx.vout.all fun out => isDenominatedAmount out.nValue then []
      else (wtx.vin.map CTxIn.prevout).filter (isMineInput mapWallet isMine)

def roundsFrom (ns : List Int) : Int :=
  match (ns.filter fun n => 0 ≤ n).min? with
  | none => 0
  | some n => min 16 (n + 1)

def roundsOf (o : COutPoint) (ns : List Int) : Int :=
  match mapWallet[o.hash]? with
  | none => -1
  | some wtx =>
    match wtx.vout[o.n]? with
    | none => -4
    | some out =>
      if isCollateralAmount out.nValue then -3
      else if !isDenominatedAmount out.nValue then -2
      else if !wtx.vout.all fun out => isDenominatedAmount out.nValue then 0
      else roundsFrom ns

end

structure MixGraph where
  mapWallet : Map Uint256 CWalletTx
  isMine : CTxOut → Bool
  rank : Uint256 → Nat
  rank_lt : ∀ (h : Uint256) (wtx : CWalletTx), mapWallet[h]? = some wtx → ∀ txin ∈ wtx.vin,
    mapWallet.contains txin.prevout.hash = true → rank txin.prevout.hash < rank h

theorem mem_ownInputs {mapWallet : Map Uint256 CWalletTx} {isMine : CTxOut → Bool} {o i : COutPoint}
    (h : i ∈ ownInputs mapWallet isMine o) :
    isMineInput mapWallet isMine i = true ∧ ∃ wtx, mapWallet[o.hash]? = some wtx ∧ ∃ txin ∈ wtx.vin, txin.prevout = i := by
  unfold ownInputs at h
  cases hw : mapWallet[o.hash]? with
  | none =>
    rw [hw] at h
    cases h
  | some wtx =>
    simp only [hw] at h
    split at h
    · cases h
    · split at h
      · cases h
      · obtain ⟨hmem, hmine⟩ := List.mem_filter.1 h
        exact ⟨hmine, wtx, rfl, List.mem_map.1 hmem⟩

theorem MixGraph.rank_ownInputs (g : MixGraph) (o : COutPoint) :
    ∀ i ∈ ownInputs g.mapWallet g.isMine o, g.rank i.hash < g.rank o.hash := by
  intro i hi
  obtain ⟨hmine, wtx, hwtx, txin, htxin, rfl⟩ := mem_ownInputs hi
  refine g.rank_lt o.hash wtx hwtx txin htxin (contains_iff.2 ?_)
  obtain ⟨prev, hprev, -⟩ := (Option.any_eq_true _ _).1 hmine
  exact ⟨prev, hprev⟩

def MixGraph.realRounds (g : MixGraph) (o : COutPoint) : Int :=
  roundsOf g.mapWallet o ((ownInputs g.mapWallet g.isMine o).attach.map fun i => g.realRounds i.1)
termination_by g.rank o.hash
decreasing_by exact g.rank_ownInputs o i.1 i.2

theorem MixGraph.realRounds_eq (g : MixGraph) (o : COutPoint) :
    g.realRounds o = roundsOf g.mapWallet o ((ownInputs g.mapWallet g.isMine o).map g.realRounds) := by
  rw [realRounds]
  simp

/-! ## The least of the inputs -/

/-- The two variables of the loop: -10 and false as long as no input with rounds was found. -/
def best (o : Option Int) : Int × Bool := o.elim (-10, false) fun n => (n, true)

theorem foldl_foundRounds_some {n : Int} (hn : 0 ≤ n) (ns : List Int) :
    ns.foldl foundRounds (best (some n)) = best (some ((ns.filter fun n => 0 ≤ n).foldl min n)) := by
  induction ns generalizing n with
  | nil => rfl
  | cons k ns ih =>
    rw [List.foldl_cons, List.filter_cons]
    have hne : (n == -10) = false := beq_eq_false_iff_ne.2 (by omega)
    by_cases hk : 0 ≤ k
    · have hstep : foundRounds (best (some n)) k = best (some (min n k)) := by
        by_cases hlt : k < n
        · simp [foundRounds, best, hk, hlt, min_eq_right hlt.le]
        · simp [foundRounds, best, hk, hlt, hne, min_eq_left (not_lt.1 hlt)]
      rw [hstep, ih (le_min hn hk)]
      simp [hk]
    · have hstep : foundRounds (best (some n)) k = best (some n) := by simp [foundRounds, hk]
      rw [hstep, ih hn]
      simp [hk]

theorem foldl_foundRounds (ns : List Int) :
    ns.foldl foundRounds (-10, false) = best (ns.filter fun n => 0 ≤ n).min? := by
  induction ns with
  | nil => rfl
  | cons k ns ih =>
    rw [List.foldl_cons, List.filter_cons]
    by_cases hk : 0 ≤ k
    · have hstep : foundRounds (-10, false) k = best (some k) := by simp [foundRounds, best, hk]
      rw [hstep, foldl_foundRounds_some hk, if_pos (decide_eq_true hk), List.min?_cons']
    · have hstep : foundRounds (-10, false) k = (-10, false) := by simp [foundRounds, hk]
      rw [hstep, ih]
      simp [hk]

theorem rounds_of_best (ns : List Int) :
    (if (ns.foldl foundRounds (-10, false)).2 then
      (if (ns.foldl foundRounds (-10, false)).1 ≥ 15 then 16 else (ns.foldl foundRounds (-10, false)).1 + 1) else 0) =
      roundsFrom ns := by
  rw [foldl_foundRounds, roundsFrom]
  cases (ns.filter fun n => 0 ≤ n).min? with
  | none => rfl
  | some n =>
    show (if n ≥ 15 then (16 : Int) else n + 1) = min 16 (n + 1)
    split
    · exact (min_eq_left (by omega)).symm
    · exact (min_eq_right (by omega)).symm

theorem roundsFrom_nonneg (ns : List Int) : 0 ≤ roundsFrom ns := by
  unfold roundsFrom
  cases hmin : (ns.filter fun n => 0 ≤ n).min? with
  | none => exact le_rfl
  | some n =>
    have hn : 0 ≤ n := by
      have hmem := List.min?_mem hmin
      simpa using (List.mem_filter.1 hmem).2
    exact le_min (by decide) (by omega)

theorem roundsOf_ne (mapWallet : Map Uint256 CWalletTx) (o : COutPoint) (ns : List Int) : roundsOf mapWallet o ns ≠ -10 := by
  have hnonneg := roundsFrom_nonneg ns
  unfold roundsOf
  repeat' split
  all_goals omega

/-! ## The table as a memo -/

section
variable {mapWallet : Map Uint256 CWalletTx} {isMine : CTxOut → Bool} {M : DenomTable} {o : COutPoint} {wtx : CWalletTx}

def values (M : DenomTable) (o : COutPoint) : Option Int :=
  (M[o.hash]?).bind fun vout => (vout[o.n]?).bind fun r => if r = -10 then none else some r

def TableOk (mapWallet : Map Uint256 CWalletTx) (M : DenomTable) : Prop :=
  ∀ (h : Uint256) (vout : List Int), M[h]? = some vout → ∃ wtx, mapWallet[h]? = some wtx ∧ vout.length = wtx.vout.length

/-- `M'` is the table `M` after a call: it knows as much, and its values are `m`. -/
structure After (mapWallet : Map Uint256 CWalletTx) (M : DenomTable) (m : COutPoint → Option Int) (M' : DenomTable) :
    Prop where
  ok : TableOk mapWallet M'
  known : ∀ h, M.contains h = true → M'.contains h = true
  values : values M' = m

def InWallet (mapWallet : Map Uint256 CWalletTx) (o : COutPoint) : Prop :=
  ∃ wtx, mapWallet[o.hash]? = some wtx ∧ o.n < wtx.vout.length

theorem inWallet_of_isMineInput (h : isMineInput mapWallet isMine o = true) : InWallet mapWallet o := by
  obtain ⟨wtx, hwtx, hout⟩ := (Option.any_eq_true _ _).1 h
  obtain ⟨out, hout, -⟩ := (Option.any_eq_true _ _).1 hout
  exact ⟨wtx, hwtx, (List.getElem?_eq_some_iff.1 hout).1⟩

theorem after_insert (hM : TableOk mapWallet M) (hw : mapWallet[o.hash]? = some wtx) (hnone : M[o.hash]? = none) :
    After mapWallet M (values M) (M.insert o.hash (wtx.vout.map fun _ => -10)) where
  ok h vout hget := by
    rw [lookup_insert] at hget
    split at hget
    · next heq =>
      cases hget
      exact ⟨wtx, heq ▸ hw, by simp⟩
    · exact hM h vout hget
  known h hin := by simp [hin]
  values := by
    funext x
    rw [values, values, lookup_insert]
    split
    · next heq =>
      rw [heq, hnone, Option.bind_some, Option.bind_none, List.getElem?_map]
      cases wtx.vout[x.n]? <;> rfl
    · rfl

theorem after_update (hM : TableOk mapWallet M) {r : Int} (hr : r ≠ -10) (hknown : M.contains o.hash = true)
    (hw : mapWallet[o.hash]? = some wtx) (hn : o.n < wtx.vout.length) :
    After mapWallet M (fun x => if x = o then some r else values M x) (update M o.hash o.n r).2 where
  ok h vout hget := by
    rw [update, lookup_modify] at hget
    split at hget
    · next heq =>
      obtain ⟨vout', hvout', rfl⟩ := Option.map_eq_some_iff.1 hget
      rw [List.length_set, heq]
      exact hM _ vout' hvout'
    · exact hM h vout hget
  known h hin := by
    obtain ⟨vout, hvout⟩ := contains_iff.1 hin
    refine contains_iff.2 ?_
    rw [update, lookup_modify]
    split
    · next heq => exact ⟨vout.set o.n r, by rw [← heq, hvout, Option.map_some]⟩
    · exact ⟨vout, hvout⟩
  values := by
    obtain ⟨vout, hvout⟩ := contains_iff.1 hknown
    obtain ⟨wtx', hwtx', hlength⟩ := hM _ vout hvout
    cases hw.symm.trans hwtx'
    have hlt : o.n < vout.length := hlength ▸ hn
    funext x
    rw [values, update, lookup_modify]
    by_cases hx : x = o
    · subst hx
      rw [if_pos rfl, if_pos rfl, hvout, Option.map_some, Option.bind_some, List.getElem?_set_self hlt, Option.bind_some,
        if_neg hr]
    · rw [if_neg hx, values]
      by_cases hhash : x.hash = o.hash
      · have hne : o.n ≠ x.n := fun h => hx (by cases x; cases o; simp_all)
        rw [if_pos hhash, hhash, hvout, Option.map_some, Option.bind_some, Option.bind_some, List.getElem?_set_ne hne]
      · rw [if_neg hhash]

/-- A call that follows a memoised evaluation `g`. -/
def Follows (mapWallet : Map Uint256 CWalletTx) (real : DenomTable → COutPoint → Option (Int × DenomTable))
    (g : (COutPoint → Option Int) → COutPoint → Int × (COutPoint → Option Int)) : Prop :=
  ∀ M o, TableOk mapWallet M → InWallet mapWallet o →
    ∃ M', real M o = some ((g (values M) o).1, M') ∧ After mapWallet M (g (values M) o).2 M'

variable {real : DenomTable → COutPoint → Option (Int × DenomTable)}
  {g : (COutPoint → Option Int) → COutPoint → Int × (COutPoint → Option Int)}

variable (isMine) in
theorem lookUp_follows (hreal : Follows mapWallet real g) (hM : TableOk mapWallet M) (vin : List CTxIn) (b : Int × Bool) :
    ∃ M', lookUp mapWallet isMine real vin b M =
        some ((evalAll g (values M) ((vin.map CTxIn.prevout).filter (isMineInput mapWallet isMine))).1.foldl foundRounds b, M') ∧
      After mapWallet M (evalAll g (values M) ((vin.map CTxIn.prevout).filter (isMineInput mapWallet isMine))).2 M' := by
  induction vin generalizing M b with
  | nil => exact ⟨M, rfl, hM, fun _ h => h, rfl⟩
  | cons txinNext vin ih =>
    rw [lookUp, List.map_cons, List.filter_cons]
    by_cases hmine : isMineInput mapWallet isMine txinNext.prevout = true
    · obtain ⟨M₁, hstep, hok₁, hknown₁, hvalues₁⟩ := hreal M txinNext.prevout hM (inWallet_of_isMineInput hmine)
      obtain ⟨M', hrest, hok', hknown', hvalues'⟩ := ih hok₁ (foundRounds b (g (values M) txinNext.prevout).1)
      rw [if_pos hmine, if_pos hmine, hstep, Option.bind_some, evalAll, ← hvalues₁]
      exact ⟨M', hrest, hok', fun h hin => hknown' h (hknown₁ h hin), hvalues'⟩
    · rw [if_neg hmine, if_neg hmine]
      exact ih hM b

variable (isMine) in
/-- Behind the table: the output gets the rounds that those of its own inputs lead to. -/
theorem computeRounds_follows (hreal : Follows mapWallet real g) (hM : TableOk mapWallet M)
    (hknown : M.contains o.hash = true) (hw : mapWallet[o.hash]? = some wtx) (hn : o.n < wtx.vout.length) :
    ∃ M', computeRounds mapWallet isMine real wtx o.hash o.n M =
        some (roundsOf mapWallet o (evalAll g (values M) (ownInputs mapWallet isMine o)).1, M') ∧
      After mapWallet M (fun x => if x = o then some (roundsOf mapWallet o (evalAll g (values M) (ownInputs mapWallet isMine o)).1)
        else (evalAll g (values M) (ownInputs mapWallet isMine o)).2 x) M' := by
  have hout : wtx.vout[o.n]? = some wtx.vout[o.n] := List.getElem?_eq_getElem hn
  have hne (ns : List Int) := roundsOf_ne mapWallet o ns
  -- the three values that are written without a look at the inputs
  have hdirect (r : Int) (hinputs : ownInputs mapWallet isMine o = []) (hr : ∀ ns, roundsOf mapWallet o ns = r) :
      ∃ M', some (update M o.hash o.n r) =
          some (roundsOf mapWallet o (evalAll g (values M) (ownInputs mapWallet isMine o)).1, M') ∧
        After mapWallet M (fun x => if x = o then some (roundsOf mapWallet o (evalAll g (values M) (ownInputs mapWallet isMine o)).1)
          else (evalAll g (values M) (ownInputs mapWallet isMine o)).2 x) M' := by
    rw [hinputs, hr]
    exact ⟨_, rfl, after_update hM (hr [] ▸ hne []) hknown hw hn⟩
  unfold computeRounds
  rw [hout]
  dsimp only
  by_cases hcollateral : isCollateralAmount wtx.vout[o.n].nValue = true
  · rw [if_pos hcollateral]
    exact hdirect (-3) (by simp [ownInputs, hw, hout, hcollateral]) fun ns => by simp [roundsOf, hw, hout, hcollateral]
  rw [Bool.not_eq_true] at hcollateral
  rw [hcollateral, if_neg Bool.false_ne_true]
  by_cases hdenominated : isDenominatedAmount wtx.vout[o.n].nValue = true
  swap
  · rw [Bool.not_eq_true] at hdenominated
    rw [hdenominated, Bool.not_false, if_pos rfl]
    exact hdirect (-2) (by simp [ownInputs, hw, hout, hdenominated]) fun ns => by
      simp [roundsOf, hw, hout, hcollateral, hdenominated]
  rw [hdenominated, Bool.not_true, if_neg Bool.false_ne_true]
  cases hall : wtx.vout.all fun out => isDenominatedAmount out.nValue with
  | false =>
    rw [Bool.not_false, if_pos rfl]
    refine hdirect 0 ?_ fun ns => ?_
    · simp only [ownInputs, hw, hout, hcollateral, hdenominated, hall, Bool.not_true, Bool.not_false, Bool.or_true, if_true]
    · simp only [roundsOf, hw, hout, hcollateral, hdenominated, hall, Bool.not_true, Bool.not_false, Bool.false_eq_true,
        if_false, if_true]
  | true =>
    have hinputs : ownInputs mapWallet isMine o = (wtx.vin.map CTxIn.prevout).filter (isMineInput mapWallet isMine) := by
      simp only [ownInputs, hw, hout, hcollateral, hdenominated, hall, Bool.not_true, Bool.or_self, Bool.false_eq_true, if_false]
    have hrounds (ns : List Int) : roundsOf mapWallet o ns = roundsFrom ns := by
      simp only [roundsOf, hw, hout, hcollateral, hdenominated, hall, Bool.not_true, Bool.false_eq_true, if_false]
    obtain ⟨M', hloop, hok', hknown', hvalues'⟩ := lookUp_follows isMine hreal hM wtx.vin (-10, false)
    rw [Bool.not_true, if_neg Bool.false_ne_true, hloop, Option.map_some, hinputs, hrounds, rounds_of_best]
    generalize hr : roundsFrom _ = r
    have hupdate := after_update hok' (r := r) (hr ▸ hrounds _ ▸ hne _) (hknown' _ hknown) hw hn
    rw [hvalues'] at hupdate
    exact ⟨_, rfl, hupdate.ok, fun h hin => hupdate.known h (hknown' h hin), hupdate.values⟩

variable (mapWallet isMine) in
/-- The source's function is the memoised recursion, over the values of its table. -/
theorem getReal_eval (left : Nat) : Follows mapWallet (getRealInputPrivateSendRounds mapWallet isMine left)
    (eval (ownInputs mapWallet isMine) (roundsOf mapWallet) 15 left) := by
  induction left with
  | zero => exact fun M o hM _ => ⟨M, rfl, hM, fun _ h => h, rfl⟩
  | succ left ih =>
    intro M o hM ho
    obtain ⟨wtx, hw, hn⟩ := ho
    rw [getRealInputPrivateSendRounds, hw]
    dsimp only
    cases hvout : M[o.hash]? with
    | none =>
      have hafter := after_insert hM hw hvout
      have hnone : values M o = none := by rw [values, hvout, Option.bind_none]
      have hknown : (M.insert o.hash (wtx.vout.map fun _ => -10)).contains o.hash = true := by simp
      obtain ⟨M', hrun, hok', hknown', hvalues'⟩ := computeRounds_follows isMine ih hafter.ok hknown hw hn
      rw [eval_of_none hnone]
      rw [hafter.values] at hrun hvalues'
      exact ⟨M', hrun, hok', fun h hin => hknown' h (hafter.known h hin), hvalues'⟩
    | some vout =>
      obtain ⟨wtx', hw', hlength⟩ := hM _ vout hvout
      cases hw.symm.trans hw'
      have hlt : o.n < vout.length := hlength ▸ hn
      cases hr : vout[o.n]? with
      | none => exact absurd (List.getElem?_eq_none_iff.1 hr) (not_le.2 hlt)
      | some r =>
        have hvalue : values M o = if r = -10 then none else some r := by
          rw [values, hvout, Option.bind_some, hr, Option.bind_some]
        simp only [hr, Option.bind_some]
        by_cases hinitial : r = -10
        · rw [if_pos hinitial] at hvalue
          rw [if_neg (not_not.2 hinitial), eval_of_none hvalue]
          exact computeRounds_follows isMine ih hM (contains_iff.2 ⟨vout, hvout⟩) hw hn
        · rw [if_neg hinitial] at hvalue
          rw [if_pos hinitial, eval_of_settled hvalue]
          exact ⟨M, rfl, hM, fun _ h => h, rfl⟩

end

/-! ## Runs of queries -/

namespace MixGraph

variable (g : MixGraph)

/-- `GetRealInputPrivateSendRounds` with depth 0. -/
def query (M : DenomTable) (o : COutPoint) : Option (Int × DenomTable) :=
  getRealInputPrivateSendRounds g.mapWallet g.isMine 16 M o

def step (M : DenomTable) (o : COutPoint) : Option DenomTable := (g.query M o).map Prod.snd

structure Right (M : DenomTable) : Prop where
  ok : TableOk g.mapWallet M
  sound : Sound g.realRounds (values M)

/-- The answer is that of the definition, and what the query leaves in the table too. -/
def Answers (M : DenomTable) (o : COutPoint) (M' : DenomTable) : Prop :=
  g.query M o = some (g.realRounds o, M') ∧ g.Right M'

/-- The outputs that a query computes on its last level, by the outputs that have a value in the table. -/
def lastLevel (M : DenomTable) (o : COutPoint) : List COutPoint :=
  (survey (ownInputs g.mapWallet g.isMine) 16 (settled (values M)) o).1

/-- A query of a transaction's output, or of an index past its end while the table does not know the transaction; and
    the outputs of its last level have the rounds they get when each of their own inputs counts for 15. -/
def QueryOk (M : DenomTable) (o : COutPoint) : Prop :=
  (InWallet g.mapWallet o → ∀ x ∈ g.lastLevel M o,
    roundsOf g.mapWallet x ((ownInputs g.mapWallet g.isMine x).map fun _ => 15) = g.realRounds x) ∧
  (M.contains o.hash = true → InWallet g.mapWallet o)

variable {g} {M M' : DenomTable} {o : COutPoint}

theorem right_empty : g.Right ∅ where
  ok h vout hget := by simp at hget
  sound x b hx := by simp [values] at hx

/-- A query of a wallet output comes back, right and with right values in the table just under its condition. -/
theorem query_inWallet (hM : g.Right M) (ho : InWallet g.mapWallet o) :
    ∃ r M', g.query M o = some (r, M') ∧ ((r = g.realRounds o ∧ g.Right M') ↔ g.QueryOk M o) := by
  obtain ⟨M', hrun, hok, hknown, hvalues⟩ := getReal_eval g.mapWallet g.isMine 16 M o hM.ok ho
  have hiff : ((eval (ownInputs g.mapWallet g.isMine) (roundsOf g.mapWallet) 15 16 (values M) o).1 = g.realRounds o ∧
      Sound g.realRounds (eval (ownInputs g.mapWallet g.isMine) (roundsOf g.mapWallet) 15 16 (values M) o).2) ↔
      ∀ x ∈ g.lastLevel M o,
        roundsOf g.mapWallet x ((ownInputs g.mapWallet g.isMine x).map fun _ => 15) = g.realRounds x :=
    eval_sound_iff g.rank_ownInputs g.realRounds_eq hM.sound
  refine ⟨_, M', hrun, ?_⟩
  rw [← hvalues] at hiff
  constructor
  · intro h
    exact ⟨fun _ => hiff.1 ⟨h.1, h.2.sound⟩, fun _ => ho⟩
  · intro h
    obtain ⟨hanswer, hsound⟩ := hiff.2 (h.1 ho)
    exact ⟨hanswer, hok, hsound⟩

/-- A query of anything else is right as long as it reads nothing from the table. -/
theorem query_outside (hM : g.Right M) (ho : ¬ InWallet g.mapWallet o) :
    if M.contains o.hash = true then g.query M o = none else ∃ M', g.Answers M o M' := by
  have hreal := g.realRounds_eq o
  unfold Answers query getRealInputPrivateSendRounds
  cases hw : g.mapWallet[o.hash]? with
  | none =>
    have hunknown : ¬ M.contains o.hash = true := fun hin => by
      obtain ⟨vout, hvout⟩ := contains_iff.1 hin
      obtain ⟨wtx, hwtx, -⟩ := hM.ok _ vout hvout
      rw [hw] at hwtx
      cases hwtx
    rw [if_neg hunknown, hreal, roundsOf, hw]
    exact ⟨M, rfl, hM⟩
  | some wtx =>
    have hpast : wtx.vout.length ≤ o.n := not_lt.1 fun hlt => ho ⟨wtx, hw, hlt⟩
    cases hvout : M[o.hash]? with
    | none =>
      have hunknown : ¬ M.contains o.hash = true := by rw [contains_eq_false_iff.2 hvout]; exact Bool.false_ne_true
      have hafter := after_insert hM.ok hw hvout
      have hanswer : g.realRounds o = -4 := by
        rw [hreal, roundsOf, hw]
        simp only [List.getElem?_eq_none hpast]
      rw [if_neg hunknown, hanswer]
      dsimp only
      rw [computeRounds, List.getElem?_eq_none hpast]
      exact ⟨_, rfl, hafter.ok, hafter.values ▸ hM.sound⟩
    | some vout =>
      obtain ⟨wtx', hw', hlength⟩ := hM.ok _ vout hvout
      cases hw.symm.trans hw'
      rw [if_pos (contains_iff.2 ⟨vout, hvout⟩)]
      dsimp only
      rw [List.getElem?_eq_none (hlength ▸ hpast), Option.bind_none]

theorem answers_iff (hM : g.Right M) : (∃ M', g.Answers M o M') ↔ g.QueryOk M o := by
  by_cases ho : InWallet g.mapWallet o
  · obtain ⟨r, M', hrun, hiff⟩ := query_inWallet hM ho
    rw [← hiff]
    constructor
    · rintro ⟨M'', hrun', hright⟩
      cases hrun.symm.trans hrun'
      exact ⟨rfl, hright⟩
    · rintro ⟨rfl, hright⟩
      exact ⟨M', hrun, hright⟩
  · have hout := query_outside hM ho
    constructor
    · rintro ⟨M', hrun, -⟩
      refine ⟨fun h => absurd h ho, fun hin => ?_⟩
      rw [if_pos hin, hrun] at hout
      cases hout
    · intro h
      rwa [if_neg fun hin => ho (h.2 hin)] at hout

/-- The queries of a run all come back with the definition's rounds, and leave them in the table, just when each of
    them meets its condition. -/
theorem rounds_iff (g : MixGraph) (es : List COutPoint) :
    (run g.step ∅ es).isSome ∧ Along g.step g.Answers ∅ es ↔ Meets g.step g.QueryOk ∅ es := by
  have hanswer (M : DenomTable) (o : COutPoint) (M' : DenomTable) (hM : g.Right M) (hok : g.QueryOk M o)
      (hstep : g.step M o = some M') : g.Answers M o M' := by
    obtain ⟨M'', hrun, hright⟩ := (answers_iff hM).2 hok
    rw [step, hrun] at hstep
    cases hstep
    exact ⟨hrun, hright⟩
  refine defined_along_iff_meets g.Right ?_ ?_ ?_ right_empty
  · intro M o hM hok
    obtain ⟨M', hrun, -⟩ := (answers_iff hM).2 hok
    rw [step, hrun]
    rfl
  · intro M o M' hM hok hstep
    have hanswers := hanswer M o M' hM hok hstep
    exact ⟨hanswers.2, hanswers⟩
  · intro M o M' hM _ hanswers
    exact (answers_iff hM).1 ⟨M', hanswers⟩

/-! ## A long chain -/

/-- The k-th transaction of a chain spends the one before it, in one denomination. -/
def linkTx (k : Nat) : CWalletTx :=
  ⟨⟨if k = 0 then [] else [⟨⟨k - 1, 0⟩, [], 0⟩], [⟨coin + 1000, []⟩], k⟩, 0, -1⟩

def links (n : Nat) : Map Uint256 CWalletTx := (List.range n).foldl (fun m k => m.insert k (linkTx k)) ∅

theorem links_lookup {n : Nat} {h : Uint256} {wtx : CWalletTx} (hget : (links n)[h]? = some wtx) : wtx = linkTx h := by
  have hall (ks : List Nat) : ∀ m : Map Uint256 CWalletTx, (∀ (h : Uint256) wtx, m[h]? = some wtx → wtx = linkTx h) →
      ∀ (h : Uint256) wtx, (ks.foldl (fun m k => m.insert k (linkTx k)) m)[h]? = some wtx → wtx = linkTx h := by
    induction ks with
    | nil => exact fun m hm => hm
    | cons k ks ih =>
      refine fun m hm => ih _ fun h wtx hget => ?_
      rw [lookup_insert] at hget
      split at hget
      · next heq =>
        cases hget
        rw [heq]
      · exact hm h wtx hget
  exact hall _ ∅ (fun h wtx hget => by simp at hget) h wtx hget

def longChain : MixGraph where
  mapWallet := links 17
  isMine _ := true
  rank := id
  rank_lt h wtx hget txin htxin _ := by
    rw [links_lookup hget] at htxin
    unfold linkTx at htxin
    split at htxin
    · cases htxin
    · next hne =>
      rw [List.mem_singleton.1 htxin]
      exact Nat.sub_lt (Nat.pos_of_ne_zero hne) Nat.one_pos

/-- The last transaction is asked for first: the second one, mixed once, has 16 rounds from then on. -/
theorem limited_value_kept :
    ∃ M, run longChain.step ∅ [⟨16, 0⟩] = some M ∧ (longChain.query M ⟨1, 0⟩).map Prod.fst = some 16 ∧
      longChain.realRounds ⟨1, 0⟩ = 1 := by
  refine ⟨_, rfl, by decide +kernel, ?_⟩
  have hfirst : longChain.realRounds ⟨0, 0⟩ = 0 := by
    rw [longChain.realRounds_eq]
    have hinputs : ownInputs longChain.mapWallet longChain.isMine ⟨0, 0⟩ = [] := by decide +kernel
    rw [hinputs]
    decide +kernel
  rw [longChain.realRounds_eq]
  have hinputs : ownInputs longChain.mapWallet longChain.isMine ⟨1, 0⟩ = [⟨0, 0⟩] := by decide +kernel
  rw [hinputs, List.map_singleton, hfirst]
  decide +kernel

end MixGraph

end Zumy.Ledger
