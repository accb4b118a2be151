/-
  Zumy.Wallet.MinConf — the randomised search for coins (`wallet/wallet.cpp`:
  `ApproximateBestSubset`, `SelectCoinsMinConf`).

  A coin is known by its transaction and place, as in `setCoinsRet`. The marks `vfIncluded`
  and `vfBest` are sets of places in `vValue`. The shuffle is any permutation, so that the
  order of equal elements behind a sort is any order too. `CAmount`s are unbounded.
-/
import Mathlib.Algebra.BigOperators.Fin
import Mathlib.Algebra.Order.BigOperators.Group.Finset
import Zumy.Wallet.Coins

namespace Zumy.Ledger

/-- `std::pair<const CWalletTx*,unsigned int>` -/
abbrev CoinRef := CWalletTx × Nat

def outValue (c : CoinRef) : Int := (c.1.vout.getD c.2 ⟨0, []⟩).nValue

def COutput.ref (out : COutput) : CoinRef := (out.tx, out.i)

/-- `CENT` -/
def minChange : Int := coin / 100

/-! ## ApproximateBestSubset -/

section
variable {α : Type} (vValue : List (Int × α)) (nTargetValue : Int)

structure Subset where
  vfBest : Finset (Fin vValue.length)
  nBest : Int

structure Trial extends Subset vValue where
  vfIncluded : Finset (Fin vValue.length)
  nTotal : Int
  fReachedTarget : Bool

variable {vValue}

def Trial.tryPlace (t : Trial vValue) (i : Fin vValue.length) : Trial vValue :=
  let nTotal := t.nTotal + vValue[i].1
  let vfIncluded := insert i t.vfIncluded
  if nTargetValue ≤ nTotal then
    { toSubset := if nTotal < t.nBest then ⟨vfIncluded, nTotal⟩ else t.toSubset
      vfIncluded := vfIncluded.erase i
      nTotal := nTotal - vValue[i].1
      fReachedTarget := true }
  else { t with vfIncluded := vfIncluded, nTotal := nTotal }

/-- A turn of the first pass takes what its random bit says, one of the second what is not included yet. -/
def repetition (bits : Fin vValue.length → Bool) (best : Subset vValue) : Subset vValue :=
  let places := List.finRange vValue.length
  let t := places.foldl (fun t i => if bits i then t.tryPlace nTargetValue i else t) (⟨best, ∅, 0, false⟩ : Trial vValue)
  if t.fReachedTarget then t.toSubset
  else (places.foldl (fun t i => if i ∈ t.vfIncluded then t else t.tryPlace nTargetValue i) t).toSubset

def Subset.reduce (best : Subset vValue) (i : Fin vValue.length) : Subset vValue :=
  if i ∈ best.vfBest ∧ nTargetValue ≤ best.nBest - vValue[i].1 then ⟨best.vfBest.erase i, best.nBest - vValue[i].1⟩ else best

variable (vValue) in
def approximateBestSubset (rand : Nat → Nat → Bool) (nTotalLower : Int) (iterations : Nat) : Subset vValue :=
  let best := (List.range iterations).foldl
    (fun best nRep => if best.nBest = nTargetValue then best else repetition nTargetValue (fun i => rand nRep i) best)
    (⟨Finset.univ, nTotalLower⟩ : Subset vValue)
  (List.finRange vValue.length).foldl (Subset.reduce nTargetValue) best

end

/-! ## SelectCoinsMinConf -/

structure Picked where
  setCoinsRet : Finset CoinRef
  nValueRet : Int

structure Scan where
  vValue : List (Int × CoinRef)
  nTotalLower : Int
  coinLowestLarger : Option (Int × CoinRef)

def Picked.single (c : Int × CoinRef) : Picked := ⟨{c.2}, c.1⟩

section
variable (cfg : CoinConfig) (nTargetValue nConfMine nConfTheirs : Int)

def lessThenDenom (out1 out2 : COutput) : Bool := !isDenominatedAmount out1.nValue && isDenominatedAmount out2.nValue

def eligible (out : COutput) : Bool :=
  out.fSpendable && decide ((if cfg.isFromMe out.tx then nConfMine else nConfTheirs) ≤ out.nDepth)

def looksAt (tryDenom : Nat) (out : COutput) : Bool :=
  eligible cfg nConfMine nConfTheirs out && !(tryDenom == 0 && isDenominatedAmount out.nValue)

/-- A coin of the list; `error` is one that is worth the target. -/
def scanCoin (tryDenom : Nat) (acc : Scan) (out : COutput) : Except (Int × CoinRef) Scan :=
  if !looksAt cfg nConfMine nConfTheirs tryDenom out then .ok acc
  else if out.nValue = nTargetValue then .error (out.nValue, out.ref)
  else if out.nValue < nTargetValue + minChange then
    .ok { acc with vValue := acc.vValue ++ [(out.nValue, out.ref)], nTotalLower := acc.nTotalLower + out.nValue }
  else if out.nValue < acc.coinLowestLarger.elim (2 ^ 63 - 1) (·.1) then
    .ok { acc with coinLowestLarger := some (out.nValue, out.ref) }
  else .ok acc

def bestSubset (rand : Nat → Nat → Nat → Bool) (vValue : List (Int × CoinRef)) (nTotalLower : Int) : Subset vValue :=
  let best := approximateBestSubset vValue nTargetValue (rand 0) nTotalLower 1000
  if best.nBest ≠ nTargetValue ∧ nTargetValue + minChange ≤ nTotalLower then
    approximateBestSubset vValue (nTargetValue + minChange) (rand 1) nTotalLower 1000
  else best

def Scan.solve (rand : Nat → Nat → Nat → Bool) (acc : Scan) : Picked :=
  let vValue := acc.vValue.mergeSort fun a b => decide (b.1 ≤ a.1)
  let best := bestSubset nTargetValue rand vValue acc.nTotalLower
  let subset : Picked := ⟨best.vfBest.image fun i => vValue[i].2, ∑ i ∈ best.vfBest, vValue[i].1⟩
  match acc.coinLowestLarger with
  | none => subset
  | some c =>
    if (best.nBest ≠ nTargetValue ∧ best.nBest < nTargetValue + minChange) ∨ c.1 ≤ best.nBest then Picked.single c else subset

/-- One run of the loop; `next` is what comes of `continue`. There was no larger coin before it. -/
def attempt (rand : Nat → Nat → Nat → Bool) (vCoins : List COutput) (tryDenom : Nat) (next : Bool × Picked) : Bool × Picked :=
  match vCoins.foldlM (scanCoin cfg nTargetValue nConfMine nConfTheirs tryDenom) ⟨[], 0, none⟩ with
  | .error c => (true, Picked.single c)
  | .ok acc =>
    if acc.nTotalLower = nTargetValue then (true, ⟨(acc.vValue.map (·.2)).toFinset, (acc.vValue.map (·.1)).sum⟩)
    else if acc.nTotalLower < nTargetValue then
      match acc.coinLowestLarger with
      | none => next
      | some c => (true, Picked.single c)
    else (true, acc.solve nTargetValue rand)

def selectCoinsMinConf (shuffle : List COutput → List COutput) (rand : Nat → Nat → Nat → Bool) (vCoins : List COutput) :
    Bool × Picked :=
  let vCoins := (shuffle vCoins).mergeSort fun a b => !lessThenDenom b a
  attempt cfg nTargetValue nConfMine nConfTheirs rand vCoins 0
    (attempt cfg nTargetValue nConfMine nConfTheirs rand vCoins 1 (false, ⟨∅, 0⟩))

end

/-! ## The marks -/

section
variable {α : Type} {vValue : List (Int × α)} {nTargetValue : Int} {best : Subset vValue} {t : Trial vValue}
  {i : Fin vValue.length}

def worth (marks : Finset (Fin vValue.length)) : Int := ∑ i ∈ marks, vValue[i].1

structure Subset.Sound (nTargetValue : Int) (best : Subset vValue) : Prop where
  nBest_eq : best.nBest = worth best.vfBest
  enough : nTargetValue ≤ best.nBest

structure Trial.Sound (nTargetValue : Int) (t : Trial vValue) : Prop extends t.toSubset.Sound nTargetValue where
  nTotal_eq : t.nTotal = worth t.vfIncluded

theorem tryPlace_sound (h : t.Sound nTargetValue) (hi : i ∉ t.vfIncluded) : (t.tryPlace nTargetValue i).Sound nTargetValue := by
  have hworth : worth (insert i t.vfIncluded) = t.nTotal + vValue[i].1 := by
    rw [worth, Finset.sum_insert hi, h.nTotal_eq, worth, Int.add_comm]
  unfold Trial.tryPlace
  dsimp only
  split
  · next hreached =>
    refine ⟨?_, ?_⟩
    · split
      · exact ⟨hworth.symm, hreached⟩
      · exact h.toSound
    · rw [Finset.erase_insert hi, Int.add_sub_cancel, h.nTotal_eq]
  · exact ⟨h.toSound, hworth.symm⟩

theorem mem_vfIncluded_tryPlace {j : Fin vValue.length} (h : j ∈ (t.tryPlace nTargetValue i).vfIncluded) :
    j ∈ t.vfIncluded ∨ j = i := by
  unfold Trial.tryPlace at h
  dsimp only at h
  split at h
  · exact (Finset.mem_insert.1 (Finset.mem_of_mem_erase h)).symm
  · exact (Finset.mem_insert.1 h).symm

theorem firstPass_sound (bits : Fin vValue.length → Bool) (places : List (Fin vValue.length)) (hnodup : places.Nodup)
    (hnew : ∀ i ∈ places, i ∉ t.vfIncluded) (h : t.Sound nTargetValue) :
    (places.foldl (fun t i => if bits i then t.tryPlace nTargetValue i else t) t).Sound nTargetValue := by
  induction places generalizing t with
  | nil => exact h
  | cons i places ih =>
    obtain ⟨hi, hnodup⟩ := List.nodup_cons.1 hnodup
    obtain ⟨hnewi, hnew⟩ := List.forall_mem_cons.1 hnew
    rw [List.foldl_cons]
    split
    · refine ih hnodup (fun j hj hin => ?_) (tryPlace_sound h hnewi)
      obtain hin | rfl := mem_vfIncluded_tryPlace hin
      · exact hnew j hj hin
      · exact hi hj
    · exact ih hnodup hnew h

theorem secondPass_sound (places : List (Fin vValue.length)) (h : t.Sound nTargetValue) :
    (places.foldl (fun t i => if i ∈ t.vfIncluded then t else t.tryPlace nTargetValue i) t).Sound nTargetValue := by
  induction places generalizing t with
  | nil => exact h
  | cons i places ih =>
    rw [List.foldl_cons]
    split
    · exact ih h
    · next hi => exact ih (tryPlace_sound h hi)

theorem repetition_sound (bits : Fin vValue.length → Bool) (h : best.Sound nTargetValue) :
    (repetition nTargetValue bits best).Sound nTargetValue := by
  have hfirst := firstPass_sound bits (List.finRange vValue.length) (List.nodup_finRange _)
    (t := ⟨best, ∅, 0, false⟩) (by simp) ⟨h, rfl⟩
  unfold repetition
  dsimp only
  split
  · exact hfirst.toSound
  · exact (secondPass_sound _ hfirst).toSound

theorem reduce_sound (h : best.Sound nTargetValue) : (best.reduce nTargetValue i).Sound nTargetValue := by
  unfold Subset.reduce
  split
  · next hcond =>
    refine ⟨?_, hcond.2⟩
    have hsum := Finset.add_sum_erase best.vfBest (fun i => vValue[i].1) hcond.1
    rw [h.nBest_eq, worth, worth, ← hsum]
    dsimp only
    omega
  · exact h

/-- Every repetition and every reduction keeps the best total that of its marks, and at least the target. -/
theorem approximateBestSubset_sound (rand : Nat → Nat → Bool) {nTotalLower : Int} (iterations : Nat)
    (htotal : nTotalLower = (vValue.map (·.1)).sum) (henough : nTargetValue ≤ nTotalLower) :
    (approximateBestSubset vValue nTargetValue rand nTotalLower iterations).Sound nTargetValue := by
  have hstart : (⟨Finset.univ, nTotalLower⟩ : Subset vValue).Sound nTargetValue := by
    refine ⟨?_, henough⟩
    show nTotalLower = ∑ i : Fin vValue.length, vValue[i].1
    rw [htotal, ← Fin.sum_univ_fun_getElem]
    rfl
  unfold approximateBestSubset
  refine List.foldlRecOn _ _ ?_ fun best h i _ => reduce_sound h
  refine List.foldlRecOn _ _ hstart fun best h nRep _ => ?_
  split
  · exact h
  · exact repetition_sound _ h

end

/-! ## The search -/

structure Chosen (coins : List COutput) (nTargetValue : Int) (p : Picked) : Prop where
  sub : ∀ c ∈ p.setCoinsRet, ∃ out ∈ coins, out.ref = c
  total : p.nValueRet = ∑ c ∈ p.setCoinsRet, outValue c
  enough : nTargetValue ≤ p.nValueRet

def COutput.valued (out : COutput) : Int × CoinRef := (out.nValue, out.ref)

structure Scanned (coins : List COutput) (nTargetValue : Int) (acc : Scan) : Prop where
  small : acc.vValue = (coins.filter fun out => out.nValue < nTargetValue + minChange).map COutput.valued
  total : acc.nTotalLower = (acc.vValue.map (·.1)).sum
  larger : ∀ c, acc.coinLowestLarger = some c → ∃ out ∈ coins, c = out.valued ∧ nTargetValue + minChange ≤ out.nValue
  none : acc.coinLowestLarger = none → ∀ out ∈ coins, out.nValue < 2 ^ 63 - 1 → out.nValue < nTargetValue + minChange

variable {cfg : CoinConfig} {nTargetValue nConfMine nConfTheirs : Int} {tryDenom : Nat} {acc : Scan} {coins vCoins : List COutput}
  {rand : Nat → Nat → Nat → Bool}

theorem chosen_single {out : COutput} (hout : out ∈ coins) (henough : nTargetValue ≤ out.nValue) :
    Chosen coins nTargetValue (Picked.single out.valued) where
  sub _ hc := ⟨out, hout, (Finset.mem_singleton.1 hc).symm⟩
  total := (Finset.sum_singleton outValue out.ref).symm
  enough := henough

theorem scanCoin_spec (h : Scanned coins nTargetValue acc) (out : COutput) :
    match scanCoin cfg nTargetValue nConfMine nConfTheirs tryDenom acc out with
    | .error c => looksAt cfg nConfMine nConfTheirs tryDenom out = true ∧ c = out.valued ∧ out.nValue = nTargetValue
    | .ok acc' => Scanned (coins ++ [out].filter (looksAt cfg nConfMine nConfTheirs tryDenom)) nTargetValue acc' := by
  have hlarger : ∀ c, acc.coinLowestLarger = some c → ∃ o ∈ coins ++ [out], c = o.valued ∧ nTargetValue + minChange ≤ o.nValue := by
    intro c hc
    obtain ⟨o, ho, hrest⟩ := h.larger c hc
    exact ⟨o, List.mem_append_left _ ho, hrest⟩
  unfold scanCoin
  by_cases hlooks : looksAt cfg nConfMine nConfTheirs tryDenom out = true
  · rw [if_neg (by simp [hlooks]), List.filter_cons_of_pos hlooks, List.filter_nil]
    by_cases hexact : out.nValue = nTargetValue
    · rw [if_pos hexact]
      exact ⟨hlooks, rfl, hexact⟩
    · rw [if_neg hexact]
      by_cases hsmall : out.nValue < nTargetValue + minChange
      · rw [if_pos hsmall]
        refine ⟨?_, ?_, hlarger, fun hnone o ho hlt => ?_⟩
        · rw [List.filter_append, List.map_append, List.filter_cons_of_pos (by simpa using hsmall), ← h.small]
          rfl
        · simp [h.total]
        · obtain ho | ho := List.mem_append.1 ho
          · exact h.none hnone o ho hlt
          · rwa [List.mem_singleton.1 ho]
      · have hfilter : (coins ++ [out]).filter (fun out => out.nValue < nTargetValue + minChange) =
            coins.filter fun out => out.nValue < nTargetValue + minChange := by
          rw [List.filter_append, List.filter_cons_of_neg (by simpa using hsmall), List.filter_nil, List.append_nil]
        rw [if_neg hsmall]
        by_cases hlower : out.nValue < acc.coinLowestLarger.elim (2 ^ 63 - 1) (·.1)
        · rw [if_pos hlower]
          refine ⟨by rw [hfilter, h.small], h.total, fun c hc => ?_, fun hnone => by cases hnone⟩
          cases hc
          exact ⟨out, List.mem_append_right _ List.mem_cons_self, rfl, not_lt.1 hsmall⟩
        · rw [if_neg hlower]
          refine ⟨by rw [hfilter, h.small], h.total, hlarger, fun hnone o ho hlt => ?_⟩
          obtain ho | ho := List.mem_append.1 ho
          · exact h.none hnone o ho hlt
          · rw [hnone, ← List.mem_singleton.1 ho] at hlower
            exact absurd hlt hlower
  · rw [if_pos (by simp [hlooks]), List.filter_cons_of_neg hlooks, List.filter_nil, List.append_nil]
    exact h

/-- The induction is on the coins that are left. -/
theorem scan_run (h : Scanned coins nTargetValue acc) :
    match vCoins.foldlM (scanCoin cfg nTargetValue nConfMine nConfTheirs tryDenom) acc with
    | .error c => ∃ out ∈ vCoins.filter (looksAt cfg nConfMine nConfTheirs tryDenom), c = out.valued ∧ out.nValue = nTargetValue
    | .ok acc' => Scanned (coins ++ vCoins.filter (looksAt cfg nConfMine nConfTheirs tryDenom)) nTargetValue acc' := by
  induction vCoins generalizing coins acc with
  | nil =>
    show Scanned (coins ++ []) nTargetValue acc
    rwa [List.append_nil]
  | cons out vCoins ih =>
    have hone := @scanCoin_spec cfg _ nConfMine nConfTheirs tryDenom _ _ h out
    rw [List.foldlM_cons]
    cases hstep : scanCoin cfg nTargetValue nConfMine nConfTheirs tryDenom acc out with
    | error c =>
      rw [hstep] at hone
      exact ⟨out, List.mem_filter.2 ⟨List.mem_cons_self, hone.1⟩, hone.2⟩
    | ok acc' =>
      rw [hstep] at hone
      have hrest := ih hone
      rw [List.append_assoc, ← List.filter_append, List.singleton_append] at hrest
      dsimp only [Bind.bind, Except.bind]
      generalize vCoins.foldlM (scanCoin cfg nTargetValue nConfMine nConfTheirs tryDenom) acc' = r at hrest ⊢
      cases r with
      | error c =>
        obtain ⟨o, ho, hrest⟩ := hrest
        exact ⟨o, ((List.sublist_cons_self out vCoins).filter _).subset ho, hrest⟩
      | ok acc'' => exact hrest

theorem chosen_image {vValue : List (Int × CoinRef)} (hperm : vValue.Perm (coins.map COutput.valued))
    (hnodup : (coins.map COutput.ref).Nodup) (marks : Finset (Fin vValue.length)) (henough : nTargetValue ≤ worth marks) :
    Chosen coins nTargetValue ⟨marks.image fun i => vValue[i].2, worth marks⟩ := by
  have hmem (i : Fin vValue.length) : ∃ out ∈ coins, out.valued = vValue[i] :=
    List.mem_map.1 (hperm.mem_iff.1 (List.getElem_mem i.2))
  have hrefs : (vValue.map (·.2)).Nodup := by
    rw [(hperm.map _).nodup_iff, List.map_map]
    exact hnodup
  refine ⟨fun c hc => ?_, ?_, henough⟩
  · obtain ⟨i, -, rfl⟩ := Finset.mem_image.1 hc
    obtain ⟨out, hout, heq⟩ := hmem i
    exact ⟨out, hout, congrArg Prod.snd heq⟩
  · show worth marks = _
    rw [Finset.sum_image, worth]
    · refine Finset.sum_congr rfl fun i _ => ?_
      obtain ⟨out, -, heq⟩ := hmem i
      rw [← heq]
      rfl
    · intro i _ j _ heq
      have hget : vValue[i] = vValue[j] := List.inj_on_of_nodup_map hrefs (List.getElem_mem i.2) (List.getElem_mem j.2) heq
      exact Fin.ext ((List.Nodup.of_map _ hrefs).getElem_inj_iff.1 hget)

theorem Chosen.mono {coins' : List COutput} {p : Picked} (h : Chosen coins nTargetValue p) (hsub : coins ⊆ coins') :
    Chosen coins' nTargetValue p where
  sub c hc := by
    obtain ⟨out, hout, heq⟩ := h.sub c hc
    exact ⟨out, hsub hout, heq⟩
  total := h.total
  enough := h.enough

def totalAmount (coins : List COutput) : Int := (coins.map COutput.nValue).sum

theorem total_eq (coins : List COutput) : totalAmount coins = ((coins.map COutput.valued).map (·.1)).sum := by
  rw [totalAmount, List.map_map]
  rfl

theorem chosen_all (hnodup : (coins.map COutput.ref).Nodup) :
    Chosen coins (totalAmount coins) ⟨((coins.map COutput.valued).map (·.2)).toFinset, ((coins.map COutput.valued).map (·.1)).sum⟩ where
  sub c hc := by
    rw [List.mem_toFinset, List.map_map] at hc
    exact List.mem_map.1 hc
  total := by
    rw [List.map_map, List.map_map]
    exact ((List.sum_toFinset outValue hnodup).trans (by rw [List.map_map]; rfl)).symm
  enough := (total_eq coins).le

theorem le_add_minChange (n : Int) : n ≤ n + minChange := by
  rw [minChange, coin]
  omega

variable (rand) in
theorem bestSubset_sound {vValue : List (Int × CoinRef)} {nTotalLower : Int} (htotal : nTotalLower = (vValue.map (·.1)).sum)
    (henough : nTargetValue ≤ nTotalLower) : (bestSubset nTargetValue rand vValue nTotalLower).Sound nTargetValue := by
  unfold bestSubset
  dsimp only
  split
  · next hcond =>
    have hmore := approximateBestSubset_sound (rand 1) 1000 htotal hcond.2
    exact ⟨hmore.nBest_eq, (le_add_minChange _).trans hmore.enough⟩
  · exact approximateBestSubset_sound (rand 0) 1000 htotal henough

theorem Scanned.solve_chosen (h : Scanned coins nTargetValue acc) (hnodup : (coins.map COutput.ref).Nodup)
    (henough : nTargetValue ≤ acc.nTotalLower) : Chosen coins nTargetValue (acc.solve nTargetValue rand) := by
  have hsub : (coins.filter fun out => out.nValue < nTargetValue + minChange).Sublist coins := List.filter_sublist
  have hperm := List.mergeSort_perm acc.vValue fun a b => decide (b.1 ≤ a.1)
  have htotal : acc.nTotalLower = ((acc.vValue.mergeSort fun a b => decide (b.1 ≤ a.1)).map (·.1)).sum := by
    rw [(hperm.map _).sum_eq, h.total]
  have hsound := bestSubset_sound rand htotal henough
  have hsubset := (chosen_image (hperm.trans (.of_eq h.small)) (hnodup.sublist (hsub.map _)) _
    (hsound.nBest_eq ▸ hsound.enough)).mono hsub.subset
  unfold Scan.solve
  cases hlarger : acc.coinLowestLarger with
  | none => exact hsubset
  | some c =>
    dsimp only
    split
    · obtain ⟨out, hout, rfl, hlarge⟩ := h.larger c hlarger
      exact chosen_single hout ((le_add_minChange _).trans hlarge)
    · exact hsubset

variable (rand) in
theorem attempt_spec (hnodup : (vCoins.map COutput.ref).Nodup) (next : Bool × Picked) :
    (∃ p, attempt cfg nTargetValue nConfMine nConfTheirs rand vCoins tryDenom next = (true, p) ∧
      Chosen (vCoins.filter (looksAt cfg nConfMine nConfTheirs tryDenom)) nTargetValue p) ∨
    attempt cfg nTargetValue nConfMine nConfTheirs rand vCoins tryDenom next = next ∧
      ((∀ out ∈ vCoins, out.nValue < 2 ^ 63 - 1) →
        totalAmount (vCoins.filter (looksAt cfg nConfMine nConfTheirs tryDenom)) < nTargetValue) := by
  have hstart : Scanned [] nTargetValue ⟨[], 0, none⟩ := ⟨rfl, rfl, by simp, by simp⟩
  have hrun := @scan_run cfg _ nConfMine nConfTheirs tryDenom _ _ vCoins hstart
  unfold attempt
  generalize vCoins.foldlM (scanCoin cfg nTargetValue nConfMine nConfTheirs tryDenom) ⟨[], 0, none⟩ = r at hrun ⊢
  cases r with
  | error c =>
    obtain ⟨out, hout, rfl, hexact⟩ := hrun
    exact .inl ⟨_, rfl, chosen_single hout hexact.ge⟩
  | ok acc =>
    dsimp only [List.nil_append] at hrun ⊢
    have hrefs : ((vCoins.filter (looksAt cfg nConfMine nConfTheirs tryDenom)).map COutput.ref).Nodup :=
      hnodup.sublist (List.filter_sublist.map _)
    have hsub := List.filter_sublist (l := vCoins.filter (looksAt cfg nConfMine nConfTheirs tryDenom))
      (p := fun out => out.nValue < nTargetValue + minChange)
    split
    · next hexact =>
      have hall := chosen_all (hrefs.sublist (hsub.map _))
      have htotal : totalAmount ((vCoins.filter (looksAt cfg nConfMine nConfTheirs tryDenom)).filter
          fun out => out.nValue < nTargetValue + minChange) = nTargetValue := by
        rw [total_eq, ← hrun.small, ← hrun.total, hexact]
      rw [htotal, ← hrun.small] at hall
      exact .inl ⟨_, rfl, hall.mono hsub.subset⟩
    · next hexact =>
      split
      · next hless =>
        cases hlarger : acc.coinLowestLarger with
        | none =>
          refine .inr ⟨rfl, fun hbound => ?_⟩
          have hsmall : (vCoins.filter (looksAt cfg nConfMine nConfTheirs tryDenom)).filter
              (fun out => out.nValue < nTargetValue + minChange) = vCoins.filter (looksAt cfg nConfMine nConfTheirs tryDenom) :=
            List.filter_eq_self.2 fun out hout =>
              decide_eq_true (hrun.none hlarger out hout (hbound out (List.mem_of_mem_filter hout)))
          rwa [hrun.total, hrun.small, hsmall, ← total_eq] at hless
        | some c =>
          obtain ⟨out, hout, rfl, hlarge⟩ := hrun.larger c hlarger
          exact .inl ⟨_, rfl, chosen_single hout ((le_add_minChange _).trans hlarge)⟩
      · exact .inl ⟨_, rfl, hrun.solve_chosen hrefs (by omega)⟩

theorem looksAt_one : looksAt cfg nConfMine nConfTheirs 1 = eligible cfg nConfMine nConfTheirs := by
  funext out
  simp [looksAt]

variable {shuffle : List COutput → List COutput}

variable (cfg rand) in
theorem selectCoinsMinConf_cases (hshuffle : ∀ l, (shuffle l).Perm l) (hnodup : (vCoins.map COutput.ref).Nodup) :
    (∃ p, selectCoinsMinConf cfg nTargetValue nConfMine nConfTheirs shuffle rand vCoins = (true, p) ∧
      Chosen (vCoins.filter (looksAt cfg nConfMine nConfTheirs 0)) nTargetValue p) ∨
    ((∀ out ∈ vCoins, out.nValue < 2 ^ 63 - 1) → totalAmount (vCoins.filter (looksAt cfg nConfMine nConfTheirs 0)) < nTargetValue) ∧
      ((∃ p, selectCoinsMinConf cfg nTargetValue nConfMine nConfTheirs shuffle rand vCoins = (true, p) ∧
          Chosen (vCoins.filter (eligible cfg nConfMine nConfTheirs)) nTargetValue p) ∨
        (selectCoinsMinConf cfg nTargetValue nConfMine nConfTheirs shuffle rand vCoins).1 = false ∧
          ((∀ out ∈ vCoins, out.nValue < 2 ^ 63 - 1) → totalAmount (vCoins.filter (eligible cfg nConfMine nConfTheirs)) < nTargetValue)) := by
  have hperm : ((shuffle vCoins).mergeSort fun a b => !lessThenDenom b a).Perm vCoins :=
    (List.mergeSort_perm _ _).trans (hshuffle vCoins)
  have hfilter (f : COutput → Bool) := hperm.filter f
  have htotal (f : COutput → Bool) : totalAmount (((shuffle vCoins).mergeSort fun a b => !lessThenDenom b a).filter f) =
      totalAmount (vCoins.filter f) := ((hfilter f).map _).sum_eq
  have hrefs := ((hperm.map COutput.ref).nodup_iff).2 hnodup
  have hbound (h : ∀ out ∈ vCoins, out.nValue < 2 ^ 63 - 1) :
      ∀ out ∈ (shuffle vCoins).mergeSort fun a b => !lessThenDenom b a, out.nValue < 2 ^ 63 - 1 :=
    fun out hout => h out (hperm.mem_iff.1 hout)
  unfold selectCoinsMinConf
  dsimp only
  obtain ⟨p, hp, hchosen⟩ | ⟨hnext, hshort⟩ := attempt_spec rand hrefs
    (attempt cfg nTargetValue nConfMine nConfTheirs rand _ 1 (false, ⟨∅, 0⟩))
  · exact .inl ⟨p, hp, hchosen.mono (hfilter _).subset⟩
  · refine .inr ⟨fun h => htotal _ ▸ hshort (hbound h), ?_⟩
    rw [hnext]
    obtain ⟨p, hp, hchosen⟩ | ⟨hnone, hshort⟩ := attempt_spec rand hrefs (false, (⟨∅, 0⟩ : Picked))
    · rw [looksAt_one] at hchosen
      exact .inl ⟨p, hp, hchosen.mono (hfilter _).subset⟩
    · rw [looksAt_one] at hshort
      exact .inr ⟨by rw [hnone], fun h => htotal _ ▸ hshort (hbound h)⟩

theorem selectCoinsMinConf_chosen (hshuffle : ∀ l, (shuffle l).Perm l) (hnodup : (vCoins.map COutput.ref).Nodup)
    (h : (selectCoinsMinConf cfg nTargetValue nConfMine nConfTheirs shuffle rand vCoins).1 = true) :
    Chosen (vCoins.filter (eligible cfg nConfMine nConfTheirs)) nTargetValue
      (selectCoinsMinConf cfg nTargetValue nConfMine nConfTheirs shuffle rand vCoins).2 := by
  obtain ⟨p, hp, hchosen⟩ | ⟨-, ⟨p, hp, hchosen⟩ | ⟨hfalse, -⟩⟩ := selectCoinsMinConf_cases cfg rand hshuffle hnodup
  · rw [hp]
    exact hchosen.mono (List.monotone_filter_right _ fun out hout => (Bool.and_eq_true_iff.1 hout).1).subset
  · rw [hp]
    exact hchosen
  · rw [hfalse] at h
    cases h

theorem Chosen.le_total {p : Picked} (h : Chosen coins nTargetValue p) (hnodup : (coins.map COutput.ref).Nodup)
    (hnonneg : ∀ out ∈ coins, 0 ≤ out.nValue) : nTargetValue ≤ totalAmount coins := by
  have hall : totalAmount coins = ∑ c ∈ (coins.map COutput.ref).toFinset, outValue c := by
    rw [List.sum_toFinset outValue hnodup, List.map_map]
    rfl
  have hsub : p.setCoinsRet ⊆ (coins.map COutput.ref).toFinset := by
    intro c hc
    obtain ⟨out, hout, rfl⟩ := h.sub c hc
    exact List.mem_toFinset.2 (List.mem_map_of_mem hout)
  refine h.enough.trans ?_
  rw [h.total, hall]
  refine Finset.sum_le_sum_of_subset_of_nonneg hsub fun c hc _ => ?_
  obtain ⟨out, hout, rfl⟩ := List.mem_map.1 (List.mem_toFinset.1 hc)
  exact hnonneg out hout

def fiftyCoins (fSpendable : Bool) : COutput := ⟨MixingWallet.payment, 0, 10, fSpendable⟩

end Zumy.Ledger
