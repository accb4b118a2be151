/-
  Zumy.Wallet.Coins — the coins a wallet can spend (`wallet/wallet.cpp`: `AvailableCoins`,
  `SelectCoinsMix`; `coincontrol.h`).

  A coin is a wallet transaction and the place of an output of it. Which transactions are
  final, trusted and the wallet's own, and whose an output is, are parameters.
-/
import Zumy.Wallet.Tally

namespace Zumy.Ledger

open Zumy.Lib

/-- `isminetype` -/
inductive IsMineType where
  | no
  | watchUnsolvable
  | watchSolvable
  | spendable
  deriving DecidableEq

inductive AvailableCoinsType where
  | allCoins
  | onlyDenominated
  | onlyNot500IfMN
  | onlyNondenominatedNot500IfMN
  /-- find Masternode outputs including locked ones (use with caution) -/
  | only500
  | onlyPrivatesendCollateral
  deriving DecidableEq

structure CCoinControl where
  fAllowOtherInputs : Bool
  fAllowWatchOnly : Bool
  nMinimumTotalFee : CAmount
  setSelected : List COutPoint
  nodup : setSelected.Nodup

def CCoinControl.hasSelected (coinControl : CCoinControl) : Bool := !coinControl.setSelected.isEmpty

def CCoinControl.isSelected (coinControl : CCoinControl) (o : COutPoint) : Bool := o ∈ coinControl.setSelected

structure COutput where
  tx : CWalletTx
  i : Nat
  nDepth : Int
  fSpendable : Bool
  deriving DecidableEq

namespace COutput

def nValue (out : COutput) : CAmount := (out.tx.vout.getD out.i ⟨0, []⟩).nValue

def prevout (out : COutput) : COutPoint := ⟨out.tx.hash, out.i⟩

end COutput

structure CoinConfig extends Config where
  isMineType : CTxOut → IsMineType
  checkFinalTx : CWalletTx → Bool
  isTrusted : CWalletTx → Bool
  /-- `IsFromMe(ISMINE_ALL)` -/
  isFromMe : CWalletTx → Bool
  /-- `sort` with `CompareByPriority`, from the back. -/
  sortByPriority : List COutput → List COutput

/-- The arguments of `AvailableCoins`. -/
structure CoinQuery where
  fOnlyConfirmed : Bool
  coinControl : Option CCoinControl
  fIncludeZeroValue : Bool
  nCoinType : AvailableCoinsType
  fUseInstantSend : Bool

def instantsendConfirmationsRequired : Int := 10

namespace MixingWallet

section
variable (cfg : CoinConfig) (s : MixingWallet) (q : CoinQuery)

/-- `found` -/
def found (nCoinType : AvailableCoinsType) (nValue : CAmount) : Bool :=
  match nCoinType with
  | .onlyDenominated => isDenominatedAmount nValue
  | .onlyNot500IfMN => !(cfg.fMasterNode && nValue == 2000 * coin)
  | .onlyNondenominatedNot500IfMN =>
    if isCollateralAmount nValue then false -- do not use collateral amounts
    else if !isDenominatedAmount nValue && cfg.fMasterNode then nValue != 2000 * coin -- do not use Hot MN funds
    else !isDenominatedAmount nValue
  | .only500 => nValue == 2000 * coin
  | .onlyPrivatesendCollateral => isCollateralAmount nValue
  | .allCoins => true

def offersCoins (wtx : CWalletTx) : Bool :=
  let nDepth := wtx.getDepthInMainChain s.view false
  cfg.checkFinalTx wtx && !(q.fOnlyConfirmed && !cfg.isTrusted wtx) && !s.immature wtx &&
    !(q.fUseInstantSend && decide (nDepth < instantsendConfirmationsRequired)) &&
    -- We should not consider coins which aren't at least in our mempool
    !(nDepth == 0 && !wtx.inMempool s.view)

def availableCoin (wtx : CWalletTx) (e : CTxOut × Nat) : Option COutput :=
  let mine := cfg.isMineType e.1
  if found cfg q.nCoinType e.1.nValue && !s.isSpent s.view wtx.hash e.2 && mine != .no &&
      (decide (⟨wtx.hash, e.2⟩ ∉ s.setLockedCoins) || q.nCoinType == .only500) &&
      (decide (0 < e.1.nValue) || q.fIncludeZeroValue) &&
      (q.coinControl.all fun cc => !cc.hasSelected || cc.fAllowOtherInputs || cc.isSelected ⟨wtx.hash, e.2⟩) then
    some ⟨wtx, e.2, wtx.getDepthInMainChain s.view false,
      mine == .spendable || q.coinControl.any fun cc => cc.fAllowWatchOnly && mine == .watchSolvable⟩
  else none

def availableCoins : List COutput :=
  s.mapWallet.toList.flatMap fun e => if s.offersCoins cfg q e.2 then e.2.vout.zipIdx.filterMap (s.availableCoin cfg q e.2) else []

def mixCoin (rounds : COutPoint → Int) (nValueMin nValueMax nRoundsMin nRoundsMax : Int) (ret : List COutput × CAmount)
    (out : COutput) : List COutput × CAmount :=
  -- do not allow inputs less than 1/10th of minimum value
  if out.nValue < nValueMin.tdiv 10 then ret
  else if isCollateralAmount out.nValue then ret
  else if cfg.fMasterNode && out.nValue == 500 * coin then ret -- Masternode input
  else if ret.2 + out.nValue ≤ nValueMax then
    if nRoundsMax ≤ rounds out.prevout then ret
    else if rounds out.prevout < nRoundsMin then ret
    else (ret.1 ++ [out], ret.2 + out.nValue)
  else ret

/-- `SelectCoinsMix`; the inputs are those of the coins. -/
def selectCoinsMix (rounds : COutPoint → Int) (nValueMin nValueMax nRoundsMin nRoundsMax : Int) :
    Bool × List COutput × CAmount :=
  let nCoinType := if nRoundsMin < 0 then .onlyNondenominatedNot500IfMN else .onlyDenominated
  let vCoins := cfg.sortByPriority (s.availableCoins cfg ⟨true, none, false, nCoinType, false⟩)
  let ret := vCoins.foldl (mixCoin cfg rounds nValueMin nValueMax nRoundsMin nRoundsMax) ([], 0)
  (nValueMin ≤ ret.2, ret)

end

variable {cfg : CoinConfig} {s : MixingWallet} {q : CoinQuery} {out : COutput}

/-- A coin of the list is an output of a wallet transaction, of the kind that is asked for. -/
theorem mem_availableCoins (h : out ∈ s.availableCoins cfg q) :
    ∃ (k : Uint256) (txout : CTxOut), s.mapWallet[k]? = some out.tx ∧ out.tx.vout[out.i]? = some txout ∧ out.nValue = txout.nValue ∧
      found cfg q.nCoinType out.nValue = true ∧ (0 < out.nValue ∨ q.fIncludeZeroValue = true) := by
  obtain ⟨e, he, hout⟩ := List.mem_flatMap.1 h
  split at hout
  · obtain ⟨⟨txout, i⟩, hi, hcoin⟩ := List.mem_filterMap.1 hout
    have hget := List.mem_zipIdx_iff_getElem?.1 hi
    rw [availableCoin] at hcoin
    split at hcoin
    · next hcond =>
      cases hcoin
      have hvalue : COutput.nValue ⟨e.2, i, e.2.getDepthInMainChain s.view false, cfg.isMineType txout == .spendable ||
          q.coinControl.any fun cc => cc.fAllowWatchOnly && cfg.isMineType txout == .watchSolvable⟩ = txout.nValue := by
        rw [COutput.nValue, List.getD_eq_getElem?_getD, hget, Option.getD_some]
      simp only [Bool.and_eq_true, Bool.or_eq_true, decide_eq_true_eq] at hcond
      refine ⟨e.1, txout, Std.TreeMap.mem_toList_iff_getElem?_eq_some.1 he, hget, hvalue, ?_, ?_⟩
      · rw [hvalue]
        exact hcond.1.1.1.1.1
      · rw [hvalue]
        exact hcond.1.2
    · cases hcoin
  · cases hout

/-- The induction of `flatMap` over the transactions: their hashes are different ones, and so are the places in each. -/
theorem nodup_availableCoins (hhash : ∀ (k : Uint256) (wtx : CWalletTx), s.mapWallet[k]? = some wtx → wtx.hash = k) :
    ((s.availableCoins cfg q).map COutput.prevout).Nodup := by
  have hprevout (e : Uint256 × CWalletTx) (o : COutPoint)
      (ho : o ∈ (if s.offersCoins cfg q e.2 then e.2.vout.zipIdx.filterMap (s.availableCoin cfg q e.2) else []).map
        COutput.prevout) : o.hash = e.2.hash := by
    obtain ⟨out, hout, rfl⟩ := List.mem_map.1 ho
    split at hout
    · obtain ⟨p, -, hcoin⟩ := List.mem_filterMap.1 hout
      obtain ⟨-, heq⟩ := Option.ite_none_right_eq_some.1 hcoin
      cases heq
      rfl
    · cases hout
  have hkeys : s.mapWallet.toList.Pairwise fun a b => a.1 ≠ b.1 := by
    have hnodup := Std.TreeMap.nodup_keys (t := s.mapWallet)
    rw [← Std.TreeMap.map_fst_toList_eq_keys] at hnodup
    exact List.pairwise_map.1 hnodup
  rw [availableCoins, List.map_flatMap, List.nodup_flatMap]
  refine ⟨fun e he => ?_, ?_⟩
  · split
    · have hplaces : e.2.vout.zipIdx.Pairwise fun a b => a.2 ≠ b.2 := by
        rw [← List.pairwise_map (f := Prod.snd) (R := fun i j => i ≠ j), List.zipIdx_map_snd]
        exact List.nodup_range'
      rw [List.map_filterMap, List.nodup_iff_pairwise_ne, List.pairwise_filterMap]
      refine hplaces.imp ?_
      intro a b hne o ho o' ho' hsame
      obtain ⟨out, hcoin, rfl⟩ := Option.map_eq_some_iff.1 ho
      obtain ⟨out', hcoin', rfl⟩ := Option.map_eq_some_iff.1 ho'
      obtain ⟨-, heq⟩ := Option.ite_none_right_eq_some.1 hcoin
      obtain ⟨-, heq'⟩ := Option.ite_none_right_eq_some.1 hcoin'
      cases heq
      cases heq'
      exact hne (congrArg COutPoint.n hsame)
    · exact List.nodup_nil
  · refine hkeys.imp_of_mem fun {a b} ha hb hne => ?_
    intro o hoa hob
    apply hne
    rw [← hhash _ _ (Std.TreeMap.mem_toList_iff_getElem?_eq_some.1 ha), ← hhash _ _ (Std.TreeMap.mem_toList_iff_getElem?_eq_some.1 hb),
      ← hprevout a o hoa, hprevout b o hob]

/-- Every output is the wallet's own, and every transaction final and trusted. -/
def ownNode : CoinConfig where
  toConfig := oneAddress
  isMineType _ := .spendable
  checkFinalTx _ := true
  isTrusted _ := true
  isFromMe _ := true
  sortByPriority := id

end MixingWallet

end Zumy.Ledger
