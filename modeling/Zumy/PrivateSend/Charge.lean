/-
  Zumy.PrivateSend.Charge — what a collateral that was accepted is worth (privatesend.cpp:
  `IsCollateralValid`, `ChargeFees` and `ChargeRandomFees`).

  A collateral is accepted on a dry run of `AcceptToMemoryPool` and charged by a real one.
  Behind the return of the dry run stand the scripts, the maturity of coinbases and the
  limits of the pool.
-/
import Zumy.Mempool.Accept
import Zumy.PrivateSend.Pool

namespace Zumy.PrivateSend

open Mempool (AcceptEnv CTxMemPool View standardScriptVerifyFlags mandatoryScriptVerifyFlags)
open Mempool.AcceptEnv (Spendable ScriptsVerify Stays Passed)

def CollateralTx.tx (txCollateral : CollateralTx) (nVersion : Int) : Coins.CTransaction := ⟨txCollateral.toCTransaction, nVersion⟩

def Node.withPool (node : Node) (env : AcceptEnv) (mempool : CTxMemPool) (nVersion : Int) : Node :=
  { node with mempoolAccepts := fun tx => (env.acceptToMemoryPoolWorker mempool ⟨tx, nVersion⟩ false true true).1 }

/-- The call of `AcceptToMemoryPool` in both functions that charge. -/
def chargeCollateral (env : AcceptEnv) (mempool : CTxMemPool) (tx : Coins.CTransaction) : Bool × CTxMemPool :=
  env.acceptToMemoryPoolWorker mempool tx false true false

structure Chargeable (env : AcceptEnv) (mempool : CTxMemPool) (tx : Coins.CTransaction) : Prop where
  spendable : Spendable env (env.view mempool) tx
  standard : ScriptsVerify env (env.view mempool) tx standardScriptVerifyFlags
  mandatory : ScriptsVerify env (env.view mempool) tx mandatoryScriptVerifyFlags
  stays : Stays env mempool tx

variable {env : AcceptEnv} {mempool : CTxMemPool} {node : Node} {txCollateral : CollateralTx} {nVersion : Int}

/-- What `IsCollateralValid` has found. -/
structure CollateralChecked (node : Node) (txCollateral : CollateralTx) (nValueIn : CAmount) : Prop where
  values : valueIn node txCollateral.vin = some nValueIn
  paid : valueOut txCollateral.vout + privatesendCollateral ≤ nValueIn
  accepted : acceptToMemoryPool node txCollateral.toCTransaction = true

theorem collateral_checked (h : isCollateralValid node txCollateral = true) : ∃ nValueIn, CollateralChecked node txCollateral nValueIn := by
  unfold isCollateralValid at h
  split at h
  · cases h
  · split at h
    · cases h
    · split at h
      · cases h
      · split at h
        · cases h
        · next nValueIn hvalues =>
          split at h
          · cases h
          · next hpaid =>
            refine ⟨nValueIn, hvalues, ?_, h⟩
            have hle := Int.not_lt.1 hpaid
            exact Int.add_le_of_le_sub_left hle

theorem collateral_dry_run (h : isCollateralValid (node.withPool env mempool nVersion) txCollateral = true) :
    (env.acceptToMemoryPoolWorker mempool (txCollateral.tx nVersion) false true true).1 = true := by
  obtain ⟨nValueIn, hchecked⟩ := collateral_checked h
  have haccepted := hchecked.accepted
  unfold acceptToMemoryPool at haccepted
  exact (Bool.and_eq_true_iff.1 haccepted).2

/-! ## The values -/

/-- `GetTransaction` finds the outputs that the view has. -/
def Agrees (node : Node) (view : View) : Prop :=
  ∀ prevout txPrev out, node.getTransaction prevout.hash = some txPrev → view.output prevout = some out →
    txPrev.vout[prevout.n]? = some out

theorem foldlM_values {view : View} (hagrees : Agrees node view) {vin : List CTxIn} {a v : CAmount}
    (hhave : ∀ txin ∈ vin, (view.output txin.prevout).isSome = true)
    (h : vin.foldlM (fun nValueIn txin => (node.getTransaction txin.prevout.hash).map fun txPrev =>
      nValueIn + ((txPrev.vout[txin.prevout.n]?).map (·.nValue)).getD 0) a = some v) :
    v = a + (vin.map fun txin => (view.output txin.prevout).elim 0 (·.nValue)).sum := by
  induction vin generalizing a with
  | nil =>
    cases h
    simp
  | cons txin vin ih =>
    obtain ⟨out, hout⟩ := Option.isSome_iff_exists.1 (hhave txin List.mem_cons_self)
    rw [List.foldlM_cons, Option.bind_eq_bind, Option.bind_eq_some_iff] at h
    obtain ⟨b, hb, hrest⟩ := h
    obtain ⟨txPrev, hprev, rfl⟩ := Option.map_eq_some_iff.1 hb
    rw [ih (fun t ht => hhave t (List.mem_cons_of_mem txin ht)) hrest, hagrees txin.prevout txPrev out hprev hout, List.map_cons,
      List.sum_cons, hout, Int.add_assoc]
    rfl

theorem collateral_covered (hs : mempool.Settled) (hagrees : Agrees node (env.view mempool))
    (h : isCollateralValid (node.withPool env mempool nVersion) txCollateral = true) :
    Mempool.AcceptEnv.valueOut (txCollateral.tx nVersion) + privatesendCollateral ≤
      (env.view mempool).getValueIn (txCollateral.tx nVersion) := by
  obtain ⟨nValueIn, hchecked⟩ := collateral_checked h
  obtain ⟨checked, hcheck⟩ := Mempool.AcceptEnv.dry_run_iff.1 (collateral_dry_run h)
  have hpassed := Mempool.AcceptEnv.check_passed hs hcheck
  have hagrees' : Agrees (node.withPool env mempool nVersion) (env.view mempool) := hagrees
  have hsum := foldlM_values hagrees' hpassed.haveOutputs hchecked.values
  have hin : nValueIn = (env.view mempool).getValueIn (txCollateral.tx nVersion) := by
    rw [hsum, Int.zero_add, View.getValueIn, hpassed.isCoinBase, if_neg Bool.false_ne_true]
  obtain ⟨nValueOut, hout⟩ := Option.isSome_iff_exists.1 hpassed.getValueOut
  have hvalue : Mempool.AcceptEnv.valueOut (txCollateral.tx nVersion) = valueOut txCollateral.vout := by
    rw [Mempool.AcceptEnv.valueOut, hout, Option.getD_some, ← (getValueOut_eq_some_iff.1 hout).2.1]
    rfl
  rw [hvalue, ← hin]
  exact hchecked.paid

/-! ## The charge -/

/-- The two runs are of one state of the node, and in it the collateral has been accepted. -/
theorem collateral_charged_iff (hs : mempool.Settled)
    (h : isCollateralValid (node.withPool env mempool nVersion) txCollateral = true) :
    (chargeCollateral env mempool (txCollateral.tx nVersion)).1 = true ↔ Chargeable env mempool (txCollateral.tx nVersion) := by
  have hdry := collateral_dry_run h
  obtain ⟨checked, hcheck⟩ := Mempool.AcceptEnv.dry_run_iff.1 hdry
  have hpassed := Mempool.AcceptEnv.check_passed hs hcheck
  unfold chargeCollateral
  rw [Mempool.AcceptEnv.accepted_iff hs hdry, Mempool.AcceptEnv.inputsPass_iff hpassed]
  constructor
  · rintro ⟨⟨hspendable, hstandard, hmandatory⟩, hstays⟩
    exact ⟨hspendable, hstandard, hmandatory, hstays⟩
  · intro hall
    exact ⟨⟨hall.spendable, hall.standard, hall.mandatory⟩, hall.stays⟩

/-! ### A collateral on an empty pool -/

namespace ChargeSample

/-- `OP_DUP OP_HASH160 <20 bytes> OP_EQUALVERIFY OP_CHECKSIG` -/
def toKeyHash : CScript := [0x76, 0xa9, 0x14] ++ List.replicate 20 5 ++ [0x88, 0xac]

/-- `OP_1` -/
def toAnyone : CScript := [0x51]

/-- Coins of two transactions: the first paid to a key hash, the second to anyone. -/
def coins : View := fun txid =>
  if txid = 7 then some ⟨false, [⟨2 * coin, toKeyHash⟩], 100, 1⟩
  else if txid = 8 then some ⟨false, [⟨2 * coin, toAnyone⟩], 100, 1⟩
  else none

/-- On the test network. Of the two scripts, `OP_1` alone is met by an empty `scriptSig`. -/
def acceptEnv : AcceptEnv where
  fRequireStandard := false
  csvActive := false
  isStandardTx _ := true
  checkFinalTx _ := true
  hasTxLockRequest _ := false
  isLockRequestValid _ := false
  getLockedOutPointTxHash _ := none
  fEnableReplacement := true
  getCoins := coins
  checkSequenceLocks _ _ := true
  areInputsStandard _ _ := true
  sigOpCount _ _ := 1
  nBytesPerSigOp := 20
  getTxSize _ := 85
  minFee := 0
  fRelayPriority := true
  minRelayTxFee := 10000
  allowFree _ _ := false
  limits := ⟨25, 101000, 25, 101000⟩
  nSpendHeight := 200
  verifyScript _ scriptPubKey _ _ _ := decide (scriptPubKey = toAnyone)
  getTime := 1000000
  mempoolExpiry := 72 * 60 * 60
  evicted := []
  GetOutputFor _ := ⟨2 * coin, toKeyHash⟩

def chainNode : Node where
  getTimeMillis := 1000000000
  isBlockchainSynced := true
  nLastSsq := some 0
  countEnabled := 10
  nSsqCount := 5
  getTransaction hash := (coins hash).map fun c => ⟨[], c.vout, hash⟩
  mempoolAccepts _ := true
  lockMain := true
  lockPS := true

def collateral (spent : Uint256) : CollateralTx :=
  ⟨⟨[⟨⟨spent, 0⟩, [], 2 ^ 32 - 1⟩], [⟨2 * coin - 2 * privatesendCollateral, toKeyHash⟩], 9⟩, 0⟩

end ChargeSample

open ChargeSample

theorem collateral_charged_sample :
    isCollateralValid (chainNode.withPool acceptEnv .empty 1) (collateral 8) = true ∧
      ((chargeCollateral acceptEnv .empty ((collateral 8).tx 1)).1 = true ↔
        Chargeable acceptEnv .empty ((collateral 8).tx 1)) := by
  have hvalid : isCollateralValid (chainNode.withPool acceptEnv .empty 1) (collateral 8) = true := by decide +kernel
  exact ⟨hvalid, collateral_charged_iff (Mempool.CTxMemPool.settled_empty rfl rfl rfl rfl) hvalid⟩

theorem collateral_covered_sample : Mempool.AcceptEnv.valueOut ((collateral 7).tx 1) + privatesendCollateral ≤
    (acceptEnv.view .empty).getValueIn ((collateral 7).tx 1) := by
  have hagrees : Agrees chainNode (acceptEnv.view .empty) := by
    intro prevout txPrev out htx hout
    obtain ⟨c, hc, rfl⟩ := Option.map_eq_some_iff.1 htx
    obtain ⟨c', hview, hout⟩ := Option.bind_eq_some_iff.1 hout
    have hunspent : Coins.CCoins.unspent c = some c' := by simpa [AcceptEnv.view, CTxMemPool.empty, acceptEnv, hc] using hview
    unfold Coins.CCoins.unspent at hunspent
    split at hunspent
    · cases hunspent
    cases hunspent
    split at hout
    · exact hout
    · cases hout
  exact collateral_covered (Mempool.CTxMemPool.settled_empty rfl rfl rfl rfl) hagrees (by decide +kernel)

/-- Nobody has signed the collateral: it is accepted, and can not be charged. -/
theorem unsigned_collateral_accepted : CTxMemPool.empty.Settled ∧
    ¬ (isCollateralValid (chainNode.withPool acceptEnv .empty 1) (collateral 7) = true →
      (chargeCollateral acceptEnv .empty ((collateral 7).tx 1)).1 = true) := by
  have hvalid : isCollateralValid (chainNode.withPool acceptEnv .empty 1) (collateral 7) = true := by decide +kernel
  have hrefused : (chargeCollateral acceptEnv .empty ((collateral 7).tx 1)).1 = false := by decide +kernel
  refine ⟨Mempool.CTxMemPool.settled_empty rfl rfl rfl rfl, fun hcharged => ?_⟩
  rw [hcharged hvalid] at hrefused
  cases hrefused

end Zumy.PrivateSend
